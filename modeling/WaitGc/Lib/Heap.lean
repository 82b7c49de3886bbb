/-
  Binary heaps, as the keys of their slots.

  The slots of a heap are `1, .., n - 1`; slot `k` stands below slot `k / 2`.
  `Ordered n f`: no slot has a smaller key than the one above it.

  An operation lifts a key `x` out of the heap, so that a slot `i` is vacant,
  and carries the vacancy up or down before it puts `x` there.  `Rising` and
  `Sinking` say what is in order meanwhile: every pair of slots away from the
  vacancy, the slots below the vacancy with the one above it, and `x` with the
  side it does not move to.
-/
import Mathlib.Order.Defs.LinearOrder
import Mathlib.Logic.Function.Basic
import Mathlib.Data.Nat.Notation
import Mathlib.Order.Lattice

namespace Heap

open Function

variable {K : Type*} [LinearOrder K] {n i j k : ℕ} {f g : ℕ → K} {x : K}

/-- The heap order. -/
def Ordered (n : ℕ) (f : ℕ → K) : Prop := ∀ k, 2 ≤ k → k < n → f (k / 2) ≤ f k

/-- The heap order away from slot `i`, and across it. -/
structure Around (n : ℕ) (f : ℕ → K) (i : ℕ) : Prop where
  away : ∀ k, 2 ≤ k → k < n → k ≠ i → k / 2 ≠ i → f (k / 2) ≤ f k
  across : ∀ k, 2 ≤ k → k < n → k / 2 = i → 2 ≤ i → f (i / 2) ≤ f k

/-- Slot `i` is vacant for the key `x`, which is not greater than what is below. -/
structure Rising (n : ℕ) (f : ℕ → K) (i : ℕ) (x : K) : Prop extends Around n f i where
  below : ∀ k, 2 ≤ k → k < n → k / 2 = i → x ≤ f k

/-- Slot `i` is vacant for the key `x`, which is not smaller than what is above. -/
structure Sinking (n : ℕ) (f : ℕ → K) (i : ℕ) (x : K) : Prop extends Around n f i where
  above : 2 ≤ i → f (i / 2) ≤ x

theorem Ordered.congr (h : Ordered n f) (hfg : ∀ k, 1 ≤ k → k < n → g k = f k) : Ordered n g := by
  intro k hk hkn
  rw [hfg k (by omega) hkn, hfg (k / 2) (by omega) (by omega)]
  exact h k hk hkn

theorem ordered_one (f : ℕ → K) : Ordered 1 f := by
  intro k hk hkn
  omega

theorem Ordered.mono {m : ℕ} (h : Ordered n f) (hm : m ≤ n) : Ordered m f :=
  fun k hk hkm => h k hk (Nat.lt_of_lt_of_le hkm hm)

/-- **The root is minimal.** -/
theorem Ordered.root_le (h : Ordered n f) : ∀ k, 1 ≤ k → k < n → f 1 ≤ f k := by
  intro k
  induction k using Nat.strongRecOn with
  | _ k ih =>
    intro hk hkn
    rcases Nat.lt_or_ge 1 k with h1 | h1
    · exact (ih (k / 2) (by omega) (by omega) (by omega)).trans (h k h1 hkn)
    · obtain rfl : k = 1 := by omega
      exact le_rfl

/-! ## Subtrees -/

/-- Slot `k` is slot `i`, or stands below it. -/
inductive Below (i : ℕ) : ℕ → Prop where
  | self : Below i i
  | child {k : ℕ} (hk : 2 ≤ k) (h : Below i (k / 2)) : Below i k

theorem below_one (hk : 1 ≤ k) : Below 1 k := by
  induction k using Nat.strongRecOn with
  | _ k ih =>
    rcases Nat.lt_or_ge 1 k with h1 | h1
    · exact .child h1 (ih (k / 2) (by omega) (by omega))
    · obtain rfl : k = 1 := by omega
      exact .self

theorem Below.le (h : Below i k) : i ≤ k := by
  induction h with
  | self => exact le_rfl
  | child hk _ ih => omega

theorem Below.trans (hij : Below i j) (hjk : Below j k) : Below i k := by
  induction hjk with
  | self => exact hij
  | child hk _ ih => exact .child hk ih

theorem Below.cases_child (h : Below i k) : k = i ∨ Below (2 * i) k ∨ Below (2 * i + 1) k := by
  induction h with
  | self => exact .inl rfl
  | @child k hk _ ih =>
    rcases ih with he | h | h
    · have h2 : k = 2 * i ∨ k = 2 * i + 1 := by omega
      rcases h2 with rfl | rfl
      · exact .inr (.inl .self)
      · exact .inr (.inr .self)
    · exact .inr (.inl (.child hk h))
    · exact .inr (.inr (.child hk h))

/-- The heap order below slot `i`. -/
def OrderedBelow (n : ℕ) (f : ℕ → K) (i : ℕ) : Prop :=
  ∀ k, Below i k → k ≠ i → k < n → f (k / 2) ≤ f k

theorem orderedBelow_iff (hi : 1 ≤ i) : OrderedBelow n f i ↔
    ∀ j, j / 2 = i → j < n → f i ≤ f j ∧ OrderedBelow n f j := by
  constructor
  · intro h j hj hjn
    have hij : Below i j := .child (by omega) (hj ▸ .self)
    refine ⟨?_, fun k hk hkj hkn => h k (hij.trans hk) ?_ hkn⟩
    · have hle := h j hij (by omega) hjn
      rwa [hj] at hle
    · have := hk.le
      omega
  · intro h k hk hki hkn
    have hunder (j : ℕ) (hj : j / 2 = i) (hjk : Below j k) : f (k / 2) ≤ f k := by
      obtain ⟨hle, hbelow⟩ := h j hj (hjk.le.trans_lt hkn)
      by_cases hkj : k = j
      · rwa [hkj, hj]
      · exact hbelow k hjk hkj hkn
    rcases hk.cases_child with he | hjk | hjk
    · exact absurd he hki
    · exact hunder _ (by omega) hjk
    · exact hunder _ (by omega) hjk

theorem ordered_iff_below : Ordered n f ↔ OrderedBelow n f 1 :=
  ⟨fun h k hk hk1 hkn => h k (by have := hk.le; omega) hkn,
    fun h k hk hkn => h k (below_one (by omega)) (by omega) hkn⟩

theorem Around.congr (h : Around n f i) (hfg : ∀ k, 1 ≤ k → k < n → k ≠ i → g k = f k) : Around n g i where
  away k hk hkn hki hk2 := by
    rw [hfg k (by omega) hkn hki, hfg (k / 2) (by omega) (by omega) hk2]
    exact h.away k hk hkn hki hk2
  across k hk hkn hk2 hi := by
    rw [hfg k (by omega) hkn (by omega), hfg (i / 2) (by omega) (by omega) (by omega)]
    exact h.across k hk hkn hk2 hi

theorem Ordered.around (h : Ordered n f) (i : ℕ) : Around n f i where
  away k hk hkn _ _ := h k hk hkn
  across k hk hkn hk2 hi := by
    have hik := h k hk hkn
    rw [hk2] at hik
    exact (h i hi (by omega)).trans hik

/-! ## Carrying the vacancy -/

theorem Rising.up (h : Rising n f i x) (hi : 1 < i) (hin : i < n) (hx : x ≤ f (i / 2)) :
    Rising n (update f i (f (i / 2))) (i / 2) x where
  away k hk hkn hk1 hk2 := by
    have hki : k ≠ i := fun he => hk2 (by rw [he])
    rw [update_of_ne hki]
    by_cases hk3 : k / 2 = i
    · rw [hk3, update_self]
      exact h.across k hk hkn hk3 hi
    · rw [update_of_ne hk3]
      exact h.away k hk hkn hki hk3
  across k hk hkn hk2 hi2 := by
    have habove := h.away (i / 2) hi2 (by omega) (by omega) (by omega)
    rw [update_of_ne (by omega)]
    by_cases hki : k = i
    · rw [hki, update_self]
      exact habove
    · rw [update_of_ne hki]
      have hk := h.away k hk hkn hki (by omega)
      rw [hk2] at hk
      exact habove.trans hk
  below k hk hkn hk2 := by
    by_cases hki : k = i
    · rw [hki, update_self]
      exact hx
    · rw [update_of_ne hki]
      have hk := h.away k hk hkn hki (by omega)
      rw [hk2] at hk
      exact hx.trans hk

/-- The least key below the vacancy comes up. -/
theorem Sinking.down (h : Sinking n f i x) (hj : j / 2 = i) (hjn : j < n)
    (hleast : ∀ k, 2 ≤ k → k < n → k / 2 = i → f j ≤ f k) (hx : f j ≤ x) :
    Sinking n (update f i (f j)) j x where
  away k hk hkn hkj hk2 := by
    by_cases hki : k = i
    · rw [hki, update_self, update_of_ne (by omega)]
      exact h.across j (by omega) hjn hj (by omega)
    · rw [update_of_ne hki]
      by_cases hk3 : k / 2 = i
      · rw [hk3, update_self]
        exact hleast k hk hkn hk3
      · rw [update_of_ne hk3]
        exact h.away k hk hkn hki hk3
  across k hk hkn hk2 hj2 := by
    rw [hj, update_self, update_of_ne (by omega)]
    have hk := h.away k hk hkn (by omega) (by omega)
    rwa [hk2] at hk
  above hj2 := by rwa [hj, update_self]

/-! ## Putting the key down -/

theorem Around.close (h : Around n f i) (habove : 2 ≤ i → f (i / 2) ≤ x)
    (hbelow : ∀ k, 2 ≤ k → k < n → k / 2 = i → x ≤ f k) : Ordered n (update f i x) := by
  intro k hk hkn
  by_cases hki : k = i
  · subst hki
    rw [update_self, update_of_ne (by omega)]
    exact habove hk
  · rw [update_of_ne hki]
    by_cases hk2 : k / 2 = i
    · rw [hk2, update_self]
      exact hbelow k hk hkn hk2
    · rw [update_of_ne hk2]
      exact h.away k hk hkn hki hk2

theorem Rising.close (h : Rising n f i x) (habove : 2 ≤ i → f (i / 2) ≤ x) :
    Ordered n (update f i x) :=
  h.toAround.close habove h.below

theorem Sinking.close (h : Sinking n f i x) (hbelow : ∀ k, 2 ≤ k → k < n → k / 2 = i → x ≤ f k) :
    Ordered n (update f i x) :=
  h.toAround.close h.above hbelow

/-! ## The changes of a heap -/

theorem Ordered.rising_last (h : Ordered n f) (x : K) : Rising (n + 1) f n x where
  away k hk hkn hkn' _ := h k hk (by omega)
  across k _ hkn hk2 _ := by omega
  below k _ hkn hk2 := by omega

theorem Ordered.rising (h : Ordered n f) (hx : x ≤ f i) : Rising n f i x where
  toAround := h.around i
  below k hk hkn hk2 := hx.trans (by have := h k hk hkn; rwa [hk2] at this)

theorem Ordered.sinking (h : Ordered n f) (hin : i < n) (hx : f i ≤ x) : Sinking n f i x where
  toAround := h.around i
  above hi := (h i hi hin).trans hx

end Heap

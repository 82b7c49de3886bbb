/-
  Taking units from slots in order.

  `n` units are taken from the slots `0, 1, ..`, of which slot `k` holds `b k`:
  a slot is emptied before the next one is touched.  `taken b n k` is what slot
  `k` gives, and `last b n m` the slot where the taking ends if there are `m`.
-/
import Mathlib.Algebra.BigOperators.Group.Finset.Basic
import Mathlib.Algebra.Order.BigOperators.Group.Finset

namespace Drain

open Finset

variable {b b' : ℕ → ℕ} {n k k' m : ℕ}

/-- What slot `k` gives: the rest of the `n` units, as far as it goes. -/
def taken (b : ℕ → ℕ) (n k : ℕ) : ℕ := min (b k) (n - ∑ i ∈ range k, b i)

theorem taken_le : taken b n k ≤ b k := min_le_left _ _

@[simp] theorem taken_zero : taken b n 0 = min (b 0) n := by simp [taken]

theorem taken_succ : taken b n (k + 1) = taken (fun i => b (i + 1)) (n - b 0) k := by
  simp only [taken, sum_range_succ', Nat.sub_sub, Nat.add_comm (b 0)]

theorem taken_congr (h : ∀ i ≤ k, b i = b' i) : taken b n k = taken b' n k := by
  have hsum : ∑ i ∈ range k, b i = ∑ i ∈ range k, b' i :=
    sum_congr rfl fun i hi => h i (mem_range.1 hi).le
  rw [taken, taken, h k le_rfl, hsum]

theorem taken_eq_zero (h : n ≤ ∑ i ∈ range k, b i) : taken b n k = 0 := by
  rw [taken, Nat.sub_eq_zero_of_le h, Nat.min_zero]

/-- **The total**: all the units, or all that there is. -/
theorem sum_taken (b : ℕ → ℕ) (n m : ℕ) :
    ∑ k ∈ range m, taken b n k = min n (∑ k ∈ range m, b k) := by
  induction m with
  | zero => simp
  | succ m ih =>
    rw [sum_range_succ, sum_range_succ, ih, taken]
    omega

theorem sum_rest (b : ℕ → ℕ) (n m : ℕ) :
    ∑ k ∈ range m, (b k - taken b n k) = ∑ k ∈ range m, b k - n := by
  induction m with
  | zero => simp
  | succ m ih =>
    rw [sum_range_succ, sum_range_succ, ih, taken]
    omega

/-- Slots of at most `c` units hold `c` units each, or less. -/
theorem sum_le_mul {c : ℕ} (h : ∀ k, b k ≤ c) (n : ℕ) : ∑ k ∈ range n, b k ≤ c * n := by
  induction n with
  | zero => simp
  | succ n ih =>
    rw [sum_range_succ, Nat.mul_succ]
    exact Nat.add_le_add ih (h n)

theorem eq_of_sum_eq {c : ℕ} (h : ∀ k, b k ≤ c) (hsum : c * n ≤ ∑ k ∈ range n, b k) :
    ∀ k < n, b k = c := by
  induction n with
  | zero => exact fun k hk => absurd hk (Nat.not_lt_zero k)
  | succ n ih =>
    have hn := h n
    have hprefix := sum_le_mul h n
    rw [sum_range_succ, Nat.mul_succ] at hsum
    intro k hk
    obtain hlt | rfl := Nat.lt_succ_iff_lt_or_eq.1 hk
    · exact ih (by omega) k hlt
    · omega

/-- **The order**: a slot that gives something finds those before it empty. -/
theorem taken_eq_of_pos (hk : k < k') (hpos : 0 < taken b n k') : taken b n k = b k := by
  have hprefix : ∑ i ∈ range k, b i + b k ≤ ∑ i ∈ range k', b i := by
    rw [← sum_range_succ]
    exact sum_le_sum_of_subset (range_subset_range.2 hk)
  have hrest : 0 < n - ∑ i ∈ range k', b i := hpos.trans_le (min_le_right _ _)
  exact min_eq_left (by omega)

/-- The slot where the units are served, or the last one. -/
def last (b : ℕ → ℕ) (n : ℕ) : ℕ → ℕ
  | 0 => 0
  | m + 1 => if n ≤ b 0 ∨ m = 0 then 0 else last (fun i => b (i + 1)) (n - b 0) m + 1

theorem last_congr {b b' : ℕ → ℕ} {n : ℕ} : ∀ {m : ℕ}, (∀ i < m, b i = b' i) → last b n m = last b' n m
  | 0, _ => rfl
  | m + 1, h => by
    have hzero := h 0 (Nat.succ_pos m)
    rw [last, last, hzero, last_congr fun i hi => h (i + 1) (Nat.succ_lt_succ hi)]

/-- Units that no fewer slots serve end in the last one. -/
theorem last_eq {b : ℕ → ℕ} {n : ℕ} : ∀ {m : ℕ}, (∀ i < m, 0 < i → ∑ j ∈ range i, b j < n) →
    last b n m = m - 1
  | 0, _ => rfl
  | m + 1, h => by
    rw [last]
    by_cases hm : m = 0
    · rw [if_pos (.inr hm), hm]
    · have hfirst := h 1 (by omega) Nat.one_pos
      rw [sum_range_one] at hfirst
      rw [if_neg (by omega), last_eq fun i hi hpos => ?_]
      · omega
      · have := h (i + 1) (by omega) (Nat.succ_pos i)
        rw [sum_range_succ'] at this
        omega

end Drain

/-
  Counting the cells of a finite region that hold a given value.

  `tally S f b` is the number of cells `k ∈ S` with `f k = b`.  The lemmas say
  how a tally moves when one cell is overwritten, that it only depends on the
  cells of the region, and how the tally of a grid is the sum of the tallies
  of its rows.
-/
import Mathlib.Algebra.BigOperators.Group.Finset.Basic
import Mathlib.Algebra.BigOperators.Group.Finset.Piecewise
import Mathlib.Algebra.BigOperators.Group.Finset.Sigma
import Mathlib.Data.Finset.Card
import Mathlib.Data.Finset.Prod
import Mathlib.Logic.Function.Basic

namespace Tally

variable {κ ι β : Type*} [DecidableEq β]

/-- The number of cells of `S` that hold `b`. -/
def tally (S : Finset κ) (f : κ → β) (b : β) : ℕ := (S.filter fun k => f k = b).card

theorem tally_congr {S : Finset κ} {f g : κ → β} (h : ∀ k ∈ S, f k = g k) (b : β) :
    tally S f b = tally S g b := by
  unfold tally
  rw [Finset.filter_congr fun k hk => by rw [h k hk]]

theorem tally_le_card (S : Finset κ) (f : κ → β) (b : β) : tally S f b ≤ S.card :=
  Finset.card_filter_le _ _

theorem tally_eq_zero {S : Finset κ} {f : κ → β} {b : β} (h : ∀ k ∈ S, f k ≠ b) :
    tally S f b = 0 := by
  rw [tally, Finset.card_eq_zero, Finset.filter_eq_empty_iff]
  exact fun k hk => h k hk

theorem tally_eq_card {S : Finset κ} {f : κ → β} {b : β} :
    tally S f b = S.card ↔ ∀ k ∈ S, f k = b := by
  rw [tally, Finset.card_filter_eq_iff]

theorem tally_pos {S : Finset κ} {f : κ → β} {b : β} {k : κ} (hk : k ∈ S) (h : f k = b) :
    0 < tally S f b :=
  Finset.card_pos.2 ⟨k, Finset.mem_filter.2 ⟨hk, h⟩⟩

theorem exists_of_tally_pos {S : Finset κ} {f : κ → β} {b : β} (h : 0 < tally S f b) :
    ∃ k ∈ S, f k = b := by
  obtain ⟨k, hk⟩ := Finset.card_pos.1 h
  exact ⟨k, (Finset.mem_filter.1 hk).1, (Finset.mem_filter.1 hk).2⟩

theorem card_filter_ne (S : Finset κ) (f : κ → β) (b : β) :
    (S.filter fun k => f k ≠ b).card + tally S f b = S.card := by
  rw [tally, Nat.add_comm]; exact Finset.card_filter_add_card_filter_not _

theorem tally_range (n : ℕ) (f : ℕ → β) (b : β) :
    tally (Finset.range n) f b = (List.range n).countP fun k => decide (f k = b) := by
  rw [List.countP_eq_length_filter]
  rfl

section Update
variable [DecidableEq κ] {S : Finset κ} {f : κ → β} {k : κ} {a b c : β}

theorem tally_update_new (hk : k ∈ S) (hb : f k ≠ b) :
    tally S (Function.update f k b) b = tally S f b + 1 := by
  unfold tally
  rw [← Finset.card_insert_of_notMem (a := k) (by simp [hb])]
  congr 1
  ext j
  by_cases hj : j = k
  · subst hj; simp [hk]
  · simp [hj]

theorem tally_update_old (hk : k ∈ S) (ha : f k = a) (hb : b ≠ a) :
    tally S (Function.update f k b) a + 1 = tally S f a := by
  have h := tally_update_new (f := Function.update f k b) (k := k) (b := a) hk
    (by rw [Function.update_self]; exact hb)
  rw [Function.update_idem, ← ha, Function.update_eq_self] at h
  rw [← ha, h]

theorem tally_update_other (ha : f k ≠ c) (hb : b ≠ c) :
    tally S (Function.update f k b) c = tally S f c := by
  unfold tally
  congr 1
  ext j
  by_cases hj : j = k
  · subst hj; simp [ha, hb]
  · simp [hj]

/-- **Overwriting one cell**: what every tally loses and gains. -/
theorem tally_update (hk : k ∈ S) (v b : β) :
    tally S (Function.update f k v) b + (if f k = b then 1 else 0) =
      tally S f b + if v = b then 1 else 0 := by
  by_cases ha : f k = b
  · by_cases hv : v = b
    · rw [hv, ← ha, Function.update_eq_self]
    · rw [if_pos ha, if_neg hv, tally_update_old hk ha hv]; rfl
  · by_cases hv : v = b
    · rw [if_neg ha, if_pos hv, hv, tally_update_new hk ha]
    · rw [if_neg ha, if_neg hv, tally_update_other ha hv]

end Update

theorem tally_product (S : Finset ι) (T : Finset κ) (f : ι × κ → β) (b : β) :
    tally (S ×ˢ T) f b = ∑ i ∈ S, tally T (fun k => f (i, k)) b := by
  simp only [tally, Finset.card_filter, Finset.sum_product]

end Tally

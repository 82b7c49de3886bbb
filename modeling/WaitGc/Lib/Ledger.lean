/-
  Ledgers: items that are issued, held and settled.

  Every item issued gets the next number as its tag, and is put in the hands of
  a holder; a holder settles the item it holds, which is noted.  `Balanced` says
  that nothing is lost and nothing is settled twice: an item is either held, by
  one holder, and was not settled, or was settled exactly once.  Issuing and
  settling keep the balance (`Balanced.issue`, `Balanced.settle`).

  A holder holds an item in its own form (`entry`); `carries` relates the form
  to the item.
-/
import Mathlib.Data.List.Basic
import Mathlib.Logic.Function.Basic

namespace Ledger

open Function

variable {α β γ : Type*} {carries : γ → β → Prop} {tag tag' : α → ℕ} {entry entry' : α → γ}
  {issued : List β} {settled : List (ℕ × γ)} {holds holds' : α → Prop} {a : α} {b : β}

/-- The notes on the item `t`. -/
def notes (settled : List (ℕ × γ)) (t : ℕ) : List (ℕ × γ) := settled.filter fun x => x.1 = t

theorem notes_append (settled : List (ℕ × γ)) (t t' : ℕ) (c : γ) :
    notes (settled ++ [(t', c)]) t = if t' = t then notes settled t ++ [(t', c)] else notes settled t := by
  unfold notes
  rw [List.filter_append]
  split <;> simp [*]

theorem length_notes (settled : List (ℕ × γ)) (t : ℕ) :
    (notes settled t).length = (settled.map Prod.fst).count t := by
  induction settled with
  | nil => rfl
  | cons x settled ih =>
    unfold notes at ih ⊢
    rw [List.filter_cons, List.map_cons, List.count_cons, ← ih]
    by_cases hx : x.1 = t <;> simp [hx]

/-- Nothing is lost, and nothing is settled twice. -/
structure Balanced (carries : γ → β → Prop) (tag : α → ℕ) (entry : α → γ) (issued : List β)
    (settled : List (ℕ × γ)) (holds : α → Prop) : Prop where
  held : ∀ a, holds a → ∃ b, issued[tag a]? = some b ∧ carries (entry a) b
  unsettled : ∀ a, holds a → notes settled (tag a) = []
  once : ∀ a a', holds a → holds a' → tag a = tag a' → a = a'
  known : ∀ x ∈ settled, x.1 < issued.length
  kept : ∀ t b, issued[t]? = some b → (∃ a, holds a ∧ tag a = t) ∨
    ∃ c, notes settled t = [(t, c)] ∧ carries c b

namespace Balanced

theorem empty (carries : γ → β → Prop) (tag : α → ℕ) (entry : α → γ) :
    Balanced carries tag entry [] [] fun _ => False :=
  ⟨by simp, by simp, by simp, by simp, by simp⟩

/-- The same items, in the same hands. -/
theorem congr (h : Balanced carries tag entry issued settled holds)
    (hholds : ∀ a, holds' a ↔ holds a)
    (hentry : ∀ a b, holds a → carries (entry a) b → carries (entry' a) b) :
    Balanced carries tag entry' issued settled holds' where
  held := by
    intro a ha
    obtain ⟨b, hb, hc⟩ := h.held a ((hholds a).1 ha)
    exact ⟨b, hb, hentry a b ((hholds a).1 ha) hc⟩
  unsettled := fun a ha => h.unsettled a ((hholds a).1 ha)
  once := fun a a' ha ha' => h.once a a' ((hholds a).1 ha) ((hholds a').1 ha')
  known := h.known
  kept := by
    intro t b hb
    rcases h.kept t b hb with ⟨a, ha, ht⟩ | hsettled
    · exact .inl ⟨a, (hholds a).2 ha, ht⟩
    · exact .inr hsettled

theorem tag_lt (h : Balanced carries tag entry issued settled holds) (ha : holds a) :
    tag a < issued.length := by
  obtain ⟨b, hb, -⟩ := h.held a ha
  exact (List.getElem?_eq_some_iff.1 hb).1

/-- An item is issued to a holder with free hands. -/
theorem issue [DecidableEq α] (h : Balanced carries tag entry issued settled holds)
    (ha : ¬ holds a) (hb : carries (entry a) b) :
    Balanced carries (update tag a issued.length) entry (issued ++ [b]) settled
      fun x => x = a ∨ holds x := by
  have hold {x : α} (hx : holds x) : update tag a issued.length x = tag x := by
    refine update_of_ne ?_ _ _
    rintro rfl
    exact ha hx
  have hnone : notes settled issued.length = [] := by
    refine List.filter_eq_nil_iff.2 ?_
    intro x hx
    have := h.known x hx
    simp only [decide_eq_true_eq]
    omega
  refine ⟨?_, ?_, ?_, ?_, ?_⟩
  · rintro x (rfl | hx)
    · exact ⟨b, by simp, hb⟩
    · obtain ⟨b', hb', hc⟩ := h.held x hx
      rw [hold hx]
      exact ⟨b', by rw [List.getElem?_append_left (h.tag_lt hx)]; exact hb', hc⟩
  · rintro x (rfl | hx)
    · rw [update_self]
      exact hnone
    · rw [hold hx]
      exact h.unsettled x hx
  · rintro x x' (rfl | hx) (rfl | hx') heq
    · rfl
    · rw [update_self, hold hx'] at heq
      exact absurd (h.tag_lt hx') (by omega)
    · rw [update_self, hold hx] at heq
      exact absurd (h.tag_lt hx) (by omega)
    · rw [hold hx, hold hx'] at heq
      exact h.once x x' hx hx' heq
  · intro x hx
    rw [List.length_append]
    exact Nat.lt_add_right _ (h.known x hx)
  · intro t b' hb'
    rcases Nat.lt_trichotomy t issued.length with hlt | rfl | hgt
    · rw [List.getElem?_append_left hlt] at hb'
      rcases h.kept t b' hb' with ⟨x, hx, ht⟩ | hsettled
      · exact .inl ⟨x, .inr hx, (hold hx).trans ht⟩
      · exact .inr hsettled
    · exact .inl ⟨a, .inl rfl, update_self _ _ _⟩
    · rw [List.getElem?_eq_none (by simp; omega)] at hb'
      cases hb'

theorem settle (h : Balanced carries tag entry issued settled holds) (ha : holds a) :
    Balanced carries tag entry issued (settled ++ [(tag a, entry a)]) fun x => holds x ∧ x ≠ a := by
  refine ⟨fun x hx => h.held x hx.1, ?_, fun x x' hx hx' => h.once x x' hx.1 hx'.1, ?_, ?_⟩
  · rintro x ⟨hx, hne⟩
    have htag : tag a ≠ tag x := fun heq => hne (h.once a x ha hx heq).symm
    rw [notes_append, if_neg htag]
    exact h.unsettled x hx
  · intro x hx
    rcases List.mem_append.1 hx with hx | hx
    · exact h.known x hx
    · rw [List.mem_singleton.1 hx]
      exact h.tag_lt ha
  · intro t b hb
    rcases h.kept t b hb with ⟨x, hx, ht⟩ | ⟨c, hc, hcb⟩
    · by_cases hxa : x = a
      · subst hxa
        obtain ⟨b', hb', hcarries⟩ := h.held x hx
        rw [ht, hb] at hb'
        obtain rfl := Option.some.inj hb'
        refine .inr ⟨entry x, ?_, hcarries⟩
        rw [notes_append, if_pos ht, ← ht, h.unsettled x hx, List.nil_append]
      · exact .inl ⟨x, ⟨hx, hxa⟩, ht⟩
    · have htag : tag a ≠ t := by
        rintro rfl
        rw [h.unsettled a ha] at hc
        cases hc
      refine .inr ⟨c, ?_, hcb⟩
      rw [notes_append, if_neg htag]
      exact hc

end Balanced

end Ledger

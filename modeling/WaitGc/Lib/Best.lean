/-
  The best element of a set, for a relation `r a b` read "`a` is better than `b`".

  A scan keeps the best of what it has visited and compares each element with that
  only (`better`).  On a set whose elements are pairwise comparable, it ends with the
  one element that is better than all others (`IsBest.visit`), and an element that is
  visited in addition changes the outcome only if none of the others is better
  (`IsBest.mem_iff`).
-/
import Mathlib.Data.Set.Insert

namespace Best

variable {α : Type*} {r : α → α → Prop} {A : Set α} {a b : α}

/-- `b` is better than all other elements of `A`; `none` for the best of the empty set. -/
def IsBest (r : α → α → Prop) (A : Set α) : Option α → Prop
  | none => A = ∅
  | some b => b ∈ A ∧ ∀ a ∈ A, a ≠ b → r b a

/-- What the scan keeps when it visits `a`. -/
def better (r : α → α → Prop) [DecidableRel r] : Option α → α → α
  | none, a => a
  | some b, a => if r a b then a else b

/-- The relation is a strict order in which the elements of `A` are comparable. -/
structure Ranks (r : α → α → Prop) (A : Set α) : Prop where
  trans : ∀ a b c, r a b → r b c → r a c
  irrefl : ∀ a, ¬ r a a
  total : ∀ a ∈ A, ∀ b ∈ A, a ≠ b → r a b ∨ r b a

theorem Ranks.mono {A' : Set α} (h : Ranks r A) (hA : A' ⊆ A) : Ranks r A' :=
  ⟨h.trans, h.irrefl, fun a ha b hb => h.total a (hA ha) b (hA hb)⟩

theorem Ranks.asymm (h : Ranks r A) (hab : r a b) : ¬ r b a := fun hba => h.irrefl a (h.trans a b a hab hba)

/-- **One more element is visited.** -/
theorem IsBest.visit [DecidableRel r] {o : Option α} (h : IsBest r A o) (hr : Ranks r (insert a A)) :
    IsBest r (insert a A) (some (better r o a)) := by
  cases o with
  | none =>
    obtain rfl : A = ∅ := h
    refine ⟨Set.mem_insert a ∅, fun x hx hne => ?_⟩
    rcases hx with rfl | hx
    · exact absurd rfl hne
    · exact absurd hx (Set.notMem_empty x)
  | some b =>
    obtain ⟨hb, hbest⟩ := h
    unfold better
    dsimp only
    split_ifs with hab
    · -- the new element is better than the old best, so than all
      refine ⟨Set.mem_insert a A, fun x hx hne => ?_⟩
      rcases hx with rfl | hx
      · exact absurd rfl hne
      · by_cases hxb : x = b
        · exact hxb ▸ hab
        · exact hr.trans a b x hab (hbest x hx hxb)
    · refine ⟨Set.mem_insert_of_mem a hb, fun x hx hne => ?_⟩
      rcases hx with rfl | hx
      · exact (hr.total x (Set.mem_insert x A) b (Set.mem_insert_of_mem x hb) hne).resolve_left hab
      · exact hbest x hx hne

/-- **An additional element does not win**, exactly if it is no addition or some element is better. -/
theorem IsBest.mem_iff (h : IsBest r (insert a A) (some b)) (hr : Ranks r (insert a A)) :
    b ∈ A ↔ a ∈ A ∨ ∃ i ∈ A, r i a := by
  obtain ⟨hb, hbest⟩ := h
  constructor
  · intro hbA
    by_cases hab : a = b
    · exact .inl (hab ▸ hbA)
    · exact .inr ⟨b, hbA, hbest a (Set.mem_insert a A) hab⟩
  · rintro (ha | ⟨i, hi, hia⟩)
    · exact (Set.insert_eq_of_mem ha).subset hb
    · refine hb.resolve_left fun hba => ?_
      by_cases hib : i = b
      · rw [hib, hba] at hia
        exact hr.irrefl a hia
      · have hbi := hbest i (Set.mem_insert_of_mem a hi) hib
        rw [hba] at hbi
        exact hr.asymm hia hbi

end Best

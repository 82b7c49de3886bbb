/-
  Lists whose adjacent elements are joined.

  `Coarsens join l m`: some joins of adjacent elements make `l` into `m`.  Coarsening
  composes, goes on inside a longer list (`append`), and joins any run of
  elements (`coarsens_foldl`); what one join preserves it preserves
  (`Coarsens.preserves`).
-/
import Mathlib.Logic.Relation

universe u
variable {α : Type u} {join : α → α → α} {l l' m m' n : List α}

/-- Two adjacent elements are joined. -/
inductive JoinStep (join : α → α → α) : List α → List α → Prop
  | mk (pre : List α) (a b : α) (post : List α) :
      JoinStep join (pre ++ a :: b :: post) (pre ++ join a b :: post)

/-- Adjacent elements are joined, any number of times. -/
def Coarsens (join : α → α → α) : List α → List α → Prop := Relation.ReflTransGen (JoinStep join)

theorem JoinStep.append_left (k : List α) (h : JoinStep join l m) : JoinStep join (k ++ l) (k ++ m) := by
  obtain ⟨pre, a, b, post⟩ := h
  rw [← List.append_assoc, ← List.append_assoc]
  exact .mk (k ++ pre) a b post

theorem JoinStep.append_right (k : List α) (h : JoinStep join l m) : JoinStep join (l ++ k) (m ++ k) := by
  obtain ⟨pre, a, b, post⟩ := h
  rw [List.append_assoc, List.append_assoc]
  exact .mk pre a b (post ++ k)

namespace Coarsens

theorem refl (l : List α) : Coarsens join l l := Relation.ReflTransGen.refl

theorem trans (h : Coarsens join l m) (h' : Coarsens join m n) : Coarsens join l n :=
  Relation.ReflTransGen.trans h h'

theorem single (pre : List α) (a b : α) (post : List α) :
    Coarsens join (pre ++ a :: b :: post) (pre ++ join a b :: post) :=
  Relation.ReflTransGen.single (.mk pre a b post)

theorem append (h : Coarsens join l m) (h' : Coarsens join l' m') :
    Coarsens join (l ++ l') (m ++ m') := by
  have hleft : Coarsens join (l ++ l') (m ++ l') :=
    Relation.ReflTransGen.lift (· ++ l') (fun _ _ => JoinStep.append_right l') _ _ h
  have hright : Coarsens join (m ++ l') (m ++ m') :=
    Relation.ReflTransGen.lift (m ++ ·) (fun _ _ => JoinStep.append_left m) _ _ h'
  exact hleft.trans hright

/-- **What a join preserves.** -/
theorem preserves {P : List α → Prop}
    (hjoin : ∀ pre a b post, P (pre ++ a :: b :: post) → P (pre ++ join a b :: post))
    (h : Coarsens join l m) (hl : P l) : P m := by
  induction h with
  | refl => exact hl
  | tail _ hstep ih =>
    obtain ⟨pre, a, b, post⟩ := hstep
    exact hjoin pre a b post ih

theorem ne_nil (h : Coarsens join l m) (hl : l ≠ []) : m ≠ [] :=
  h.preserves (P := (· ≠ []))
    (fun _ _ _ _ _ => List.append_ne_nil_of_right_ne_nil _ (List.cons_ne_nil _ _)) hl

theorem length_le (h : Coarsens join l m) : m.length ≤ l.length := by
  refine h.preserves (P := fun k => k.length ≤ l.length) (fun pre a b post hle => ?_) (Nat.le_refl _)
  simp only [List.length_append, List.length_cons] at hle ⊢
  omega

end Coarsens

theorem coarsens_foldl (a : α) (l : List α) : Coarsens join (a :: l) [l.foldl join a] := by
  induction l generalizing a with
  | nil => exact .refl _
  | cons b l ih => exact (Coarsens.single [] a b l).trans (ih (join a b))

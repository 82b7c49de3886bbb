/-
  Lists that traverse a set of cells.

  A traversal visits keys in turn and each key contributes its cells.  If a
  cell tells its key, no cell is visited twice; if the keys come sorted, every
  smaller key was visited before.  A traversal with a state and an output at each
  element is a fold beside `foldOut`, and `fold_inv` is the invariant rule of both.
-/
import Mathlib.Data.List.Nodup
import Mathlib.Data.List.Pairwise
import Mathlib.Order.Lattice

namespace Traverse

variable {κ α β : Type*} {l pre post : List κ} {f : κ → List α}

theorem nodup_flatMap_of_key (key : α → κ) (hl : l.Nodup) (hf : ∀ k ∈ l, (f k).Nodup)
    (hkey : ∀ k ∈ l, ∀ a ∈ f k, key a = k) : (l.flatMap f).Nodup := by
  rw [List.nodup_flatMap]
  refine ⟨hf, ?_⟩
  have hne : l.Pairwise fun k k' => k ∈ l ∧ k' ∈ l ∧ k ≠ k' :=
    List.Pairwise.imp_of_mem (fun hk hk' hne => ⟨hk, hk', hne⟩) hl
  refine hne.imp ?_
  rintro k k' ⟨hk, hk', hne⟩ a ha ha'
  exact hne ((hkey k hk a ha).symm.trans (hkey k' hk' a ha'))

theorem mem_prefix_of_lt [LinearOrder β] {rank : κ → β} {k k' : κ}
    (hl : l.Pairwise fun a b => rank a ≤ rank b) (he : l = pre ++ k :: post) (hm : k' ∈ l)
    (hlt : rank k' < rank k) : k' ∈ pre := by
  subst he
  rcases List.mem_append.1 hm with h | h
  · exact h
  · exfalso
    rcases List.mem_cons.1 h with rfl | h
    · exact lt_irrefl _ hlt
    · have hle := (List.pairwise_cons.1 (List.pairwise_append.1 hl).2.1).1 k' h
      exact absurd hlt (not_lt.2 hle)

theorem rank_le_of_mem_prefix [LinearOrder β] {rank : κ → β} {k k' : κ}
    (hl : l.Pairwise fun a b => rank a ≤ rank b) (he : l = pre ++ k :: post) (hm : k' ∈ pre) :
    rank k' ≤ rank k := by
  subst he
  exact (List.pairwise_append.1 hl).2.2 k' hm k List.mem_cons_self

theorem notMem_prefix {k : κ} (hl : l.Nodup) (he : l = pre ++ k :: post) : k ∉ pre := by
  subst he
  intro hm
  exact (List.nodup_append.1 hl).2.2 k hm k List.mem_cons_self rfl

/-! ## Folds with an output -/

variable {σ ω : Type*} {step : σ → α → σ} {out : σ → α → List ω}

/-- What the steps of `foldl` put out. -/
def foldOut (step : σ → α → σ) (out : σ → α → List ω) : σ → List α → List ω
  | _, [] => []
  | s, a :: l => out s a ++ foldOut step out (step s a) l

/-- **The invariant rule**: `I` relates the elements passed, the state and the output. -/
theorem fold_inv (I : List α → σ → List ω → Prop) {l : List α}
    (hstep : ∀ pre a post s log, l = pre ++ a :: post → I pre s log → I (pre ++ [a]) (step s a) (log ++ out s a))
    {s : σ} (hs : I [] s []) : I l (l.foldl step s) (foldOut step out s l) := by
  have hloop (pre post : List α) (s : σ) (log : List ω) (hl : l = pre ++ post) (h : I pre s log) :
      I (pre ++ post) (post.foldl step s) (log ++ foldOut step out s post) := by
    induction post generalizing pre s log with
    | nil => rwa [List.append_nil, foldOut, List.append_nil]
    | cons a post ih =>
      have hnext := ih (pre ++ [a]) (step s a) (log ++ out s a) (by rw [hl, List.append_assoc]; rfl)
        (hstep pre a post s log hl h)
      rwa [List.append_assoc, List.append_assoc] at hnext
  exact hloop [] l s [] rfl hs

end Traverse

/-
  NAND flash under a translation layer.

  A block has `n` cells.  A cell is programmed once between two erases of its
  block, and the cells of a block are programmed in order.  A cell holds a page
  of the host together with the number of the write that brought it.

  * `Disk` is what the host sees: for every page the number of its last write.
  * `Chip.apply` carries out an operation of the layer.  The layer moves data by
    `copy`; what a cell holds is never its choice.
  * `Safe` says that the flash can carry out every operation, and that after each
    of them every page of the host is in some cell with its last write.
  * `Holds` says that a map leads to those cells.  The rules `Holds.write`,
    `Holds.copy`, `Holds.erase` and `Holds.trim` keep it, and `Runs` composes
    what they prove of single operations.
-/
import Mathlib.Data.List.Basic
import Mathlib.Logic.Function.Basic

namespace Flash

open Function

variable {β κ : Type*}

/-! ## The host's view -/

/-- What the host does to a page. -/
inductive HostOp (κ : Type*) where
  | write (l : κ)
  | trim (l : κ)
  deriving DecidableEq, Repr

/-- The pages of the host: the number of the last write of each page that was not trimmed
    since, and how many writes there were. -/
structure Disk (κ : Type*) where
  latest : κ → Option ℕ
  writes : ℕ

/-- Nothing was written. -/
def Disk.empty : Disk κ := ⟨fun _ => none, 0⟩

def Disk.apply [DecidableEq κ] (d : Disk κ) : HostOp κ → Disk κ
  | .write l => ⟨update d.latest l (some d.writes), d.writes + 1⟩
  | .trim l => { d with latest := update d.latest l none }

/-! ## Operations -/

/-- The operations of the layer. -/
inductive Op (β κ : Type*) where
  | write (l : κ) (b : β) (k : ℕ)
  | copy (b : β) (k : ℕ) (b' : β) (k' : ℕ)
  | erase (b : β)
  | trim (l : κ)
  deriving DecidableEq, Repr

/-- What the host has to do with it. -/
def Op.host : Op β κ → Option (HostOp κ)
  | .write l _ _ => some (.write l)
  | .trim l => some (.trim l)
  | .copy .. => none
  | .erase _ => none

/-- The cells, the host's view, and how often pages were copied and blocks erased. -/
structure Chip (β κ : Type*) where
  cell : β → ℕ → Option (κ × ℕ)
  disk : Disk κ
  copies : ℕ
  erases : β → ℕ

namespace Chip

/-- A new flash. -/
def erased : Chip β κ := ⟨fun _ _ => none, .empty, 0, fun _ => 0⟩

/-- The next cell of the block is `k`. -/
def Next (n : ℕ) (f : Chip β κ) (b : β) (k : ℕ) : Prop :=
  k < n ∧ ∀ j < n, f.cell b j = none ↔ k ≤ j

/-- The flash can carry out the operation. -/
def Legal (n : ℕ) (f : Chip β κ) : Op β κ → Prop
  | .write _ b k => f.Next n b k
  | .copy b k b' k' => f.Next n b' k' ∧ k < n ∧ f.cell b k ≠ none
  | .erase _ => True
  | .trim _ => True

/-- Every page of the host is in some cell with its last write. -/
def Durable (n : ℕ) (f : Chip β κ) : Prop :=
  ∀ l x, f.disk.latest l = some x → ∃ b, ∃ k < n, f.cell b k = some (l, x)

/-! ## A map to the cells -/

variable {n : ℕ} {f f₁ f₂ : Chip β κ} {m : κ → Option (β × ℕ)} {l : κ} {b b' : β} {k k' : ℕ}

/-- The map leads to the cell of every page of the host. -/
structure Holds (n : ℕ) (f : Chip β κ) (m : κ → Option (β × ℕ)) : Prop where
  found : ∀ l b k, m l = some (b, k) → k < n ∧ ∃ x, f.disk.latest l = some x ∧ f.cell b k = some (l, x)
  dropped : ∀ l, m l = none → f.disk.latest l = none

theorem Next.erased (h : f.Next n b k) : f.cell b k = none := (h.2 k h.1).2 (Nat.le_refl k)

theorem holds_erased : (erased : Chip β κ).Holds n fun _ => none where
  found _ _ _ h := nomatch h
  dropped _ _ := rfl

theorem Holds.durable (h : f.Holds n m) : f.Durable n := by
  intro l x hx
  cases hm : m l with
  | none =>
    rw [h.dropped l hm] at hx
    cases hx
  | some a =>
    obtain ⟨hk, y, hy, hc⟩ := h.found l a.1 a.2 hm
    obtain rfl : y = x := Option.some.inj (hy.symm.trans hx)
    exact ⟨a.1, a.2, hk, hc⟩

theorem Holds.ne_of_erased (h : f.Holds n m) (hm : m l = some (b, k)) (hc : f.cell b' k' = none) :
    ¬ (b = b' ∧ k = k') := by
  rintro ⟨rfl, rfl⟩
  obtain ⟨-, x, -, hx⟩ := h.found l b k hm
  rw [hc] at hx
  cases hx

theorem update_cell [DecidableEq β] {α : Type*} {g : β → ℕ → α} {v : α} (hne : ¬ (b = b' ∧ k = k')) :
    update g b' (update (g b') k' v) b k = g b k := by
  by_cases hb : b = b'
  · subst hb
    rw [update_self, update_of_ne fun hk => hne ⟨rfl, hk⟩]
  · rw [update_of_ne hb]

/-! ## Histories -/

variable [DecidableEq β] [DecidableEq κ]

/-- The operation is carried out. -/
def apply (f : Chip β κ) : Op β κ → Chip β κ
  | .write l b k =>
    { f with
      cell := update f.cell b (update (f.cell b) k (some (l, f.disk.writes)))
      disk := f.disk.apply (.write l) }
  | .copy b k b' k' =>
    { f with
      cell := update f.cell b' (update (f.cell b') k' (f.cell b k))
      copies := f.copies + 1 }
  | .erase b =>
    { f with
      cell := update f.cell b fun _ => none
      erases := update f.erases b (f.erases b + 1) }
  | .trim l => { f with disk := f.disk.apply (.trim l) }

/-- The operations can be carried out one after the other, and no page is lost after any of
    them. -/
def Safe (n : ℕ) : Chip β κ → List (Op β κ) → Prop
  | _, [] => True
  | f, op :: ops => f.Legal n op ∧ (f.apply op).Durable n ∧ Safe n (f.apply op) ops

/-- The operations are carried out. -/
def after (f : Chip β κ) (ops : List (Op β κ)) : Chip β κ := ops.foldl apply f

variable {op : Op β κ} {ops ops' : List (Op β κ)} {hs hs' : List (HostOp κ)}

theorem after_append : f.after (ops ++ ops') = (f.after ops).after ops' := List.foldl_append ..

theorem safe_append : Safe n f (ops ++ ops') ↔ Safe n f ops ∧ Safe n (f.after ops) ops' := by
  induction ops generalizing f with
  | nil => simp [Safe, after]
  | cons op ops ih => simp only [List.cons_append, Safe, ih, and_assoc]; rfl

theorem disk_apply (f : Chip β κ) (op : Op β κ) :
    (f.apply op).disk = op.host.toList.foldl Disk.apply f.disk := by
  cases op <;> rfl

theorem disk_after : (f.after ops).disk = (ops.filterMap Op.host).foldl Disk.apply f.disk := by
  induction ops generalizing f with
  | nil => rfl
  | cons op ops ih =>
    change ((f.apply op).after ops).disk = _
    rw [ih, disk_apply]
    cases h : op.host with
    | none => simp [h]
    | some x => simp [h]

/-- The layer answers the host's operations `hs` safely. -/
def Runs (n : ℕ) (f : Chip β κ) (hs : List (HostOp κ)) (f' : Chip β κ) : Prop :=
  ∃ ops, Safe n f ops ∧ f.after ops = f' ∧ ops.filterMap Op.host = hs

theorem Runs.refl (n : ℕ) (f : Chip β κ) : Runs n f [] f := ⟨[], trivial, rfl, rfl⟩

theorem Runs.trans (h : Runs n f hs f₁) (h' : Runs n f₁ hs' f₂) : Runs n f (hs ++ hs') f₂ := by
  obtain ⟨ops, hsafe, rfl, rfl⟩ := h
  obtain ⟨ops', hsafe', rfl, rfl⟩ := h'
  exact ⟨ops ++ ops', safe_append.2 ⟨hsafe, hsafe'⟩, after_append, List.filterMap_append⟩

theorem Runs.single (hl : f.Legal n op) (hd : (f.apply op).Durable n) :
    Runs n f op.host.toList (f.apply op) := by
  refine ⟨[op], ⟨hl, hd, trivial⟩, rfl, ?_⟩
  cases h : op.host <;> simp [h]

/-! ## Rules -/

/-- **A page of the host is written** to the next cell of a block. -/
theorem Holds.write (h : f.Holds n m) (hnext : f.Next n b k) :
    (f.apply (.write l b k)).Holds n (update m l (some (b, k))) where
  found l' b' k' hm := by
    by_cases hl : l' = l
    · subst hl
      rw [update_self] at hm
      cases hm
      refine ⟨hnext.1, f.disk.writes, update_self .., ?_⟩
      change update f.cell b _ b k = _
      rw [update_self, update_self]
    · rw [update_of_ne hl] at hm
      obtain ⟨hk, x, hx, hc⟩ := h.found l' b' k' hm
      exact ⟨hk, x, (update_of_ne hl _ _).trans hx,
        (update_cell (h.ne_of_erased hm hnext.erased)).trans hc⟩
  dropped l' hm := by
    by_cases hl : l' = l
    · subst hl
      rw [update_self] at hm
      cases hm
    · rw [update_of_ne hl] at hm
      exact (update_of_ne hl _ _).trans (h.dropped l' hm)

/-- **A page is copied** to the next cell of a block. -/
theorem Holds.copy (h : f.Holds n m) (hm : m l = some (b, k)) (hnext : f.Next n b' k') :
    (f.apply (.copy b k b' k')).Holds n (update m l (some (b', k'))) where
  found l' b₁ k₁ hm' := by
    by_cases hl : l' = l
    · subst hl
      rw [update_self] at hm'
      cases hm'
      obtain ⟨-, x, hx, hc⟩ := h.found l' b k hm
      refine ⟨hnext.1, x, hx, ?_⟩
      change update f.cell b' _ b' k' = _
      rw [update_self, update_self, hc]
    · rw [update_of_ne hl] at hm'
      obtain ⟨hk, x, hx, hc⟩ := h.found l' b₁ k₁ hm'
      exact ⟨hk, x, hx, (update_cell (h.ne_of_erased hm' hnext.erased)).trans hc⟩
  dropped l' hm' := by
    by_cases hl : l' = l
    · subst hl
      rw [update_self] at hm'
      cases hm'
    · rw [update_of_ne hl] at hm'
      exact h.dropped l' hm'

/-- **A block is erased** that the map does not lead to. -/
theorem Holds.erase (h : f.Holds n m) (hb : ∀ l k, m l ≠ some (b, k)) :
    (f.apply (.erase b)).Holds n m where
  found l b' k hm := by
    obtain ⟨hk, x, hx, hc⟩ := h.found l b' k hm
    have hne : b' ≠ b := by
      rintro rfl
      exact hb l k hm
    exact ⟨hk, x, hx, (congrFun (update_of_ne hne _ _) k).trans hc⟩
  dropped l hm := h.dropped l hm

/-- **A page of the host is trimmed.** -/
theorem Holds.trim (h : f.Holds n m) : (f.apply (.trim l)).Holds n (update m l none) where
  found l' b k hm := by
    by_cases hl : l' = l
    · subst hl
      rw [update_self] at hm
      cases hm
    · rw [update_of_ne hl] at hm
      obtain ⟨hk, x, hx, hc⟩ := h.found l' b k hm
      exact ⟨hk, x, (update_of_ne hl _ _).trans hx, hc⟩
  dropped l' hm := by
    by_cases hl : l' = l
    · subst hl
      exact update_self ..
    · rw [update_of_ne hl] at hm
      exact (update_of_ne hl _ _).trans (h.dropped l' hm)

end Chip

end Flash

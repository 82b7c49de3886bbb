/-
  Extents: runs of consecutive numbers.

  `Tiles a l b` says that the extents of `l` follow one another from `a` to
  `b`: the first starts at `a`, each starts where the one before ends, and the
  last ends at `b`.  So they are disjoint and cover what lies between.
-/
import Mathlib.Data.List.Basic
import Mathlib.Order.Basic

/-- `length` consecutive numbers from `start` on. -/
structure Extent where
  start : ℕ
  length : ℕ
  deriving DecidableEq, Repr

namespace Extent

/-- The number after the last. -/
def stop (e : Extent) : ℕ := e.start + e.length

/-- `x` is one of the numbers. -/
def Contains (e : Extent) (x : ℕ) : Prop := e.start ≤ x ∧ x < e.stop

/-- One of them ends before the other starts. -/
def Apart (e f : Extent) : Prop := e.stop ≤ f.start ∨ f.stop ≤ e.start

/-- The extents follow one another from `a` to `b`. -/
def Tiles : ℕ → List Extent → ℕ → Prop
  | a, [], b => a = b
  | a, e :: l, b => e.start = a ∧ Tiles e.stop l b

variable {a b : ℕ} {l : List Extent} {e : Extent}

@[simp] theorem tiles_nil : Tiles a [] b ↔ a = b := Iff.rfl

@[simp] theorem tiles_cons : Tiles a (e :: l) b ↔ e.start = a ∧ Tiles e.stop l b := Iff.rfl

theorem Tiles.concat (h : Tiles a l b) (he : e.start = b) : Tiles a (l ++ [e]) e.stop := by
  induction l generalizing a with
  | nil => exact ⟨he.trans h.symm, rfl⟩
  | cons f l ih => exact ⟨h.1, ih h.2⟩

theorem Tiles.le (h : Tiles a l b) : a ≤ b := by
  induction l generalizing a with
  | nil => exact Nat.le_of_eq h
  | cons e l ih =>
    have hstop := ih h.2
    rw [stop, h.1] at hstop
    exact Nat.le_trans (Nat.le_add_right _ _) hstop

theorem Tiles.start_le (h : Tiles a l b) : ∀ e ∈ l, a ≤ e.start := by
  induction l generalizing a with
  | nil => simp
  | cons e l ih =>
    intro f hf
    rcases List.mem_cons.1 hf with rfl | hf
    · exact Nat.le_of_eq h.1.symm
    · have := ih h.2 f hf
      rw [stop, h.1] at this
      exact Nat.le_trans (Nat.le_add_right _ _) this

theorem Tiles.stop_le (h : Tiles a l b) : ∀ e ∈ l, e.stop ≤ b := by
  induction l generalizing a with
  | nil => simp
  | cons e l ih =>
    intro f hf
    rcases List.mem_cons.1 hf with rfl | hf
    · exact h.2.le
    · exact ih h.2 f hf

/-- **They are disjoint**: each ends before the next one starts. -/
theorem Tiles.pairwise (h : Tiles a l b) : l.Pairwise fun e f => e.stop ≤ f.start := by
  induction l generalizing a with
  | nil => exact .nil
  | cons e l ih => exact .cons h.2.start_le (ih h.2)

/-- **They cover what lies between.** -/
theorem Tiles.cover (h : Tiles a l b) (x : ℕ) : (∃ e ∈ l, e.Contains x) ↔ a ≤ x ∧ x < b := by
  induction l generalizing a with
  | nil =>
    rw [tiles_nil] at h
    constructor
    · rintro ⟨e, he, -⟩
      cases he
    · omega
  | cons e l ih =>
    have hle := h.2.le
    rw [stop, h.1] at hle
    constructor
    · rintro ⟨f, hf, hx⟩
      rcases List.mem_cons.1 hf with rfl | hf
      · exact ⟨h.1 ▸ hx.1, Nat.lt_of_lt_of_le hx.2 h.2.le⟩
      · have := (ih h.2).1 ⟨f, hf, hx⟩
        rw [stop, h.1] at this
        omega
    · rintro ⟨hax, hxb⟩
      rcases Nat.lt_or_ge x e.stop with hx | hx
      · exact ⟨e, List.mem_cons_self, h.1.symm ▸ hax, hx⟩
      · obtain ⟨f, hf, hfx⟩ := (ih h.2).2 ⟨hx, hxb⟩
        exact ⟨f, List.mem_cons_of_mem _ hf, hfx⟩

end Extent

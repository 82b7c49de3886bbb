/-
  Copies of bytes in one memory.

  `copy m s d n` copies `n` bytes from `s` to `d`.  The addresses may wrap
  around.  A copy changes nothing outside its target (`copy_of_not_mem`), and
  two copies one after the other are one, if the first does not touch what the
  second reads (`copy_append`).
-/
import Mathlib.Data.Nat.Cast.Defs
import Mathlib.Logic.Function.Basic

namespace Copies

open Function

variable {α β : Type*} [AddMonoidWithOne α] [DecidableEq α] {m m' : α → β} {s d j : α} {n k : ℕ}

/-- `n` bytes are copied from `s` to `d`. -/
def copy (m : α → β) (s d : α) : ℕ → α → β
  | 0 => m
  | n + 1 => update (copy m s d n) (d + n) (m (s + n))

theorem copy_succ (m : α → β) (s d : α) (n : ℕ) :
    copy m s d (n + 1) = update (copy m s d n) (d + n) (m (s + n)) := rfl

/-- **The frame**: nothing else changes. -/
theorem copy_of_not_mem (h : ∀ k < n, j ≠ d + (k : α)) : copy m s d n j = m j := by
  induction n with
  | zero => rfl
  | succ n ih =>
    rw [copy_succ, update_of_ne (h n (Nat.lt_succ_self n))]
    exact ih fun k hk => h k (Nat.lt_succ_of_lt hk)

/-- **What a copy writes**, if it comes by only once. -/
theorem copy_apply (hk : k < n) (h : ∀ i < n, i ≠ k → d + (k : α) ≠ d + (i : α)) :
    copy m s d n (d + k) = m (s + k) := by
  induction n with
  | zero => exact absurd hk (Nat.not_lt_zero k)
  | succ n ih =>
    rw [copy_succ]
    obtain hlt | rfl := Nat.lt_succ_iff_lt_or_eq.1 hk
    · rw [update_of_ne (h n (Nat.lt_succ_self n) (Nat.ne_of_gt hlt))]
      exact ih hlt fun i hi => h i (Nat.lt_succ_of_lt hi)
    · rw [update_self]

/-- **Two copies are one**, if the second reads nothing that the first has written. -/
theorem copy_append (h : ∀ i < k, ∀ i' < n, s + (n + i : ℕ) ≠ d + (i' : α)) :
    copy (copy m s d n) (s + n) (d + n) k = copy m s d (n + k) := by
  induction k with
  | zero => rfl
  | succ k ih =>
    rw [copy_succ, ih fun i hi => h i (Nat.lt_succ_of_lt hi), ← Nat.add_assoc, copy_succ,
      add_assoc s, add_assoc d, ← Nat.cast_add, copy_of_not_mem (h k (Nat.lt_succ_self k))]

end Copies

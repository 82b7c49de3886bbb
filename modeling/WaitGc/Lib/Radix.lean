/-
  Mixed-radix positions: a pair of digits `(a, b)` with `b < B` is the number
  `a * B + b`.
-/
import Mathlib.Algebra.Order.Ring.Nat
import Mathlib.Tactic.Ring

namespace Radix

theorem pair_lt {a A b B : ℕ} (ha : a < A) (hb : b < B) : a * B + b < A * B :=
  calc a * B + b < a * B + B := Nat.add_lt_add_left hb _
    _ = (a + 1) * B := by ring
    _ ≤ A * B := Nat.mul_le_mul_right _ ha

theorem pair_div {a b B : ℕ} (hb : b < B) : (a * B + b) / B = a := by
  rw [Nat.mul_comm, Nat.mul_add_div (by omega), Nat.div_eq_of_lt hb, Nat.add_zero]

theorem pair_mod {a b B : ℕ} (hb : b < B) : (a * B + b) % B = b := by
  rw [Nat.mul_comm, Nat.mul_add_mod, Nat.mod_eq_of_lt hb]

theorem pair_inj {a a' b b' B : ℕ} (hb : b < B) (hb' : b' < B) (h : a * B + b = a' * B + b') :
    a = a' ∧ b = b' :=
  ⟨by rw [← pair_div (a := a) hb, h, pair_div hb'], by rw [← pair_mod (a := a) hb, h, pair_mod hb']⟩

theorem pair_lt_pair_iff {a a' b b' B : ℕ} (hb : b < B) (hb' : b' < B) :
    a * B + b < a' * B + b' ↔ a < a' ∨ a = a' ∧ b < b' := by
  rcases Nat.lt_trichotomy a a' with hlt | rfl | hgt
  · have h := pair_lt hlt hb
    exact iff_of_true (h.trans_le (Nat.le_add_right _ _)) (.inl hlt)
  · simp
  · have h := pair_lt hgt hb'
    refine iff_of_false (fun hc => ?_) (by omega)
    exact absurd (h.trans_le (Nat.le_add_right _ _)) (Nat.lt_asymm hc)

end Radix

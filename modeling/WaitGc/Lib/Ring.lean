/-
  Positions in a ring.

  The `k`-th item that passes through a ring of `q` slots stands in slot
  `k % q`; it is on lap `k / q`.  Two items less than a lap apart share no
  slot (`eq_of_slot_eq`), and the distance between two of them can be read off
  their slots (`slot_sub`).  A phase bit starts at `true` and toggles with
  every lap, so that it tells an item from the one a lap behind it
  (`phase_add_lap`).
-/
import Mathlib.Data.Int.Basic
import Mathlib.Data.Nat.ModEq
import Mathlib.Data.List.Range

namespace Ring

variable {q o k k' n : ℕ}

/-- The slot after `i`. -/
def next (q i : ℕ) : ℕ := if i + 1 = q then 0 else i + 1

theorem next_mod (hq : 0 < q) (k : ℕ) : next q (k % q) = (k + 1) % q := by
  have hlt : k % q < q := Nat.mod_lt _ hq
  unfold next
  split
  · rename_i h
    rw [Nat.add_mod_eq_ite]
    rcases Nat.lt_or_ge 1 q with h1 | h1
    · rw [Nat.mod_eq_of_lt h1, if_pos (by omega)]; omega
    · obtain rfl : q = 1 := by omega
      simp [Nat.mod_one]
  · rename_i h
    rw [Nat.add_mod_eq_ite, Nat.mod_eq_of_lt (show 1 < q by omega), if_neg (by omega)]

/-- The slots of the `n` positions from `o` on. -/
def slots (q o n : ℕ) : List ℕ := (List.range n).map fun k => (o + k) % q

theorem slots_succ : slots q o (n + 1) = slots q o n ++ [(o + n) % q] := by
  simp [slots, List.range_succ]

theorem eq_of_slot_eq (h : k % q = k' % q) (hle : k ≤ k') (hlt : k' < k + q) : k = k' := by
  have hdvd : q ∣ k' - k := (Nat.modEq_iff_dvd' hle).1 h
  have hzero : k' - k = 0 := Nat.eq_zero_of_dvd_of_lt hdvd (by omega)
  omega

theorem slot_sub (hle : k ≤ k') (hlt : k' < k + q) :
    k' - k = if k' % q < k % q then k' % q + q - k % q else k' % q - k % q := by
  have hq : 0 < q := by omega
  have hk := Nat.mod_lt k hq
  have hk' : k' % q = if q ≤ k % q + (k' - k) then k % q + (k' - k) - q else k % q + (k' - k) := by
    rw [show k' = k + (k' - k) by omega, Nat.add_mod_eq_ite,
      Nat.mod_eq_of_lt (show k' - k < q by omega), Nat.add_sub_cancel_left]
  rw [hk']
  split <;> split <;> omega

theorem eq_slot_add {v : ℤ} (hv : 0 ≤ v) (hvq : v < q) :
    v = ((k + ((v - (k % q : ℕ)) % q).toNat) % q : ℕ) := by
  have hdist : 0 ≤ (v - (k % q : ℕ)) % q := Int.emod_nonneg _ (by omega)
  calc v = v % q := (Int.emod_eq_of_lt hv hvq).symm
    _ = (k + (v - k)) % q := by rw [show (k : ℤ) + (v - k) = v by omega]
    _ = (k + (v - (k % q : ℕ)) % q) % q := by
      rw [Int.natCast_mod, Int.sub_emod_emod, Int.add_emod_emod]
    _ = ((k + ((v - (k % q : ℕ)) % q).toNat) % q : ℕ) := by
      rw [Int.natCast_mod (k + _), Int.natCast_add, Int.toNat_of_nonneg hdist]

/-! ## Phases -/

/-- The phase of the `k`-th item. -/
def phase (q k : ℕ) : Bool := k / q % 2 = 0

@[simp] theorem phase_zero : phase q 0 = true := by simp [phase]

theorem phase_add_lap (hq : 0 < q) (k : ℕ) : phase q (k + q) = !phase q k := by
  simp only [phase, Nat.add_div_right k hq]
  rcases Nat.mod_two_eq_zero_or_one (k / q) with h | h
  · simp [h, show (k / q + 1) % 2 = 1 by omega]
  · simp [h, show (k / q + 1) % 2 = 0 by omega]

theorem phase_succ (hq : 0 < q) (k : ℕ) :
    phase q (k + 1) = if k % q + 1 = q then !phase q k else phase q k := by
  have hdvd : q ∣ k + 1 ↔ k % q + 1 = q := by
    rw [Nat.dvd_iff_mod_eq_zero, ← next_mod hq k, next]
    split
    · simp [*]
    · simp [*]
  have hlap : phase q k = !decide ((k / q + 1) % 2 = 0) := by
    rcases Nat.mod_two_eq_zero_or_one (k / q) with h | h
    · simp [phase, h, show (k / q + 1) % 2 = 1 by omega]
    · simp [phase, h, show (k / q + 1) % 2 = 0 by omega]
  by_cases hwrap : k % q + 1 = q
  · rw [if_pos hwrap, hlap, phase, Nat.succ_div, if_pos (hdvd.2 hwrap), Bool.not_not]
  · rw [if_neg hwrap, phase, Nat.succ_div, if_neg (hdvd.not.2 hwrap), phase, Nat.add_zero]

end Ring

/-
  WAITGC verification — the doorbell of a completion queue.

  `cq_doorbell_iff`: the loop of `nvmev_proc_io_cq` ends exactly if the register
  holds at most the size of the queue; the dispatcher does not look at it.  From
  a value inside the ring it visits the slots up to that value, each once.
-/
import WaitGc.Io.CqDoorbell
import Mathlib.Data.List.Nodup
import Mathlib.Data.Nat.ModEq

namespace WaitGc

open Function

variable {cq : CompletionQueue} {sqes : ℕ → Option SubmissionQueue} {newDb : ℤ} {l : CqLoop}

/-- The submission queues after a loop: each lost as many commands as the visited entries
    name it, and those that are gone stay so. -/
def Decremented (cq : CompletionQueue) (visited : List ℤ) (sqes sqes' : ℕ → Option SubmissionQueue) : Prop :=
  ∀ sqid, match sqes sqid with
    | none => sqes' sqid = none
    | some sq => ∃ n, sqes' sqid = some { sq with stat := { sq.stat with nrInFlight := n } } ∧
        n + visited.countP (fun i => (cq.cq i).sqId = sqid) ≡ sq.stat.nrInFlight [MOD 2 ^ 32]

/-- The `k`-th slot after `oldDb`, modulo the size of the ring. -/
def CompletionQueue.slotAfter (cq : CompletionQueue) (oldDb : ℤ) (k : ℕ) : ℤ := (oldDb + k) % cq.queueSize

/-- What the doorbell promises: the loop ends, and for a value in the ring it visited the
    slots from the old value to the new one, each once, and counted them off. -/
structure DoorbellProcessed (cq : CompletionQueue) (sqes : ℕ → Option SubmissionQueue) (newDb oldDb : ℤ) :
    Prop where
  ends : ∃ fuel l, CqLoop.run cq newDb fuel ⟨oldDb, sqes, []⟩ = some l
  slots : 0 ≤ newDb → newDb < cq.queueSize → ∃ fuel l,
    CqLoop.run cq newDb fuel ⟨oldDb, sqes, []⟩ = some l ∧
      l.visited = (List.range ((newDb - oldDb) % cq.queueSize).toNat).map (cq.slotAfter oldDb) ∧
      l.visited.Nodup ∧ Decremented cq l.visited sqes l.sqes

/-! ## Counting -/

theorem Decremented.nil (cq : CompletionQueue) (sqes : ℕ → Option SubmissionQueue) :
    Decremented cq [] sqes sqes := by
  intro sqid
  cases sqes sqid with
  | none => rfl
  | some sq => exact ⟨sq.stat.nrInFlight, rfl, Nat.ModEq.refl _⟩

theorem modEq_pred {n count k : ℕ} (h : n + count ≡ k [MOD 2 ^ 32]) :
    u32 (n + 2 ^ 32 - 1) + (count + 1) ≡ k [MOD 2 ^ 32] := by
  unfold Nat.ModEq u32 at *
  omega

theorem Decremented.visit {sqes' : ℕ → Option SubmissionQueue} {visited : List ℤ}
    (h : Decremented cq visited sqes sqes') (i : ℤ) :
    Decremented cq (visited ++ [i]) sqes (cq.visit sqes' i) := by
  intro sqid
  have hq := h sqid
  unfold CompletionQueue.visit
  rw [List.countP_append, List.countP_singleton]
  by_cases hid : (cq.cq i).sqId = sqid
  · subst hid
    rw [update_self]
    cases hsq : sqes (cq.cq i).sqId with
    | none =>
      rw [hsq] at hq
      rw [show sqes' (cq.cq i).sqId = none from hq]
      rfl
    | some sq =>
      rw [hsq] at hq
      obtain ⟨n, hn, hmod⟩ := hq
      rw [hn, if_pos (decide_eq_true rfl)]
      exact ⟨_, rfl, modEq_pred hmod⟩
  · rw [update_of_ne (Ne.symm hid)]
    cases hsq : sqes sqid with
    | none => rw [hsq] at hq; exact hq
    | some sq =>
      rw [hsq] at hq
      obtain ⟨n, hn, hmod⟩ := hq
      rw [if_neg (by simpa using hid)]
      exact ⟨n, hn, hmod⟩

/-! ## The loop -/

theorem CqLoop.run_done (fuel : ℕ) (h : l.i = newDb) : run cq newDb fuel l = some l := by
  cases fuel <;> exact if_pos h

theorem CqLoop.run_succ (fuel : ℕ) (h : l.i ≠ newDb) :
    run cq newDb (fuel + 1) l = run cq newDb fuel (l.turn cq) := if_neg h

/-- The entries of a stretch of the ring. -/
def stretch (i : ℤ) (n : ℕ) : List ℤ := (List.range n).map fun k : ℕ => i + k

theorem stretch_succ (i : ℤ) (n : ℕ) : stretch i (n + 1) = i :: stretch (i + 1) n := by
  rw [stretch, List.range_succ_eq_map, List.map_cons, List.map_map]
  refine congrArg₂ List.cons (by simp) (List.map_congr_left fun k _ => ?_)
  simp only [Function.comp_apply, Nat.succ_eq_add_one]
  omega

/-- **A stretch without the new value** is visited entry by entry. -/
theorem CqLoop.run_stretch (fuel : ℕ) : ∀ (n : ℕ) (l : CqLoop), l.i + n ≤ cq.queueSize →
    (∀ k < n, l.i + (k : ℤ) ≠ newDb) → Decremented cq l.visited sqes l.sqes →
      ∃ l', run cq newDb (fuel + n) l = run cq newDb fuel l' ∧ l'.i = l.i + n ∧
        l'.visited = l.visited ++ stretch l.i n ∧ Decremented cq l'.visited sqes l'.sqes
  | 0, l, _, _, hdec => ⟨l, rfl, by simp, by simp [stretch], hdec⟩
  | n + 1, l, hle, hne, hdec => by
    have hi : l.i ≠ newDb := by simpa using hne 0 (Nat.succ_pos n)
    have hturn : l.turn cq = ⟨l.i + 1, cq.visit l.sqes l.i, l.visited ++ [l.i]⟩ :=
      if_neg (by push_cast at hle; omega)
    have hnext : ∀ k < n, (l.turn cq).i + (k : ℤ) ≠ newDb := by
      intro k hk
      have := hne (k + 1) (by omega)
      rw [hturn]
      push_cast at this ⊢
      omega
    obtain ⟨l', hrun, hi', hvisited, hdec'⟩ := run_stretch fuel n (l.turn cq)
      (by rw [hturn]; push_cast at hle ⊢; omega) hnext (by rw [hturn]; exact hdec.visit l.i)
    refine ⟨l', ?_, ?_, ?_, hdec'⟩
    · rw [← Nat.add_assoc, run_succ _ hi, hrun]
    · rw [hi', hturn]
      push_cast
      omega
    · rw [hvisited, hturn, stretch_succ, List.append_assoc]
      rfl

theorem CqLoop.run_wrap (fuel : ℕ) (hi : l.i = cq.queueSize) (hne : l.i ≠ newDb) :
    run cq newDb (fuel + 1) l = run cq newDb fuel { l with i := 0 } := by
  have hturn : l.turn cq = { l with i := -1 + 1 } := if_pos hi.ge
  rw [run_succ _ hne, hturn]
  rfl

/-- **A value that the cursor cannot reach** keeps the loop going. -/
theorem CqLoop.run_none (hdb : newDb < 0 ∨ cq.queueSize < newDb) (hq : 0 < cq.queueSize) :
    ∀ (fuel : ℕ) (l : CqLoop), 0 ≤ l.i → l.i ≤ cq.queueSize → run cq newDb fuel l = none
  | 0, l, h0, hle => if_neg (by omega)
  | fuel + 1, l, h0, hle => by
    rw [run_succ _ (by omega)]
    by_cases hend : cq.queueSize ≤ l.i
    · have hturn : l.turn cq = { l with i := -1 + 1 } := if_pos hend
      rw [hturn]
      exact run_none hdb hq fuel _ (by simp) (by simpa using hq.le)
    · have hturn : l.turn cq = ⟨l.i + 1, cq.visit l.sqes l.i, l.visited ++ [l.i]⟩ := if_neg hend
      rw [hturn]
      exact run_none hdb hq fuel _ (by simp only; omega) (by simp only; omega)

/-! ## Slots -/

theorem slots_nodup (cq : CompletionQueue) (oldDb : ℤ) {n : ℕ} (hn : (n : ℤ) ≤ cq.queueSize) :
    ((List.range n).map (cq.slotAfter oldDb)).Nodup := by
  have hlap : ∀ a b : ℕ, a < b → b < n → cq.slotAfter oldDb a ≠ cq.slotAfter oldDb b := by
    intro a b hab hb h
    have hdvd := Int.dvd_of_emod_eq_zero (Int.emod_eq_emod_iff_emod_sub_eq_zero.1 h.symm)
    rw [show oldDb + (b : ℤ) - (oldDb + a) = b - a by omega] at hdvd
    have := Int.le_of_dvd (by omega) hdvd
    omega
  refine List.Nodup.map_on (fun a ha b hb h => ?_) List.nodup_range
  rw [List.mem_range] at ha hb
  rcases Nat.lt_trichotomy a b with hab | hab | hab
  · exact absurd h (hlap a b hab hb)
  · exact hab
  · exact absurd h.symm (hlap b a hab ha)

section ring
variable {oldDb : ℤ} (hold : 0 ≤ oldDb) (hlt : oldDb < cq.queueSize)
include hold hlt

omit hlt in
theorem slots_stretch {n : ℕ} (hn : oldDb + n ≤ cq.queueSize) :
    (List.range n).map (cq.slotAfter oldDb) = stretch oldDb n := by
  refine List.map_congr_left fun k hk => ?_
  rw [List.mem_range] at hk
  exact Int.emod_eq_of_lt (by omega) (by omega)

theorem slots_wrap {n m : ℕ} (hn : oldDb + n = cq.queueSize) (hm : (m : ℤ) ≤ oldDb) :
    (List.range (n + m)).map (cq.slotAfter oldDb) = stretch oldDb n ++ stretch 0 m := by
  rw [List.range_add, List.map_append, List.map_map, slots_stretch hold hn.le]
  congr 1
  refine List.map_congr_left fun k hk => ?_
  rw [List.mem_range] at hk
  show (oldDb + ((n + k : ℕ) : ℤ)) % cq.queueSize = 0 + (k : ℤ)
  rw [show oldDb + ((n + k : ℕ) : ℤ) = (k : ℤ) + cq.queueSize by push_cast; omega, Int.add_emod_right,
    Int.emod_eq_of_lt (by omega) (by omega), Int.zero_add]

/-- **The loop ends** for a value up to the size of the ring, and visits the slots between. -/
theorem CqLoop.run_ends (sqes : ℕ → Option SubmissionQueue) (h0 : 0 ≤ newDb) (hle : newDb ≤ cq.queueSize) :
    ∃ fuel l, run cq newDb fuel ⟨oldDb, sqes, []⟩ = some l ∧ Decremented cq l.visited sqes l.sqes ∧
      (newDb < cq.queueSize → l.visited =
        (List.range ((newDb - oldDb) % cq.queueSize).toNat).map (cq.slotAfter oldDb)) := by
  rcases lt_or_ge newDb oldDb with hback | hfwd
  · -- over the end of the ring: the rest of the lap, the wrap, and the first slots
    obtain ⟨n, hn⟩ := Int.eq_ofNat_of_zero_le (show 0 ≤ cq.queueSize - oldDb by omega)
    obtain ⟨m, rfl⟩ := Int.eq_ofNat_of_zero_le h0
    have hne₁ : ∀ k < n, oldDb + (k : ℤ) ≠ m := fun k _ => by omega
    have hne₂ : ∀ k < m, 0 + (k : ℤ) ≠ m := fun k hk => by omega
    obtain ⟨l₁, hrun₁, hi₁, hvisited₁, hdec₁⟩ := run_stretch (0 + m + 1) n ⟨oldDb, sqes, []⟩
      (by simp only; omega) hne₁ (.nil cq sqes)
    obtain ⟨l₂, hrun₂, hi₂, hvisited₂, hdec₂⟩ := run_stretch 0 m { l₁ with i := 0 }
      (by simp only; omega) hne₂ hdec₁
    have hmod : ((m - oldDb) % cq.queueSize).toNat = n + m := by
      rw [show (m : ℤ) - oldDb = (n + m) - cq.queueSize by omega, Int.sub_emod_right,
        Int.emod_eq_of_lt (by omega) (by omega)]
      omega
    refine ⟨0 + m + 1 + n, l₂, ?_, hdec₂, fun _ => ?_⟩
    · rw [hrun₁, run_wrap _ (by simp only at hi₁; omega) (by simp only at hi₁; omega), hrun₂]
      exact run_done 0 (by simpa using hi₂)
    · rw [hmod, slots_wrap hold hlt (by omega) (by omega), hvisited₂, hvisited₁]
      rfl
  · obtain ⟨n, hn⟩ := Int.eq_ofNat_of_zero_le (show 0 ≤ newDb - oldDb by omega)
    have hne : ∀ k < n, oldDb + (k : ℤ) ≠ newDb := fun k hk => by omega
    obtain ⟨l₁, hrun₁, hi₁, hvisited₁, hdec₁⟩ := run_stretch 0 n ⟨oldDb, sqes, []⟩
      (by simp only; omega) hne (.nil cq sqes)
    refine ⟨0 + n, l₁, ?_, hdec₁, fun hin => ?_⟩
    · rw [hrun₁]
      exact run_done 0 (by simp only at hi₁; omega)
    · have hmod : ((newDb - oldDb) % cq.queueSize).toNat = n := by
        rw [Int.emod_eq_of_lt (by omega) (by omega)]
        omega
      rw [hmod, slots_stretch hold (by omega), hvisited₁]
      rfl

end ring

/-- **The doorbell is processed** exactly if the register holds at most the size of the queue. -/
theorem cq_doorbell_iff {oldDb : ℤ} (register : BitVec 32) (hold : 0 ≤ oldDb) (hlt : oldDb < cq.queueSize)
    (hint : cq.queueSize < 2 ^ 31) :
    DoorbellProcessed cq sqes (doorbellValue register) oldDb ↔ (register.toNat : ℤ) ≤ cq.queueSize := by
  have hvalue : doorbellValue register =
      if register.toNat < 2 ^ 31 then (register.toNat : ℤ) else (register.toNat : ℤ) - 2 ^ 32 := by
    have := register.isLt
    rw [doorbellValue, BitVec.toInt_eq_toNat_cond]
    split_ifs <;> omega
  have hregister := register.isLt
  constructor
  · intro h
    by_contra hbig
    obtain ⟨fuel, l, hrun⟩ := h.ends
    have hout : doorbellValue register < 0 ∨ cq.queueSize < doorbellValue register := by
      rw [hvalue]
      split_ifs <;> omega
    have hnone := CqLoop.run_none hout (by omega) fuel ⟨oldDb, sqes, []⟩ hold hlt.le
    rw [hnone] at hrun
    cases hrun
  · intro hle
    have h0 : 0 ≤ doorbellValue register := by rw [hvalue]; split_ifs <;> omega
    have hle' : doorbellValue register ≤ cq.queueSize := by rw [hvalue]; split_ifs <;> omega
    obtain ⟨fuel, l, hrun, hdec, hvisited⟩ := CqLoop.run_ends hold hlt sqes h0 hle'
    refine ⟨⟨fuel, l, hrun⟩, fun _ hin => ⟨fuel, l, hrun, hvisited hin, ?_, hdec⟩⟩
    rw [hvisited hin]
    refine slots_nodup cq oldDb ?_
    have := Int.emod_lt_of_pos (doorbellValue register - oldDb) (show 0 < cq.queueSize by omega)
    omega

/-- A queue of four entries, over memory that names submission queue 1. -/
def ringOfFour : CompletionQueue := .create 3 fun _ => ⟨0, 0, 0, 1, 0, 0⟩

/-- Two commands of submission queue 1 are in flight. -/
def twoInFlight : ℕ → Option SubmissionQueue :=
  update (fun _ => none) 1 (some ⟨1, 4, ⟨2, 2, 2, 2, 0⟩⟩)

/-- The slots 3 and 0 are visited, and their two commands counted off. -/
theorem cq_doorbell_twoInFlight : DoorbellProcessed ringOfFour twoInFlight (doorbellValue 1) 3 ∧
    ∃ fuel l, CqLoop.run ringOfFour (doorbellValue 1) fuel ⟨3, twoInFlight, []⟩ = some l ∧
      l.visited = [3, 0] ∧ (l.sqes 1).map (·.stat.nrInFlight) = some 0 :=
  ⟨(cq_doorbell_iff 1 (by decide) (by decide) (by decide)).2 (by decide), 4, _, rfl, rfl, rfl⟩

/-- The value 5 is never reached, and neither is the one that the `int` takes for -1. -/
theorem cq_doorbell_hangs :
    ¬ DoorbellProcessed ringOfFour (fun _ => none) (doorbellValue 5) 3 ∧
      ¬ DoorbellProcessed ringOfFour (fun _ => none) (doorbellValue 0xFFFFFFFF) 3 := by
  have hq : ringOfFour.queueSize = 4 := rfl
  have hhang {register : BitVec 32} (hdb : doorbellValue register < 0 ∨ 4 < doorbellValue register) :
      ¬ DoorbellProcessed ringOfFour (fun _ => none) (doorbellValue register) 3 := by
    intro h
    obtain ⟨fuel, l, hrun⟩ := h.ends
    rw [CqLoop.run_none (hq ▸ hdb) (by omega) fuel _ (by decide) (by decide)] at hrun
    cases hrun
  exact ⟨hhang (.inr (by decide)), hhang (.inl (by decide))⟩

end WaitGc

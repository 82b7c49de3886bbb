/-
  WAITGC verification — what a request takes from a channel model.

  Slots are counted from the one a request starts at, round the ring.
  `takeCredits_spec`: the loop empties them in order and stops within a lap;
  `advance_avail`: moving the head resets the slots that it passes.
-/
import WaitGc.Lib.Drain
import WaitGc.Lib.Ring
import WaitGc.Timing

namespace WaitGc

open Function Finset

variable {head fuel m n pos remaining delay : ℕ} {avail : ℕ → ℕ} {ch : ChannelModel}

/-- The slot `k` after `pos`. -/
def slotAfter (pos k : ℕ) : ℕ := (pos + k) % NR_CREDIT_ENTRIES

theorem NR_CREDIT_ENTRIES_pos : 0 < NR_CREDIT_ENTRIES := by decide

theorem slotAfter_lt (pos k : ℕ) : slotAfter pos k < NR_CREDIT_ENTRIES := Nat.mod_lt _ NR_CREDIT_ENTRIES_pos

theorem slotAfter_zero (h : pos < NR_CREDIT_ENTRIES) : slotAfter pos 0 = pos := Nat.mod_eq_of_lt h

theorem slotAfter_slotAfter (pos i k : ℕ) : slotAfter (slotAfter pos i) k = slotAfter pos (i + k) := by
  rw [slotAfter, slotAfter, slotAfter, Nat.mod_add_mod, Nat.add_assoc]

theorem slotAfter_eq {k : ℕ} (hpos : pos < NR_CREDIT_ENTRIES) (hk : k < NR_CREDIT_ENTRIES) :
    slotAfter pos k = if pos + k < NR_CREDIT_ENTRIES then pos + k else pos + k - NR_CREDIT_ENTRIES := by
  unfold slotAfter
  split_ifs with h
  · exact Nat.mod_eq_of_lt h
  · rw [Nat.mod_eq_sub_mod (Nat.le_of_not_lt h), Nat.mod_eq_of_lt (by omega)]

theorem slotAfter_lap (pos k : ℕ) : slotAfter pos (k + NR_CREDIT_ENTRIES) = slotAfter pos k := by
  rw [slotAfter, slotAfter, ← Nat.add_assoc, Nat.add_mod_right]

theorem slotAfter_inj {i k : ℕ} (hi : i < NR_CREDIT_ENTRIES) (hk : k < NR_CREDIT_ENTRIES)
    (h : slotAfter pos i = slotAfter pos k) : i = k := by
  rcases le_total i k with hle | hle
  · exact Nat.add_left_cancel (Ring.eq_of_slot_eq h (by omega) (by omega))
  · exact (Nat.add_left_cancel (Ring.eq_of_slot_eq h.symm (by omega) (by omega))).symm

theorem exists_slotAfter (hpos : pos < NR_CREDIT_ENTRIES) {j : ℕ} (hj : j < NR_CREDIT_ENTRIES) :
    ∃ k < NR_CREDIT_ENTRIES, j = slotAfter pos k := by
  refine ⟨(j + NR_CREDIT_ENTRIES - pos) % NR_CREDIT_ENTRIES, Nat.mod_lt _ NR_CREDIT_ENTRIES_pos, ?_⟩
  rw [slotAfter, Nat.add_mod_mod, show pos + (j + NR_CREDIT_ENTRIES - pos) = j + NR_CREDIT_ENTRIES by omega,
    Nat.add_mod_right, Nat.mod_eq_of_lt hj]

/-! ## The loop -/

/-- The loop of `chmodel_request` ends with "No free entry". -/
def noFreeEntry (head : ℕ) : ℕ → ℕ → ℕ → (ℕ → ℕ) → Bool
  | 0, _, _, _ => false
  | fuel + 1, pos, remaining, avail =>
    let consumed := if remaining ≤ avail pos then remaining else avail pos
    let avail := update avail pos (avail pos - consumed)
    let remaining := remaining - consumed
    if remaining ≠ 0 then
      let next := (pos + 1) % NR_CREDIT_ENTRIES
      if next ≠ head then noFreeEntry head fuel next remaining avail else true
    else false

/-- The last turn: the request is served, or the slot is the one before `head`. -/
structure LoopTaken (pos m remaining delay : ℕ) (avail : ℕ → ℕ) (r : ℕ × ℕ × (ℕ → ℕ)) (full : Bool) : Prop where
  last : ∃ t < m, r.1 = slotAfter pos t ∧ r.2.1 = delay + t ∧
    ∀ j, (∀ k ≤ t, j ≠ slotAfter pos k) → r.2.2 j = avail j
  slots (k : ℕ) : k < m → r.2.2 (slotAfter pos k) =
    avail (slotAfter pos k) - Drain.taken (fun i => avail (slotAfter pos i)) remaining k
  full : full = true ↔ ∑ k ∈ range m, avail (slotAfter pos k) < remaining

theorem first_le_sum (hpos : pos < NR_CREDIT_ENTRIES) (avail : ℕ → ℕ) (hm : 0 < m) :
    avail pos ≤ ∑ k ∈ range m, avail (slotAfter pos k) := by
  have hle := single_le_sum (f := fun k => avail (slotAfter pos k)) (fun _ _ => Nat.zero_le _)
    (mem_range.2 hm)
  rwa [slotAfter_zero hpos] at hle

/-- The slot serves what remains. -/
theorem LoopTaken.served (hpos : pos < NR_CREDIT_ENTRIES) (hm : 0 < m) (hmN : m ≤ NR_CREDIT_ENTRIES)
    (h : remaining ≤ avail pos) :
    LoopTaken pos m remaining delay avail (pos, delay, update avail pos (avail pos - remaining)) false where
  last := by
    refine ⟨0, hm, (slotAfter_zero hpos).symm, rfl, fun j hj => ?_⟩
    have hne := hj 0 le_rfl
    rw [slotAfter_zero hpos] at hne
    exact update_of_ne hne _ _
  slots k hk := by
    show update avail pos (avail pos - remaining) (slotAfter pos k) = _
    by_cases hzero : k = 0
    · subst hzero
      rw [Drain.taken_zero, slotAfter_zero hpos, update_self, min_eq_right h]
    · have hne : slotAfter pos k ≠ pos := by
        intro heq
        rw [← slotAfter_zero hpos, slotAfter_slotAfter, Nat.zero_add] at heq
        exact hzero (slotAfter_inj (by omega) (by omega) heq)
      have hfirst := h.trans (first_le_sum hpos avail (Nat.pos_of_ne_zero hzero))
      rw [update_of_ne hne, Drain.taken_eq_zero hfirst, Nat.sub_zero]
  full := iff_of_false Bool.false_ne_true (h.trans (first_le_sum hpos avail hm)).not_gt

theorem LoopTaken.short (hpos : pos < NR_CREDIT_ENTRIES) (h : avail pos < remaining) :
    LoopTaken pos 1 remaining delay avail (pos, delay, update avail pos 0) true where
  last := by
    refine ⟨0, Nat.one_pos, (slotAfter_zero hpos).symm, rfl, fun j hj => ?_⟩
    have hne := hj 0 le_rfl
    rw [slotAfter_zero hpos] at hne
    exact update_of_ne hne _ _
  slots k hk := by
    obtain rfl : k = 0 := by omega
    show update avail pos 0 (slotAfter pos 0) = _
    rw [Drain.taken_zero, slotAfter_zero hpos, update_self, min_eq_left h.le, Nat.sub_self]
  full := by
    rw [sum_range_one, slotAfter_zero hpos]
    exact iff_of_true rfl h

/-- The slot is emptied, and the rest is taken from the next ones. -/
theorem LoopTaken.cons {r : ℕ × ℕ × (ℕ → ℕ)} {full : Bool} (hpos : pos < NR_CREDIT_ENTRIES)
    (hmN : m + 1 ≤ NR_CREDIT_ENTRIES) (h : avail pos < remaining)
    (hr : LoopTaken (slotAfter pos 1) m (remaining - avail pos) (delay + 1) (update avail pos 0) r full) :
    LoopTaken pos (m + 1) remaining delay avail r full := by
  have hne (k : ℕ) (hk : k < m) : slotAfter pos (k + 1) ≠ pos := by
    intro heq
    rw [← slotAfter_zero hpos, slotAfter_slotAfter, Nat.zero_add] at heq
    exact Nat.succ_ne_zero k (slotAfter_inj (by omega) (by omega) heq)
  have hafter (k : ℕ) : slotAfter (slotAfter pos 1) k = slotAfter pos (k + 1) := by
    rw [slotAfter_slotAfter, Nat.add_comm]
  obtain ⟨t, ht, hlast, hdelay, hkept⟩ := hr.last
  refine ⟨⟨t + 1, by omega, ?_, ?_, ?_⟩, ?_, ?_⟩
  · rw [hlast, hafter]
  · rw [hdelay, Nat.add_assoc, Nat.add_comm 1]
  · intro j hj
    have hjpos := hj 0 (Nat.zero_le _)
    rw [slotAfter_zero hpos] at hjpos
    rw [hkept j fun k hk => by rw [hafter]; exact hj (k + 1) (by omega)]
    exact update_of_ne hjpos _ _
  · intro k hk
    cases k with
    | zero =>
      rw [slotAfter_zero hpos, Drain.taken_zero, slotAfter_zero hpos, min_eq_left h.le, Nat.sub_self]
      rw [hkept pos fun k hk => by rw [hafter]; exact (hne k (by omega)).symm, update_self]
    | succ k =>
      have hk : k < m := by omega
      have hslot := hr.slots k hk
      rw [hafter, update_of_ne (hne k hk)] at hslot
      rw [hslot, Drain.taken_succ, slotAfter_zero hpos]
      congr 1
      refine Drain.taken_congr fun i hi => ?_
      rw [hafter, update_of_ne (hne i (by omega))]
  · have hsum : ∑ k ∈ range m, update avail pos 0 (slotAfter (slotAfter pos 1) k) =
        ∑ k ∈ range m, avail (slotAfter pos (k + 1)) := by
      refine sum_congr rfl fun k hk => ?_
      rw [hafter, update_of_ne (hne k (mem_range.1 hk))]
    rw [hr.full, hsum, sum_range_succ', slotAfter_zero hpos]
    omega

/-- **The loop takes credits in order**, and stops before it has gone round the ring. -/
theorem takeCredits_taken (hpos : pos < NR_CREDIT_ENTRIES) (hm : 0 < m) (hmN : m ≤ NR_CREDIT_ENTRIES)
    (hhead : head = slotAfter pos m) (hfuel : m ≤ fuel) :
    LoopTaken pos m remaining delay avail (takeCredits head fuel pos remaining delay avail)
      (noFreeEntry head fuel pos remaining avail) := by
  induction fuel generalizing pos m remaining delay avail with
  | zero => omega
  | succ fuel ih =>
    unfold takeCredits noFreeEntry
    dsimp only
    by_cases hle : remaining ≤ avail pos
    · rw [if_pos hle, Nat.sub_self, if_neg (not_not_intro rfl), if_neg (not_not_intro rfl)]
      exact .served hpos hm hmN hle
    · have hlt := Nat.lt_of_not_le hle
      rw [if_neg hle, Nat.sub_self, if_pos (Nat.sub_ne_zero_of_lt hlt), if_pos (Nat.sub_ne_zero_of_lt hlt)]
      by_cases hone : m = 1
      · subst hone
        have hwrap : ¬ (pos + 1) % NR_CREDIT_ENTRIES ≠ head := not_not_intro hhead.symm
        rw [if_neg hwrap, if_neg hwrap]
        exact .short hpos hlt
      · obtain ⟨m, rfl⟩ : ∃ m', m = m' + 1 := ⟨m - 1, by omega⟩
        have hnext : (pos + 1) % NR_CREDIT_ENTRIES ≠ head := by
          intro heq
          have hslot : slotAfter pos 1 = slotAfter pos (m + 1) := heq.trans hhead
          have := Nat.add_left_cancel (Ring.eq_of_slot_eq hslot (by omega) (by omega))
          omega
        rw [if_pos hnext, if_pos hnext]
        refine .cons hpos hmN hlt (ih (slotAfter_lt pos 1) (by omega) (by omega) ?_ (by omega))
        rw [hhead, slotAfter_slotAfter, Nat.add_comm]

/-- More turns than slots make no difference: the loop ends by itself. -/
theorem takeCredits_fuel (hpos : pos < NR_CREDIT_ENTRIES) (hm : 0 < m) (hmN : m ≤ NR_CREDIT_ENTRIES)
    (hhead : head = slotAfter pos m) (hfuel : m ≤ fuel) :
    takeCredits head fuel pos remaining delay avail = takeCredits head m pos remaining delay avail := by
  induction m generalizing fuel pos remaining delay avail with
  | zero => omega
  | succ m ih =>
    obtain ⟨fuel, rfl⟩ : ∃ f, fuel = f + 1 := ⟨fuel - 1, by omega⟩
    unfold takeCredits
    dsimp only
    generalize (if remaining ≤ avail pos then remaining else avail pos) = consumed
    by_cases hserved : remaining - consumed ≠ 0
    · rw [if_pos hserved, if_pos hserved]
      by_cases hnext : (pos + 1) % NR_CREDIT_ENTRIES ≠ head
      · have hm : 0 < m := by
          refine Nat.pos_of_ne_zero fun hzero => hnext ?_
          rw [hhead, hzero]
          rfl
        rw [if_pos hnext, if_pos hnext]
        refine ih (slotAfter_lt pos 1) hm (by omega) ?_ (by omega)
        rw [hhead, ← slotAfter, slotAfter_slotAfter, Nat.add_comm]
      · rw [if_neg hnext, if_neg hnext]
    · rw [if_neg hserved, if_neg hserved]

/-! ## Moving the head -/

/-- `cur_time_offs`: the number of slots that the head moves past.  The difference has
    32 bits, also if the clock went back. -/
def ChannelModel.curTimeOffs (ch : ChannelModel) (curTime : ℕ) : ℕ :=
  min (u32 (sub64 (curTime / UNIT_TIME_INTERVAL) (ch.curTime / UNIT_TIME_INTERVAL))) ch.validLen

theorem ChannelModel.curTimeOffs_eq (ch : ChannelModel) (curTime : ℕ) :
    ch.curTimeOffs curTime =
      if u32 (sub64 (curTime / UNIT_TIME_INTERVAL) (ch.curTime / UNIT_TIME_INTERVAL)) < ch.validLen then
        u32 (sub64 (curTime / UNIT_TIME_INTERVAL) (ch.curTime / UNIT_TIME_INTERVAL))
      else ch.validLen := by
  unfold curTimeOffs
  split_ifs <;> omega

theorem ChannelModel.curTimeOffs_le (ch : ChannelModel) (curTime : ℕ) : ch.curTimeOffs curTime ≤ ch.validLen :=
  min_le_right _ _

/-- The slots that the clock has passed since the call before. -/
def ChannelModel.clockPassed (ch : ChannelModel) (curTime : ℕ) : ℕ :=
  curTime / UNIT_TIME_INTERVAL - ch.curTime / UNIT_TIME_INTERVAL

/-- The head does not overtake a clock that does not go back. -/
theorem ChannelModel.curTimeOffs_le_clockPassed {curTime : ℕ}
    (h : ch.curTime / UNIT_TIME_INTERVAL ≤ curTime / UNIT_TIME_INTERVAL) :
    ch.curTimeOffs curTime ≤ ch.clockPassed curTime := by
  refine (min_le_left _ _).trans ?_
  unfold clockPassed u32 sub64 u64
  omega

theorem advance_head (ch : ChannelModel) (curTime : ℕ) :
    (ch.advance curTime).head = slotAfter ch.head (ch.curTimeOffs curTime) := by
  rw [ch.curTimeOffs_eq]
  rfl

theorem advance_validLen (ch : ChannelModel) (curTime : ℕ) :
    (ch.advance curTime).validLen = ch.validLen - ch.curTimeOffs curTime := by
  rw [ch.curTimeOffs_eq]
  rfl

/-- **Moving the head** resets the slots that it passes, and no others. -/
theorem advance_avail (ch : ChannelModel) (curTime : ℕ) (hmax : ch.maxCredits < 256) {k : ℕ}
    (hk : k < NR_CREDIT_ENTRIES) :
    (ch.advance curTime).availCredits (slotAfter ch.head k) =
      if k < ch.curTimeOffs curTime then ch.maxCredits else ch.availCredits (slotAfter ch.head k) := by
  have hhead := ch.head_lt
  have hle := (ch.curTimeOffs_le curTime).trans ch.validLen_le
  have hmemset (avail : ℕ → ℕ) (lo len j : ℕ) : memset avail lo len ch.maxCredits j =
      if lo ≤ j ∧ j < lo + len then ch.maxCredits else avail j := by
    rw [memset, show ch.maxCredits % 2 ^ 8 = ch.maxCredits from Nat.mod_eq_of_lt hmax]
  have hslot := slotAfter_eq hhead hk
  have hlt := slotAfter_lt ch.head k
  unfold ChannelModel.advance
  dsimp only
  rw [← ch.curTimeOffs_eq]
  generalize ch.curTimeOffs curTime = offs at hle ⊢
  generalize slotAfter ch.head k = j at hslot hlt ⊢
  by_cases hwrap : NR_CREDIT_ENTRIES ≤ ch.head + offs
  · rw [if_pos hwrap, hmemset, hmemset]
    split_ifs at hslot ⊢ <;> first | rfl | omega
  · rw [if_neg hwrap, hmemset]
    split_ifs at hslot ⊢ <;> first | rfl | omega

/-! ## The invariant -/

/-- What every reachable channel model keeps: no slot has more than `m` credits, and the
    slots that are not in use have `m`. -/
structure ChannelModel.Sound (m : ℕ) (ch : ChannelModel) : Prop where
  maxCredits : ch.maxCredits = m
  commandCredits : ch.commandCredits = 0
  availLe (j : ℕ) : j < NR_CREDIT_ENTRIES → ch.availCredits j ≤ m
  unused (k : ℕ) : ch.validLen ≤ k → k < NR_CREDIT_ENTRIES → ch.availCredits (slotAfter ch.head k) = m

theorem ChannelModel.Sound.advance (h : ch.Sound m) (hm : m < 256) (curTime : ℕ) :
    (ch.advance curTime).Sound m := by
  have hmax : ch.maxCredits < 256 := h.maxCredits ▸ hm
  have hle := ch.curTimeOffs_le curTime
  have hcap := ch.validLen_le
  constructor
  · exact h.maxCredits
  · exact h.commandCredits
  · intro j hj
    obtain ⟨k, hk, rfl⟩ := exists_slotAfter ch.head_lt hj
    rw [advance_avail ch curTime hmax hk]
    split_ifs
    · exact h.maxCredits.le
    · exact h.availLe _ hj
  · intro k hunused hk
    rw [advance_validLen] at hunused
    rw [advance_head, slotAfter_slotAfter]
    -- the slots behind the head are those it has moved past
    by_cases hlap : ch.curTimeOffs curTime + k < NR_CREDIT_ENTRIES
    · rw [advance_avail ch curTime hmax hlap, if_neg (by omega)]
      exact h.unused _ (by omega) hlap
    · obtain ⟨i, hi⟩ : ∃ i, ch.curTimeOffs curTime + k = i + NR_CREDIT_ENTRIES :=
        ⟨ch.curTimeOffs curTime + k - NR_CREDIT_ENTRIES, by omega⟩
      rw [hi, slotAfter_lap, advance_avail ch curTime hmax (by omega), if_pos (by omega)]
      exact h.maxCredits

/-! ## The request -/

/-- `units_to_xfer` -/
def unitsToXfer (length : ℕ) : ℕ := u32 (divRoundUp length UNIT_XFER_SIZE)

/-- `request_time_offs` -/
def requestTimeOffs (curTime requestTime : ℕ) : ℕ :=
  u32 (sub64 (requestTime / UNIT_TIME_INTERVAL) (curTime / UNIT_TIME_INTERVAL))

/-- The request is returned early: it is in the past, or too far ahead. -/
def ReturnedEarly (curTime requestTime : ℕ) : Prop :=
  requestTime < curTime ∨ NR_CREDIT_ENTRIES ≤ requestTimeOffs curTime requestTime

theorem chmodelRequest_early {curTime requestTime length : ℕ} (h : ReturnedEarly curTime requestTime) :
    chmodelRequest ch curTime requestTime length = (requestTime, ch.advance curTime) := by
  unfold chmodelRequest
  dsimp only
  by_cases hpast : requestTime < curTime
  · rw [if_pos hpast]
  · rw [if_neg hpast]
    exact if_pos (h.resolve_left hpast)

/-- The slot of a request, and what the loop returns. -/
def requestPos (ch : ChannelModel) (curTime requestTime : ℕ) : ℕ :=
  slotAfter (ch.advance curTime).head (requestTimeOffs curTime requestTime)

def requestTaken (ch : ChannelModel) (curTime requestTime length : ℕ) : ℕ × ℕ × (ℕ → ℕ) :=
  takeCredits (ch.advance curTime).head NR_CREDIT_ENTRIES (requestPos ch curTime requestTime)
    (unitsToXfer length) 0 (ch.advance curTime).availCredits

/-- `total_latency`, or 0 if the request is returned early. -/
def requestLatency (ch : ChannelModel) (curTime requestTime length : ℕ) : ℕ :=
  if requestTime < curTime ∨ NR_CREDIT_ENTRIES ≤ requestTimeOffs curTime requestTime then 0
  else u64 (u32 (ch.xferLat * unitsToXfer length) +
    ((requestTaken ch curTime requestTime length).2.1 - unitsToXfer length / ch.maxCredits) *
      UNIT_TIME_INTERVAL)

/-- A request that is not returned early. -/
structure Requested (ch : ChannelModel) (curTime requestTime length : ℕ) (r : ℕ × ChannelModel) : Prop where
  time : r.1 = u64 (requestTime + requestLatency ch curTime requestTime length)
  head : r.2.head = (ch.advance curTime).head
  maxCredits : r.2.maxCredits = ch.maxCredits
  commandCredits : r.2.commandCredits = ch.commandCredits
  avail : r.2.availCredits = (requestTaken ch curTime requestTime length).2.2
  validLen : r.2.validLen = max (ch.advance curTime).validLen
    (slotsUpTo (ch.advance curTime).head (requestTaken ch curTime requestTime length).1)

theorem chmodelRequest_late {curTime requestTime : ℕ} (length : ℕ) (hcommand : ch.commandCredits = 0)
    (h : ¬ ReturnedEarly curTime requestTime) :
    Requested ch curTime requestTime length (chmodelRequest ch curTime requestTime length) := by
  have hunits : u32 (u32 (u32 (divRoundUp length UNIT_XFER_SIZE) * UNIT_XFER_CREDITS) +
      (ch.advance curTime).commandCredits) = unitsToXfer length := by
    rw [show (ch.advance curTime).commandCredits = 0 from hcommand, show UNIT_XFER_CREDITS = 1 from rfl,
      Nat.mul_one, Nat.add_zero]
    simp [u32, unitsToXfer]
  have htaken : takeCredits (ch.advance curTime).head NR_CREDIT_ENTRIES
      (((ch.advance curTime).head + u32 (sub64 (requestTime / UNIT_TIME_INTERVAL)
        (curTime / UNIT_TIME_INTERVAL))) % NR_CREDIT_ENTRIES)
      (u32 (u32 (u32 (divRoundUp length UNIT_XFER_SIZE) * UNIT_XFER_CREDITS) +
        (ch.advance curTime).commandCredits)) 0 (ch.advance curTime).availCredits =
      requestTaken ch curTime requestTime length := by
    rw [hunits]
    rfl
  obtain ⟨hpast, hahead⟩ := not_or.1 h
  unfold requestTimeOffs at hahead
  have hlatency : requestLatency ch curTime requestTime length = _ := if_neg h
  unfold chmodelRequest
  dsimp only
  rw [if_neg hpast, if_neg hahead]
  have hdelay (a b : ℕ) : (if b < a then a - b else 0) = a - b := by split_ifs <;> omega
  constructor
  · dsimp only
    rw [hlatency, htaken, hunits, hdelay]
    rfl
  · rfl
  · rfl
  · rfl
  · dsimp only
    rw [htaken]
  · dsimp only
    rw [htaken, max_def_lt]

/-- No call completes before it was requested, if its time fits in 64 bits. -/
theorem requestTime_le (hcommand : ch.commandCredits = 0) {curTime requestTime length : ℕ}
    (h : requestTime + requestLatency ch curTime requestTime length < 2 ^ 64) :
    requestTime ≤ (chmodelRequest ch curTime requestTime length).1 := by
  by_cases hearly : ReturnedEarly curTime requestTime
  · rw [chmodelRequest_early hearly]
  · rw [(chmodelRequest_late length hcommand hearly).time]
    exact (Nat.le_add_right _ _).trans (Nat.mod_eq_of_lt h).ge

/-- From the slot of a request to the head. -/
theorem head_eq_slotAfter (ch : ChannelModel) {curTime requestTime : ℕ}
    (h : requestTimeOffs curTime requestTime < NR_CREDIT_ENTRIES) :
    (ch.advance curTime).head = slotAfter (requestPos ch curTime requestTime)
      (NR_CREDIT_ENTRIES - requestTimeOffs curTime requestTime) := by
  have hlap := slotAfter_lap (ch.advance curTime).head 0
  rw [Nat.zero_add, slotAfter_zero (ch.advance curTime).head_lt] at hlap
  rw [requestPos, slotAfter_slotAfter, Nat.add_sub_cancel' h.le]
  exact hlap.symm

/-- The loop of a request. -/
theorem requestTaken_taken (ch : ChannelModel) {curTime requestTime : ℕ} (length : ℕ)
    (h : ¬ ReturnedEarly curTime requestTime) :
    LoopTaken (requestPos ch curTime requestTime)
      (NR_CREDIT_ENTRIES - requestTimeOffs curTime requestTime) (unitsToXfer length) 0
      (ch.advance curTime).availCredits (requestTaken ch curTime requestTime length)
      (noFreeEntry (ch.advance curTime).head NR_CREDIT_ENTRIES (requestPos ch curTime requestTime)
        (unitsToXfer length) (ch.advance curTime).availCredits) := by
  have hoffs := Nat.lt_of_not_le (not_or.1 h).2
  exact takeCredits_taken (slotAfter_lt _ _) (by omega) (by omega) (head_eq_slotAfter ch hoffs) (by omega)

theorem slotsUpTo_slotAfter {k : ℕ} (hhead : head < NR_CREDIT_ENTRIES) (hk : k < NR_CREDIT_ENTRIES) :
    slotsUpTo head (slotAfter head k) = k + 1 := by
  rw [slotAfter_eq hhead hk]
  unfold slotsUpTo
  split_ifs <;> omega

theorem LoopTaken.le {r : ℕ × ℕ × (ℕ → ℕ)} {full : Bool} (h : LoopTaken pos m remaining delay avail r full)
    (j : ℕ) : r.2.2 j ≤ avail j := by
  obtain ⟨t, ht, -, -, hkept⟩ := h.last
  by_cases hj : ∃ k < m, j = slotAfter pos k
  · obtain ⟨k, hk, rfl⟩ := hj
    rw [h.slots k hk]
    exact Nat.sub_le _ _
  · exact (hkept j fun k hk heq => hj ⟨k, by omega, heq⟩).le

/-- **Every request keeps the invariant.** -/
theorem ChannelModel.Sound.request (h : ch.Sound m) (hm : m < 256) (curTime requestTime length : ℕ) :
    (chmodelRequest ch curTime requestTime length).2.Sound m := by
  have hadv := h.advance hm curTime
  by_cases hearly : ReturnedEarly curTime requestTime
  · rw [chmodelRequest_early hearly]
    exact hadv
  · have hreq := chmodelRequest_late length h.commandCredits hearly
    have htaken := requestTaken_taken ch length hearly
    obtain ⟨t, ht, hlast, -, hkept⟩ := htaken.last
    have hslots := hreq.validLen
    rw [hlast, requestPos, slotAfter_slotAfter,
      slotsUpTo_slotAfter (ch.advance curTime).head_lt (by omega)] at hslots
    constructor
    · exact hreq.maxCredits.trans h.maxCredits
    · exact hreq.commandCredits.trans h.commandCredits
    · intro j hj
      rw [hreq.avail]
      exact (htaken.le j).trans (hadv.availLe j hj)
    · intro k hunused hk
      rw [hslots] at hunused
      rw [hreq.avail, hreq.head, ← hadv.unused k (by omega) hk]
      refine hkept _ fun i hi heq => ?_
      rw [requestPos, slotAfter_slotAfter] at heq
      have := slotAfter_inj hk (by omega) heq
      omega

end WaitGc

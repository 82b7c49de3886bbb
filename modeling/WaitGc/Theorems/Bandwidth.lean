/-
  WAITGC verification — the bandwidth of a channel model.

  `bandwidth_conserved`: in every reachable state the credits are within their
  bounds; a request that finds its credits takes exactly one for every 128
  bytes, slot by slot, and nothing completes before it was requested.  A call
  whose clock does not read an earlier slot than the call before resets no slot
  ahead of the clock.

  `bandwidth_resets_ahead`: where the clock goes back, the head moves on all
  the same, and slots are reset that the clock has not passed.
-/
import WaitGc.Proof.Channel

namespace WaitGc

open Outcome Function Finset

variable {m xferLat : ℕ} {ch ch' : ChannelModel}

/-! ## The machine -/

/-- A channel model as `chmodel_init` leaves it, whatever its bandwidth. -/
def ChannelModel.fresh (maxCredits xferLat : ℕ) : ChannelModel where
  curTime := 0
  head := 0
  validLen := 0
  maxCredits := maxCredits
  commandCredits := 0
  xferLat := xferLat
  availCredits := memset (fun _ => 0) 0 NR_CREDIT_ENTRIES maxCredits
  head_lt := nrCreditEntries_pos
  validLen_le := Nat.zero_le _

theorem chmodelInit_eq (bandwidth : ℕ) :
    chmodelInit bandwidth = .fresh (chmodelInit bandwidth).maxCredits (chmodelInit bandwidth).xferLat := by
  unfold chmodelInit ChannelModel.fresh
  dsimp only
  congr 1
  ext j
  unfold memset u32
  rw [Nat.mod_mod_of_dvd _ (by decide)]

theorem ChannelModel.sound_fresh (hm : m < 256) : (fresh m xferLat).Sound m := by
  have havail {j : ℕ} (hj : j < NR_CREDIT_ENTRIES) : (fresh m xferLat).availCredits j = m := by
    show memset (fun _ => 0) 0 NR_CREDIT_ENTRIES m j = m
    rw [memset, if_pos ⟨Nat.zero_le j, by omega⟩]
    exact Nat.mod_eq_of_lt hm
  exact ⟨rfl, rfl, fun j hj => (havail hj).le, fun k _ _ => havail (slotAfter_lt _ _)⟩

/-- A call of `chmodel_request`, and what the wall clock reads then. -/
structure ChCall where
  curTime : BitVec 64
  requestTime : BitVec 64
  length : BitVec 64

/-- `chmodel_request` -/
def ChCall.request (e : ChCall) (ch : ChannelModel) : ℕ × ChannelModel :=
  chmodelRequest ch e.curTime.toNat e.requestTime.toNat e.length.toNat

/-- The machine; it cannot fail. -/
def chModel : Machine ChannelModel ChCall Fault where
  step ch e := .ok (e.request ch).2

/-! ## The laws -/

/-- The bounds of the credits. -/
structure CreditsBounded (m : ℕ) (ch : ChannelModel) : Prop where
  availLe (j : ℕ) : j < NR_CREDIT_ENTRIES → ch.availCredits j ≤ m
  validLen : ch.validLen ≤ NR_CREDIT_ENTRIES
  unused (k : ℕ) : ch.validLen ≤ k → k < NR_CREDIT_ENTRIES →
    ch.availCredits ((ch.head + k) % NR_CREDIT_ENTRIES) = m

/-- `units` credits are taken from the `m` slots from `pos` on, in order, and none from
    other slots. -/
structure CreditsTaken (avail : ℕ → ℕ) (pos m units : ℕ) (avail' : ℕ → ℕ) : Prop where
  le (j : ℕ) : avail' j ≤ avail j
  total : ∑ k ∈ range m, (avail (slotAfter pos k) - avail' (slotAfter pos k)) = units
  order (k k' : ℕ) : k < k' → k' < m → avail' (slotAfter pos k') < avail (slotAfter pos k') →
    avail' (slotAfter pos k) = 0
  others (j : ℕ) : (∀ k < m, j ≠ slotAfter pos k) → avail' j = avail j

/-- A call resets no slot but those that the clock has passed since the call before. -/
def ResetsPassed (ch : ChannelModel) (e : ChCall) : Prop :=
  ∀ k < NR_CREDIT_ENTRIES, ch.clockPassed e.curTime.toNat ≤ k →
    (ch.advance e.curTime.toNat).availCredits (slotAfter ch.head k) = ch.availCredits (slotAfter ch.head k)

/-- What a call does: the head moves past slots and resets them; then the request takes
    its credits, from its slot to the one before the head. -/
structure CallLaw (ch : ChannelModel) (e : ChCall) : Prop where
  reset (k : ℕ) : k < NR_CREDIT_ENTRIES →
    (ch.advance e.curTime.toNat).availCredits (slotAfter ch.head k) =
      if k < ch.curTimeOffs e.curTime.toNat then ch.maxCredits else ch.availCredits (slotAfter ch.head k)
  forward : ch.curTime / UNIT_TIME_INTERVAL ≤ e.curTime.toNat / UNIT_TIME_INTERVAL → ResetsPassed ch e
  early : ReturnedEarly e.curTime.toNat e.requestTime.toNat →
    (e.request ch).2.availCredits = (ch.advance e.curTime.toNat).availCredits
  taken : ¬ ReturnedEarly e.curTime.toNat e.requestTime.toNat →
    noFreeEntry (ch.advance e.curTime.toNat).head NR_CREDIT_ENTRIES
      (requestPos ch e.curTime.toNat e.requestTime.toNat) (unitsToXfer e.length.toNat)
      (ch.advance e.curTime.toNat).availCredits = false →
    CreditsTaken (ch.advance e.curTime.toNat).availCredits
      (requestPos ch e.curTime.toNat e.requestTime.toNat)
      (NR_CREDIT_ENTRIES - requestTimeOffs e.curTime.toNat e.requestTime.toNat)
      ((e.length.toNat + 127) / 128) (e.request ch).2.availCredits
  ends (fuel : ℕ) : NR_CREDIT_ENTRIES ≤ fuel → ¬ ReturnedEarly e.curTime.toNat e.requestTime.toNat →
    takeCredits (ch.advance e.curTime.toNat).head fuel
      (requestPos ch e.curTime.toNat e.requestTime.toNat) (unitsToXfer e.length.toNat) 0
      (ch.advance e.curTime.toNat).availCredits =
    requestTaken ch e.curTime.toNat e.requestTime.toNat e.length.toNat
  time : e.requestTime.toNat + requestLatency ch e.curTime.toNat e.requestTime.toNat e.length.toNat < 2 ^ 64 →
    e.requestTime.toNat ≤ (e.request ch).1

theorem unitsToXfer_eq {length : ℕ} (h : length < 2 ^ 38) : unitsToXfer length = (length + 127) / 128 := by
  have hunit : UNIT_XFER_SIZE = 128 := rfl
  unfold unitsToXfer divRoundUp u32 u64
  rw [hunit]
  omega

/-- The loop serves the request if there is a free entry. -/
theorem LoopTaken.credits {pos units delay : ℕ} {avail : ℕ → ℕ} {r : ℕ × ℕ × (ℕ → ℕ)} {full : Bool}
    (h : LoopTaken pos m units delay avail r full) (hfull : full = false) :
    CreditsTaken avail pos m units r.2.2 := by
  have hgiven (k : ℕ) (hk : k < m) : avail (slotAfter pos k) - r.2.2 (slotAfter pos k) =
      Drain.taken (fun i => avail (slotAfter pos i)) units k := by
    rw [h.slots k hk]
    exact Nat.sub_sub_self Drain.taken_le
  have henough : units ≤ ∑ k ∈ range m, avail (slotAfter pos k) := by
    refine Nat.le_of_not_lt (mt h.full.2 ?_)
    rw [hfull]
    exact Bool.false_ne_true
  refine ⟨h.le, ?_, ?_, ?_⟩
  · rw [sum_congr rfl fun k hk => hgiven k (mem_range.1 hk), Drain.sum_taken, min_eq_left henough]
  · intro k k' hk hk' hlt
    have hpos := Nat.sub_pos_of_lt hlt
    rw [hgiven k' hk'] at hpos
    rw [h.slots k (hk.trans hk'), Drain.taken_eq_of_pos hk hpos, Nat.sub_self]
  · intro j hj
    obtain ⟨t, ht, -, -, hkept⟩ := h.last
    exact hkept j fun k hk => hj k (by omega)

/-- **A call in a reachable state.** -/
theorem ChannelModel.Sound.callLaw (h : ch.Sound m) (hm : m < 256) {e : ChCall}
    (hlength : e.length.toNat < 2 ^ 38) : CallLaw ch e := by
  constructor
  · exact fun k hk => advance_avail ch _ (h.maxCredits ▸ hm) hk
  · intro hclock k hk hpassed
    have hoffs := ch.curTimeOffs_le_clockPassed hclock
    rw [advance_avail ch _ (h.maxCredits ▸ hm) hk, if_neg (by omega)]
  · intro hearly
    rw [ChCall.request, chmodelRequest_early hearly]
  · intro hlate hfree
    have htaken := requestTaken_taken ch e.length.toNat hlate
    rw [ChCall.request, (chmodelRequest_late _ h.commandCredits hlate).avail, ← unitsToXfer_eq hlength]
    exact htaken.credits hfree
  · intro fuel hfuel hlate
    have hoffs := Nat.lt_of_not_le (not_or.1 hlate).2
    have hfit (fuel : ℕ) (hfuel : NR_CREDIT_ENTRIES ≤ fuel) :
        takeCredits (ch.advance e.curTime.toNat).head fuel
          (requestPos ch e.curTime.toNat e.requestTime.toNat) (unitsToXfer e.length.toNat) 0
          (ch.advance e.curTime.toNat).availCredits = takeCredits (ch.advance e.curTime.toNat).head
          (NR_CREDIT_ENTRIES - requestTimeOffs e.curTime.toNat e.requestTime.toNat)
          (requestPos ch e.curTime.toNat e.requestTime.toNat) (unitsToXfer e.length.toNat) 0
          (ch.advance e.curTime.toNat).availCredits :=
      takeCredits_fuel (slotAfter_lt _ _) (by omega) (by omega) (head_eq_slotAfter ch hoffs) (by omega)
    rw [requestTaken, hfit fuel hfuel, hfit NR_CREDIT_ENTRIES le_rfl]
  · exact requestTime_le h.commandCredits

theorem ChannelModel.sound_run {es : List ChCall} (hm : m ∈ Set.Icc 1 255)
    (hrun : chModel.run (.fresh m xferLat) es = .ok ch) : ch.Sound m := by
  have hlt : m < 256 := Nat.lt_succ_of_le hm.2
  refine (Machine.run_sat (E := fun _ => True) (C := fun _ _ => True) ?_ (ChannelModel.sound_fresh hlt)
    (Machine.along_true _ _)).of_ok hrun
  exact fun ch e h _ => h.request hlt _ _ _

/-- **Bandwidth is conserved**, in every reachable state. -/
theorem bandwidth_conserved {es : List ChCall} (hm : m ∈ Set.Icc 1 255)
    (hrun : chModel.run (.fresh m xferLat) es = .ok ch) :
    CreditsBounded m ch ∧ ∀ e : ChCall, e.length.toNat < 2 ^ 38 → CallLaw ch e := by
  have hlt : m < 256 := Nat.lt_succ_of_le hm.2
  have hsound := ChannelModel.sound_run hm hrun
  exact ⟨⟨hsound.availLe, ch.validLen_le, hsound.unused⟩, fun e he => hsound.callLaw hlt he⟩

/-- At 2 credits a slot, 300 bytes are requested, and 300 bytes again. -/
def twoRequests : List ChCall := [⟨0, 0, 300⟩, ⟨0, 0, 300⟩]

/-- A channel of 65 MB/s has 2 credits a slot. -/
theorem bandwidth_conserved_twoRequests :
    ∃ ch, chModel.run (chmodelInit 65) twoRequests = .ok ch ∧
      (List.range 4).map ch.availCredits = [0, 0, 0, 2] ∧ CreditsBounded 2 ch ∧
      ∀ e : ChCall, e.length.toNat < 2 ^ 38 → CallLaw ch e := by
  have hmap : (chModel.run (chmodelInit 65) twoRequests).map (fun ch => (List.range 4).map ch.availCredits) =
      .ok [0, 0, 0, 2] := by decide +kernel
  obtain ⟨ch, hrun, havail⟩ := exists_ok_of_map hmap
  refine ⟨ch, hrun, havail, ?_⟩
  rw [chmodelInit_eq] at hrun
  exact bandwidth_conserved (by decide) hrun

/-- Three units are taken at 8000 ns, two of them from slot 0.  At 4000 ns the clock has
    passed no slot, and a request of one unit finds its credit; slot 0 is full again. -/
theorem bandwidth_resets_ahead :
    ¬ ∀ (m xferLat : ℕ) (es : List ChCall) (ch : ChannelModel) (e : ChCall), m ∈ Set.Icc 1 255 →
      chModel.run (.fresh m xferLat) es = .ok ch → e.length.toNat < 2 ^ 38 →
      ¬ ReturnedEarly e.curTime.toNat e.requestTime.toNat →
      noFreeEntry (ch.advance e.curTime.toNat).head NR_CREDIT_ENTRIES
        (requestPos ch e.curTime.toNat e.requestTime.toNat) (unitsToXfer e.length.toNat)
        (ch.advance e.curTime.toNat).availCredits = false → ResetsPassed ch e := by
  intro hall
  have hmap : (chModel.run (.fresh 2 0) [⟨8000, 8000, 300⟩]).map (fun ch =>
      (ch.clockPassed 4000, slotAfter ch.head 0, ch.availCredits 0, (ch.advance 4000).availCredits 0,
        noFreeEntry (ch.advance 4000).head NR_CREDIT_ENTRIES (requestPos ch 4000 4000) (unitsToXfer 128)
          (ch.advance 4000).availCredits)) = .ok (0, 0, 0, 2, false) := by decide +kernel
  obtain ⟨ch, hrun, hch⟩ := exists_ok_of_map hmap
  simp only [Prod.mk.injEq] at hch
  obtain ⟨hpassed, hhead, hbefore, hafter, hfree⟩ := hch
  have hlate : ¬ ReturnedEarly 4000 4000 := not_or.2 ⟨by decide, by decide⟩
  have hkept := hall 2 0 _ ch ⟨4000, 4000, 128⟩ (by decide) hrun (by decide) hlate hfree 0
    NR_CREDIT_ENTRIES_pos hpassed.le
  rw [hhead, hbefore] at hkept
  exact absurd (hkept.symm.trans hafter) (by decide)

end WaitGc

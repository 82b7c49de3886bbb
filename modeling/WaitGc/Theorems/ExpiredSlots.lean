/-
  WAITGC verification — expired reservations of a channel model.

  `chmodel_request` resets the slots between the time of the call before and the
  clock, whose number it keeps in 32 bits.  `expired_slots_iff`: when all
  reserved slots lie in the past, the request does what it would do on a fresh
  channel exactly if the narrowed number still passes all of them, or the
  request empties every slot from its own time on, and with them those that were
  not passed.
-/
import WaitGc.Theorems.Bandwidth

namespace WaitGc

open Outcome Function Finset

variable {m : ℕ} {ch : ChannelModel} {curTime requestTime length : ℕ}

/-! ## What a call looks at -/

/-- The slot `k` after the head is reserved: credits of it were taken. -/
def Reserved (m : ℕ) (ch : ChannelModel) (k : ℕ) : Prop :=
  k < ch.validLen ∧ ch.availCredits (slotAfter ch.head k) < m

/-- Every reserved slot lies strictly before the clock. -/
def Expired (m : ℕ) (ch : ChannelModel) (curTime : ℕ) : Prop :=
  ∀ k, Reserved m ch k → ch.curTime / UNIT_TIME_INTERVAL + k < curTime / UNIT_TIME_INTERVAL

/-- The call does what it does on a fresh channel: it returns the same time, and every slot has
    the same credits afterwards. -/
structure BehavesFresh (m : ℕ) (ch : ChannelModel) (curTime requestTime length : ℕ) : Prop where
  time : (chmodelRequest ch curTime requestTime length).1 =
    (chmodelRequest (.fresh m ch.xferLat) curTime requestTime length).1
  slots : let r := (chmodelRequest ch curTime requestTime length).2
    let r₀ := (chmodelRequest (.fresh m ch.xferLat) curTime requestTime length).2
    ∀ k < NR_CREDIT_ENTRIES, r.availCredits (slotAfter r.head k) = r₀.availCredits (slotAfter r₀.head k)

/-- `cur_time_offs`, before it is compared with `valid_len`. -/
def narrowedOffs (ch : ChannelModel) (curTime : ℕ) : ℕ :=
  u32 (sub64 (curTime / UNIT_TIME_INTERVAL) (ch.curTime / UNIT_TIME_INTERVAL))

/-- The slots that the call does not pass are no matter: there are none, or it empties all slots
    from its own on, which they are among. -/
def PassesReserved (m : ℕ) (ch : ChannelModel) (curTime requestTime length : ℕ) : Prop :=
  (∀ k, Reserved m ch k → k < narrowedOffs ch curTime) ∨
    (¬ ReturnedEarly curTime requestTime ∧
      m * (NR_CREDIT_ENTRIES - requestTimeOffs curTime requestTime) ≤ unitsToXfer length ∧
      ∀ k, Reserved m ch k → k < narrowedOffs ch curTime ∨
        narrowedOffs ch curTime + requestTimeOffs curTime requestTime ≤ k)

/-! ## The loop -/

/-- **Where the loop ends**, and how many slots it counted. -/
theorem takeCredits_last {head pos fuel remaining delay : ℕ} {avail : ℕ → ℕ} (hpos : pos < NR_CREDIT_ENTRIES)
    (hm : 0 < m) (hmN : m ≤ NR_CREDIT_ENTRIES) (hhead : head = slotAfter pos m) (hfuel : m ≤ fuel) :
    (takeCredits head fuel pos remaining delay avail).2.1 =
      delay + Drain.last (fun i => avail (slotAfter pos i)) remaining m := by
  induction fuel generalizing pos m remaining delay avail with
  | zero => omega
  | succ fuel ih =>
    obtain ⟨m, rfl⟩ : ∃ m', m = m' + 1 := ⟨m - 1, by omega⟩
    rw [Drain.last, slotAfter_zero hpos]
    unfold takeCredits
    dsimp only
    by_cases hle : remaining ≤ avail pos
    · rw [if_pos hle, Nat.sub_self, if_neg (not_not_intro rfl), if_pos (.inl hle), Nat.add_zero]
    · have hlt := Nat.lt_of_not_le hle
      rw [if_neg hle, Nat.sub_self, if_pos (Nat.sub_ne_zero_of_lt hlt)]
      by_cases hone : m = 0
      · subst hone
        have hwrap : ¬ (pos + 1) % NR_CREDIT_ENTRIES ≠ head := not_not_intro hhead.symm
        rw [if_neg hwrap, if_pos (.inr rfl), Nat.add_zero]
      · have hnext : (pos + 1) % NR_CREDIT_ENTRIES ≠ head := by
          intro heq
          have hslot : slotAfter pos 1 = slotAfter pos (m + 1) := heq.trans hhead
          have := Nat.add_left_cancel (Ring.eq_of_slot_eq hslot (by omega) (by omega))
          omega
        rw [if_pos hnext, if_neg (by omega), show (pos + 1) % NR_CREDIT_ENTRIES = slotAfter pos 1 from rfl,
          ih (m := m) (slotAfter_lt pos 1) (by omega) (by omega)
            (by rw [hhead, slotAfter_slotAfter, Nat.add_comm]) (by omega),
          Nat.add_assoc, Nat.add_comm 1 (Drain.last _ _ _)]
        refine congrArg (fun n => delay + (n + 1)) (Drain.last_congr fun i hi => ?_)
        rw [slotAfter_slotAfter, Nat.add_comm 1 i]
        refine update_of_ne (fun heq => ?_) _ _
        rw [← slotAfter_zero hpos, slotAfter_slotAfter, Nat.zero_add] at heq
        exact Nat.succ_ne_zero i (slotAfter_inj (by omega) (by omega) heq)

/-! ## The slots after the clock -/

/-- The credits of the slot `k` after the head, when the head has moved. -/
def movedCredits (ch : ChannelModel) (curTime k : ℕ) : ℕ :=
  (ch.advance curTime).availCredits (slotAfter (ch.advance curTime).head k)

section sound
variable (h : ch.Sound m) (hm : m < 256)
include h hm

theorem movedCredits_le {k : ℕ} : movedCredits ch curTime k ≤ m :=
  (h.advance hm curTime).availLe _ (slotAfter_lt _ _)

/-- **A slot that has lost credits** is a reserved one that was not passed. -/
theorem movedCredits_lt_iff {k : ℕ} (hk : k < NR_CREDIT_ENTRIES) :
    movedCredits ch curTime k < m ↔ Reserved m ch (narrowedOffs ch curTime + k) := by
  have hmax : ch.maxCredits < 256 := h.maxCredits ▸ hm
  have hcap := ch.validLen_le
  have hpassed : ch.curTimeOffs curTime = min (narrowedOffs ch curTime) ch.validLen := rfl
  unfold movedCredits Reserved
  by_cases hin : narrowedOffs ch curTime + k < ch.validLen
  · have hoffs : ch.curTimeOffs curTime = narrowedOffs ch curTime := by omega
    rw [advance_head, slotAfter_slotAfter, hoffs, advance_avail ch curTime hmax (by omega), if_neg (by omega)]
    exact (and_iff_right hin).symm
  · refine iff_of_false ?_ fun hr => hin hr.1
    have hunused := (h.advance hm curTime).unused k (by rw [advance_validLen]; omega) hk
    rw [hunused]
    exact lt_irrefl m

/-- All slots are full exactly if the call passes all that are reserved. -/
theorem movedCredits_full_iff :
    (∀ k < NR_CREDIT_ENTRIES, movedCredits ch curTime k = m) ↔
      ∀ k, Reserved m ch k → k < narrowedOffs ch curTime := by
  have hcap := ch.validLen_le
  constructor
  · intro hfull k hr
    by_contra hge
    obtain ⟨i, rfl⟩ := Nat.exists_eq_add_of_le (Nat.le_of_not_lt hge)
    have hlt := hr.1
    have hi := hfull i (by omega)
    have := (movedCredits_lt_iff h hm (by omega)).2 hr
    omega
  · intro hpass k hk
    refine le_antisymm (movedCredits_le h hm) (Nat.le_of_not_lt fun hlt => ?_)
    have := hpass _ ((movedCredits_lt_iff h hm hk).1 hlt)
    omega

end sound

/-! ## The request -/

/-- The credits of slot `k` after a request for `units` that starts at the slot `offs`. -/
def creditsAfter (credits : ℕ → ℕ) (offs units k : ℕ) : ℕ :=
  if k < offs then credits k else credits k - Drain.taken (fun i => credits (offs + i)) units (k - offs)

/-- **A request that is not returned early**: the credits it leaves. -/
theorem request_credits (length : ℕ) (hcommand : ch.commandCredits = 0) (hlate : ¬ ReturnedEarly curTime requestTime)
    {k : ℕ} (hk : k < NR_CREDIT_ENTRIES) :
    (chmodelRequest ch curTime requestTime length).2.availCredits
        (slotAfter (chmodelRequest ch curTime requestTime length).2.head k) =
      creditsAfter (movedCredits ch curTime) (requestTimeOffs curTime requestTime) (unitsToXfer length) k := by
  have hreq := chmodelRequest_late length hcommand hlate
  have htaken := requestTaken_taken ch length hlate
  have hslot (i : ℕ) : slotAfter (requestPos ch curTime requestTime) i =
      slotAfter (ch.advance curTime).head (requestTimeOffs curTime requestTime + i) := by
    rw [requestPos, slotAfter_slotAfter]
  rw [hreq.avail, hreq.head]
  unfold creditsAfter
  split_ifs with hbefore
  · obtain ⟨t, ht, -, -, hkept⟩ := htaken.last
    refine hkept _ fun i hi heq => ?_
    rw [hslot] at heq
    have := slotAfter_inj hk (by omega) heq
    omega
  · obtain ⟨i, rfl⟩ := Nat.exists_eq_add_of_le (Nat.le_of_not_lt hbefore)
    have hi := htaken.slots i (by omega)
    simp only [hslot] at hi
    rw [hi, Nat.add_sub_cancel_left]
    rfl

/-- The time a request returns depends on the credits from its own slot on. -/
theorem request_time_congr {ch' : ChannelModel} (length : ℕ) (hcommand : ch.commandCredits = 0)
    (hcommand' : ch'.commandCredits = 0) (hmax : ch'.maxCredits = ch.maxCredits)
    (hlat : ch'.xferLat = ch.xferLat) (hlate : ¬ ReturnedEarly curTime requestTime)
    (hlast : Drain.last (fun i => movedCredits ch curTime (requestTimeOffs curTime requestTime + i))
        (unitsToXfer length) (NR_CREDIT_ENTRIES - requestTimeOffs curTime requestTime) =
      Drain.last (fun i => movedCredits ch' curTime (requestTimeOffs curTime requestTime + i))
        (unitsToXfer length) (NR_CREDIT_ENTRIES - requestTimeOffs curTime requestTime)) :
    (chmodelRequest ch curTime requestTime length).1 = (chmodelRequest ch' curTime requestTime length).1 := by
  have hoffs := Nat.lt_of_not_le (not_or.1 hlate).2
  have hdelay (ch : ChannelModel) : (requestTaken ch curTime requestTime length).2.1 =
      Drain.last (fun i => movedCredits ch curTime (requestTimeOffs curTime requestTime + i))
        (unitsToXfer length) (NR_CREDIT_ENTRIES - requestTimeOffs curTime requestTime) := by
    have hpos : requestPos ch curTime requestTime < NR_CREDIT_ENTRIES := slotAfter_lt _ _
    rw [requestTaken, takeCredits_last hpos (by omega) (by omega) (head_eq_slotAfter ch hoffs) (by omega),
      Nat.zero_add]
    simp only [requestPos, slotAfter_slotAfter]
    rfl
  rw [(chmodelRequest_late length hcommand hlate).time, (chmodelRequest_late length hcommand' hlate).time]
  have hlatency (ch : ChannelModel) : requestLatency ch curTime requestTime length = _ := if_neg hlate
  rw [hlatency, hlatency, hdelay, hdelay, hlast, hmax, hlat]

theorem fresh_full (hm : m < 256) (xferLat curTime : ℕ) {k : ℕ} (hk : k < NR_CREDIT_ENTRIES) :
    movedCredits (.fresh m xferLat) curTime k = m := by
  refine ((ChannelModel.sound_fresh hm).advance hm curTime).unused k ?_ hk
  rw [advance_validLen]
  exact (Nat.sub_le _ _).trans (Nat.zero_le k)

/-! ## Full slots and emptied slots -/

section credits
variable {credits : ℕ → ℕ} {offs units : ℕ} (hle : ∀ k, credits k ≤ m)
include hle

theorem full_of_after {n : ℕ} (hshort : units < m * n)
    (hafter : ∀ i < n, credits i - Drain.taken credits units i =
      m - Drain.taken (fun _ => m) units i) : ∀ i < n, credits i = m := by
  have hsum := sum_congr rfl fun i hi => hafter i (mem_range.1 hi)
  rw [Drain.sum_rest, Drain.sum_rest (fun _ => m)] at hsum
  have hconst : ∑ _k ∈ range n, m = m * n := by rw [sum_const_nat fun _ _ => rfl, card_range, Nat.mul_comm]
  have htotal := Drain.sum_le_mul hle n
  exact Drain.eq_of_sum_eq hle (by omega)

/-- A request for all the credits of its slots empties them. -/
theorem emptied_of_le {n : ℕ} (hall : m * n ≤ units) {i : ℕ} (hi : i < n) :
    credits i - Drain.taken credits units i = 0 := by
  have hprefix := Drain.sum_le_mul hle (i + 1)
  have hmul : m * (i + 1) ≤ m * n := Nat.mul_le_mul_left m hi
  rw [sum_range_succ] at hprefix
  unfold Drain.taken
  omega

theorem last_of_le {n : ℕ} (hm0 : 0 < m) (hall : m * n ≤ units) : Drain.last credits units n = n - 1 := by
  refine Drain.last_eq fun i hi hpos => ?_
  have hprefix := Drain.sum_le_mul hle i
  have hmul : m * i < m * n := Nat.mul_lt_mul_of_pos_left hi hm0
  omega

end credits

/-! ## The theorem -/

/-- **A call behaves as on a fresh channel** exactly if it passes the reserved slots, or empties
    those that it does not pass. -/
theorem behavesFresh_iff (h : ch.Sound m) (hm0 : 0 < m) (hm : m < 256) :
    BehavesFresh m ch curTime requestTime length ↔ PassesReserved m ch curTime requestTime length := by
  have hle (k : ℕ) : movedCredits ch curTime k ≤ m := movedCredits_le h hm
  have hfresh := @ChannelModel.sound_fresh m ch.xferLat hm
  have hle₀ (k : ℕ) : movedCredits (.fresh m ch.xferLat) curTime k ≤ m := movedCredits_le hfresh hm
  have hfull₀ {k : ℕ} (hk : k < NR_CREDIT_ENTRIES) : movedCredits (.fresh m ch.xferLat) curTime k = m :=
    fresh_full hm ch.xferLat curTime hk
  have hpass := @movedCredits_full_iff m ch curTime h hm
  unfold PassesReserved
  by_cases hearly : ReturnedEarly curTime requestTime
  · rw [← hpass, or_iff_left fun hc => hc.1 hearly]
    constructor
    · intro hb k hk
      have hslot := hb.slots k hk
      rw [chmodelRequest_early hearly, chmodelRequest_early hearly] at hslot
      exact hslot.trans (hfull₀ hk)
    · intro hfull
      refine ⟨by rw [chmodelRequest_early hearly, chmodelRequest_early hearly], fun k hk => ?_⟩
      rw [chmodelRequest_early hearly, chmodelRequest_early hearly]
      exact (hfull k hk).trans (hfull₀ hk).symm
  have hoffs := Nat.lt_of_not_le (not_or.1 hearly).2
  have hslots (k : ℕ) (hk : k < NR_CREDIT_ENTRIES) :=
    request_credits length h.commandCredits hearly hk
  have hslots₀ (k : ℕ) (hk : k < NR_CREDIT_ENTRIES) :=
    request_credits length hfresh.commandCredits hearly hk
  have htime := request_time_congr length h.commandCredits hfresh.commandCredits
    (hfresh.maxCredits.trans h.maxCredits.symm) rfl hearly
  rw [← hpass]
  generalize hoffsEq : requestTimeOffs curTime requestTime = offs at *
  have hfullLast (i : ℕ) (hi : i < NR_CREDIT_ENTRIES - offs) :
      movedCredits (.fresh m ch.xferLat) curTime (offs + i) = m := hfull₀ (by omega)
  constructor
  · intro hb
    have hafter (k : ℕ) (hk : k < NR_CREDIT_ENTRIES) :=
      ((hslots k hk).symm.trans (hb.slots k hk)).trans (hslots₀ k hk)
    have hbefore (k : ℕ) (hk : k < offs) : movedCredits ch curTime k = m := by
      have := hafter k (hk.trans hoffs)
      rw [creditsAfter, if_pos hk, creditsAfter, if_pos hk] at this
      exact this.trans (hfull₀ (hk.trans hoffs))
    obtain hshort | hall := Nat.lt_or_ge (unitsToXfer length) (m * (NR_CREDIT_ENTRIES - offs))
    · refine .inl fun k hk => ?_
      obtain hlt | hge := Nat.lt_or_ge k offs
      · exact hbefore k hlt
      · obtain ⟨i, rfl⟩ := Nat.exists_eq_add_of_le hge
        refine full_of_after (fun i => hle (offs + i)) hshort (fun i hi => ?_) i (by omega)
        have hslot := hafter (offs + i) (by omega)
        rw [creditsAfter, if_neg (by omega), creditsAfter, if_neg (by omega), Nat.add_sub_cancel_left,
          hfullLast i hi, Drain.taken_congr fun j hj => hfullLast j (by omega)] at hslot
        exact hslot
    · refine .inr ⟨hearly, hall, fun k hr => or_iff_not_imp_left.2 fun hge => ?_⟩
      obtain ⟨i, rfl⟩ := Nat.exists_eq_add_of_le (Nat.le_of_not_lt hge)
      have hlt := hr.1
      have hcap := ch.validLen_le
      have hless : movedCredits ch curTime i < m := (movedCredits_lt_iff h hm (by omega)).2 hr
      by_contra hi
      have := hbefore i (by omega)
      omega
  · rintro (hfull | ⟨-, hall, hrest⟩)
    · have heq (k : ℕ) (hk : k < NR_CREDIT_ENTRIES) :
          movedCredits ch curTime k = movedCredits (.fresh m ch.xferLat) curTime k :=
        (hfull k hk).trans (hfull₀ hk).symm
      refine ⟨htime (Drain.last_congr fun i hi => heq _ (by omega)), fun k hk => ?_⟩
      rw [hslots k hk, hslots₀ k hk]
      unfold creditsAfter
      split_ifs with hlt
      · exact heq k hk
      · rw [heq k hk, Drain.taken_congr fun i hi => heq _ (by omega)]
    · refine ⟨htime ?_, fun k hk => ?_⟩
      · rw [last_of_le (fun i => hle (offs + i)) hm0 hall, last_of_le (fun i => hle₀ (offs + i)) hm0 hall]
      rw [hslots k hk, hslots₀ k hk]
      unfold creditsAfter
      split_ifs with hlt
      · rw [hfull₀ hk]
        refine le_antisymm (hle k) (Nat.le_of_not_lt fun hless => ?_)
        have := hrest _ ((movedCredits_lt_iff h hm hk).1 hless)
        omega
      · obtain ⟨i, rfl⟩ := Nat.exists_eq_add_of_le (Nat.le_of_not_lt hlt)
        rw [Nat.add_sub_cancel_left, emptied_of_le (fun i => hle (offs + i)) hall (by omega),
          emptied_of_le (fun i => hle₀ (offs + i)) hall (by omega)]

/-- **Expired reservations delay no transfer**, exactly if the narrowed number of the slots
    that the clock has passed still passes them all, or the call empties them itself. -/
theorem expired_slots_iff {xferLat : ℕ} {es : List ChCall} (hm : m ∈ Set.Icc 1 255)
    (hrun : chModel.run (.fresh m xferLat) es = .ok ch) (e : ChCall) :
    (Expired m ch e.curTime.toNat →
      BehavesFresh m ch e.curTime.toNat e.requestTime.toNat e.length.toNat) ↔
    (Expired m ch e.curTime.toNat →
      PassesReserved m ch e.curTime.toNat e.requestTime.toNat e.length.toNat) :=
  imp_congr_right fun _ => behavesFresh_iff (ChannelModel.sound_run hm hrun) hm.1 (Nat.lt_succ_of_le hm.2)

/-- One unit is requested; two slots later it is forgotten. -/
theorem expired_slots_oneRequest :
    ∃ ch, chModel.run (.fresh 1 0) [⟨0, 0, 128⟩] = .ok ch ∧ Expired 1 ch 8000 ∧
      BehavesFresh 1 ch 8000 8000 128 := by
  have hmap : (chModel.run (.fresh 1 0) [⟨0, 0, 128⟩]).map (fun ch => (ch.curTime, ch.validLen)) =
      .ok (0, 1) := by decide +kernel
  obtain ⟨ch, hrun, hch⟩ := exists_ok_of_map hmap
  obtain ⟨htime, hlen⟩ := Prod.mk.inj hch
  have hexp : Expired 1 ch 8000 := fun k hr => by
    have := hr.1
    rw [htime, show 0 / UNIT_TIME_INTERVAL = 0 from rfl, show 8000 / UNIT_TIME_INTERVAL = 2 from rfl]
    omega
  refine ⟨ch, hrun, hexp, (expired_slots_iff (by decide) hrun ⟨8000, 8000, 128⟩).2 (fun _ => .inl ?_) hexp⟩
  intro k hr
  have := hr.1
  have hoffs : narrowedOffs ch 8000 = 2 := by rw [narrowedOffs, htime]; rfl
  show k < narrowedOffs ch 8000
  omega

/-- Ten slots are reserved.  Exactly `2^32` slots later the clock seems not to have moved, and
    a transfer waits for nine of them, that are in the past for more than four hours. -/
theorem expired_slots_delay :
    ∃ ch, chModel.run (.fresh 1 0) [⟨0, 0, 1280⟩] = .ok ch ∧ Expired 1 ch 17179869184000 ∧
      (chmodelRequest ch 17179869184000 17179869184000 128).1 = 17179869220000 ∧
      ¬ BehavesFresh 1 ch 17179869184000 17179869184000 128 := by
  have hmap : (chModel.run (.fresh 1 0) [⟨0, 0, 1280⟩]).map (fun ch =>
      (ch.curTime, (chmodelRequest ch 17179869184000 17179869184000 128).1, ch.xferLat)) =
      .ok (0, 17179869220000, 0) := by decide +kernel
  obtain ⟨ch, hrun, hch⟩ := exists_ok_of_map hmap
  obtain ⟨htime, hlate, hlat⟩ : ch.curTime = 0 ∧ _ ∧ _ := by simpa only [Prod.mk.injEq] using hch
  refine ⟨ch, hrun, fun k hr => ?_, hlate, fun hb => ?_⟩
  · have := hr.1
    have hcap := ch.validLen_le
    have hring : NR_CREDIT_ENTRIES = 2097152 := rfl
    rw [htime, show 0 / UNIT_TIME_INTERVAL = 0 from rfl,
      show 17179869184000 / UNIT_TIME_INTERVAL = 4294967296 from rfl]
    omega
  · have hsame := hb.time
    rw [hlate, hlat] at hsame
    exact absurd hsame (by decide +kernel)

end WaitGc

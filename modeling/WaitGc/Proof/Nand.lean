/-
  WAITGC verification — the busy times of dies (`ssd_advance_nand`).

  The phase of a command on its die starts at `nandStime` and takes
  `NandCmd.latency`.  `ssdAdvanceNand_law`: the phase waits for the die, and
  the die is busy until it is over; that needs that no time overflows and that
  no channel model returns an earlier time than the requested one.
-/
import WaitGc.Proof.Channel

namespace WaitGc

open Function

variable {sp : SsdParams} {t t' : Timing} {part : ℕ} {ncmd : NandCmd}

/-! ## Channels -/

/-- No channel model charges credits for a command: `command_credits` is 0. -/
structure Timing.NoCommandCredits (t : Timing) : Prop where
  channels (part ch : ℕ) : ((t.ssd part).perfModel ch).commandCredits = 0
  pcie : t.pcie.commandCredits = 0

theorem Timing.noCommandCredits_init (sp : SsdParams) (clock : ℕ → ℕ) : (init sp clock).NoCommandCredits :=
  ⟨fun _ _ => rfl, rfl⟩

theorem chmodelRequest_commandCredits (ch : ChannelModel) (curTime requestTime length : ℕ) :
    (chmodelRequest ch curTime requestTime length).2.commandCredits = ch.commandCredits := by
  unfold chmodelRequest
  dsimp only
  by_cases hpast : requestTime < curTime
  · rw [if_pos hpast]
    rfl
  rw [if_neg hpast]
  by_cases hahead :
      NR_CREDIT_ENTRIES ≤ u32 (sub64 (requestTime / UNIT_TIME_INTERVAL) (curTime / UNIT_TIME_INTERVAL))
  · rw [if_pos hahead]
    rfl
  · rw [if_neg hahead]
    rfl

/-- No die changes, and no channel model charges credits for a command. -/
structure SameDies (t t' : Timing) : Prop where
  avail (part : ℕ) : (t'.ssd part).nextLunAvailTime = (t.ssd part).nextLunAvailTime
  credits : t.NoCommandCredits → t'.NoCommandCredits

theorem SameDies.refl (t : Timing) : SameDies t t := ⟨fun _ => rfl, id⟩

theorem SameDies.trans {t'' : Timing} (h : SameDies t t') (h' : SameDies t' t'') : SameDies t t'' :=
  ⟨fun part => (h'.avail part).trans (h.avail part), h'.credits ∘ h.credits⟩

theorem readClock_sameDies (t : Timing) : SameDies t t.readClock.2 :=
  ⟨fun _ => rfl, fun h => ⟨h.channels, h.pcie⟩⟩

theorem ssdAdvancePcie_sameDies (t : Timing) (requestTime length : ℕ) :
    SameDies t (ssdAdvancePcie t requestTime length).2 :=
  ⟨fun _ => rfl, fun h => ⟨h.channels, (chmodelRequest_commandCredits _ _ _ _).trans h.pcie⟩⟩

theorem ssdAdvanceChannel_sameDies (t : Timing) (part ch requestTime length : ℕ) :
    SameDies t (ssdAdvanceChannel t part ch requestTime length).2 := by
  constructor
  · intro p
    show ((update t.ssd part _ : ℕ → NandTiming) p).nextLunAvailTime = _
    by_cases hp : p = part
    · subst hp
      rw [update_self]
    · rw [update_of_ne hp]
  · intro h
    refine ⟨fun p c => ?_, h.pcie⟩
    show (((update t.ssd part _ : ℕ → NandTiming) p).perfModel c).commandCredits = 0
    by_cases hp : p = part
    · subst hp
      rw [update_self]
      dsimp only
      by_cases hc : c = ch
      · subst hc
        rw [update_self]
        exact (chmodelRequest_commandCredits _ _ _ _).trans (h.channels p c)
      · rw [update_of_ne hc]
        exact h.channels p c
    · rw [update_of_ne hp]
      exact h.channels p c

/-- The time a transfer takes on a channel. -/
def channelLatency (t : Timing) (part ch requestTime length : ℕ) : ℕ :=
  requestLatency ((t.ssd part).perfModel ch) t.readClock.1 requestTime length

def pcieLatency (t : Timing) (requestTime length : ℕ) : ℕ :=
  requestLatency t.pcie t.readClock.1 requestTime length

theorem le_ssdAdvanceChannel {ch requestTime length : ℕ} (hcredits : t.NoCommandCredits)
    (h : requestTime + channelLatency t part ch requestTime length < 2 ^ 64) :
    requestTime ≤ (ssdAdvanceChannel t part ch requestTime length).1 :=
  requestTime_le (hcredits.channels part ch) h

theorem le_ssdAdvancePcie {requestTime length : ℕ} (hcredits : t.NoCommandCredits)
    (h : requestTime + pcieLatency t requestTime length < 2 ^ 64) :
    requestTime ≤ (ssdAdvancePcie t requestTime length).1 :=
  requestTime_le hcredits.pcie h

/-! ## The transfer of a read -/

/-- No time overflows in the transfer loop. -/
def XferFits (sp : SsdParams) (part ch : ℕ) (dma : Bool) : ℕ → ℕ → ℕ → Timing → Prop
  | 0, _, _, _ => True
  | fuel + 1, remaining, chnl, t => remaining ≠ 0 →
    let xferSize := min remaining sp.maxChXferSize
    let c := ssdAdvanceChannel t part ch chnl xferSize
    chnl + channelLatency t part ch chnl xferSize < 2 ^ 64 ∧
      (dma = true → c.1 + pcieLatency c.2 c.1 xferSize < 2 ^ 64) ∧
      XferFits sp part ch dma fuel (remaining - xferSize) c.1
        (if dma then (ssdAdvancePcie c.2 c.1 xferSize).2 else c.2)

theorem readXfer_succ {ch : ℕ} {dma : Bool} {fuel remaining chnl completed : ℕ} (h : remaining ≠ 0) :
    let xferSize := min remaining sp.maxChXferSize
    let c := ssdAdvanceChannel t part ch chnl xferSize
    readXfer sp part ch dma (fuel + 1) remaining chnl completed t =
      readXfer sp part ch dma fuel (remaining - xferSize) c.1
        (if dma then (ssdAdvancePcie c.2 c.1 xferSize).1 else c.1)
        (if dma then (ssdAdvancePcie c.2 c.1 xferSize).2 else c.2) := by
  dsimp only
  rw [readXfer, if_neg h]
  cases dma
  · rfl
  · rfl

theorem readXfer_sameDies (sp : SsdParams) (part ch : ℕ) (dma : Bool) (fuel remaining chnl completed : ℕ)
    (t : Timing) :
    SameDies t (readXfer sp part ch dma fuel remaining chnl completed t).2.2 := by
  induction fuel generalizing remaining chnl completed t with
  | zero => exact .refl t
  | succ fuel ih =>
    by_cases h : remaining = 0
    · rw [readXfer, if_pos h]
      exact .refl t
    · have hc := ssdAdvanceChannel_sameDies t part ch chnl (min remaining sp.maxChXferSize)
      rw [readXfer_succ h]
      generalize ssdAdvanceChannel t part ch chnl (min remaining sp.maxChXferSize) = c at hc
      refine (hc.trans ?_).trans (ih _ _ _ _)
      cases dma with
      | false => exact .refl _
      | true => exact ssdAdvancePcie_sameDies _ _ _

/-- A turn completes nothing before the time it starts at. -/
theorem turn_le {ch : ℕ} {dma : Bool} {chnl xferSize : ℕ} (hcredits : t.NoCommandCredits)
    (hchnl : chnl + channelLatency t part ch chnl xferSize < 2 ^ 64)
    (hpcie : dma = true → (ssdAdvanceChannel t part ch chnl xferSize).1 +
      pcieLatency (ssdAdvanceChannel t part ch chnl xferSize).2
        (ssdAdvanceChannel t part ch chnl xferSize).1 xferSize < 2 ^ 64) :
    let c := ssdAdvanceChannel t part ch chnl xferSize
    chnl ≤ c.1 ∧ chnl ≤ (if dma then (ssdAdvancePcie c.2 c.1 xferSize).1 else c.1) ∧
      (if dma then (ssdAdvancePcie c.2 c.1 xferSize).2 else c.2).NoCommandCredits := by
  have hle := le_ssdAdvanceChannel hcredits hchnl
  have hcredits' := (ssdAdvanceChannel_sameDies t part ch chnl xferSize).credits hcredits
  dsimp only
  refine ⟨hle, ?_, ?_⟩
  · cases dma with
    | false => exact hle
    | true => exact hle.trans (le_ssdAdvancePcie hcredits' (hpcie rfl))
  · cases dma with
    | false => exact hcredits'
    | true => exact (ssdAdvancePcie_sameDies _ _ _).credits hcredits'

/-- The transfer loop keeps what is not before `x`. -/
theorem le_readXfer {x ch : ℕ} {dma : Bool} {fuel remaining chnl completed : ℕ}
    (hcredits : t.NoCommandCredits) (hfits : XferFits sp part ch dma fuel remaining chnl t)
    (hchnl : x ≤ chnl) (hcompleted : x ≤ completed) :
    x ≤ (readXfer sp part ch dma fuel remaining chnl completed t).1 ∧
      x ≤ (readXfer sp part ch dma fuel remaining chnl completed t).2.1 := by
  induction fuel generalizing remaining chnl completed t with
  | zero => exact ⟨hchnl, hcompleted⟩
  | succ fuel ih =>
    by_cases h : remaining = 0
    · rw [readXfer, if_pos h]
      exact ⟨hchnl, hcompleted⟩
    · obtain ⟨hfit, hpcie, hrest⟩ := hfits h
      obtain ⟨hc, hp, hcr⟩ := turn_le hcredits hfit hpcie
      rw [readXfer_succ h]
      exact ih hcr hrest (hchnl.trans hc) (hchnl.trans hp)

/-- **The transfer of a read** ends no earlier than the read of the die. -/
theorem readXfer_law {ch : ℕ} {dma : Bool} {xferSize chnl : ℕ} (hcredits : t.NoCommandCredits)
    (hsize : xferSize ≠ 0) (hfits : XferFits sp part ch dma xferSize xferSize chnl t) (completed : ℕ) :
    chnl ≤ (readXfer sp part ch dma xferSize xferSize chnl completed t).1 ∧
      chnl ≤ (readXfer sp part ch dma xferSize xferSize chnl completed t).2.1 := by
  obtain ⟨fuel, hfuel⟩ := Nat.exists_eq_succ_of_ne_zero hsize
  generalize hf : xferSize = f at hfits ⊢
  subst hf
  rw [hfuel] at hfits ⊢
  obtain ⟨hfit, hpcie, hrest⟩ := hfits (Nat.succ_ne_zero fuel)
  obtain ⟨hc, hp, hcr⟩ := turn_le hcredits hfit hpcie
  rw [readXfer_succ (Nat.succ_ne_zero fuel)]
  exact le_readXfer hcr hrest hc hp

/-! ## A command -/

/-- `lun->next_lun_avail_time` of the die at `p`. -/
def lunAvail (t : Timing) (part : ℕ) (p : Ppa) : ℕ :=
  (t.ssd part).nextLunAvailTime (p.ch.toNat, p.lun.toNat)

theorem lunAvail_setLun (t : Timing) (part : ℕ) (p : Ppa) (time : ℕ) :
    lunAvail (t.setLun part p time) part p = time := by
  show (update t.ssd part _ part).nextLunAvailTime _ = _
  rw [update_self]
  exact update_self _ _ _

theorem setLun_of_ne (t : Timing) {part part' : ℕ} {p : Ppa} {l : ℕ × ℕ} (time : ℕ)
    (h : (part', l) ≠ (part, (p.ch.toNat, p.lun.toNat))) :
    ((t.setLun part p time).ssd part').nextLunAvailTime l = (t.ssd part').nextLunAvailTime l := by
  show ((update t.ssd part _ : ℕ → NandTiming) part').nextLunAvailTime l = _
  by_cases hpart : part' = part
  · subst hpart
    rw [update_self]
    exact update_of_ne (fun hl => h (by rw [hl])) _ _
  · rw [update_of_ne hpart]

/-- `cmd_stime`, and the clocks after it is read. -/
def cmdStime (t : Timing) (ncmd : NandCmd) : ℕ × Timing :=
  if ncmd.stime = 0 then t.readClock else (ncmd.stime, t)

theorem cmdStime_sameDies (t : Timing) (ncmd : NandCmd) : SameDies t (cmdStime t ncmd).2 := by
  unfold cmdStime
  split_ifs
  · exact readClock_sameDies t
  · exact .refl t

/-- The time from which a command has its die. -/
def lunStime (part : ℕ) (t : Timing) (ncmd : NandCmd) : ℕ :=
  max (lunAvail t part ncmd.ppa) (cmdStime t ncmd).1

/-- The NAND latency of a command. -/
def NandCmd.latency (sp : SsdParams) (ncmd : NandCmd) : ℕ :=
  match ncmd.cmd with
  | .read => if ncmd.xferSize = 4096 then sp.pg4kbRdLat (getCell sp ncmd.ppa)
    else sp.pgRdLat (getCell sp ncmd.ppa)
  | .write => sp.pgWrLat
  | .erase => sp.blkErLat
  | .nop => 0

/-- `nand_stime`: the start of the phase on the die.  A write transfers first. -/
def nandStime (part : ℕ) (t : Timing) (ncmd : NandCmd) : ℕ :=
  match ncmd.cmd with
  | .write => (ssdAdvanceChannel (cmdStime t ncmd).2 part ncmd.ppa.ch.toNat (lunStime part t ncmd)
      ncmd.xferSize).1
  | .read | .erase | .nop => lunStime part t ncmd

/-- No time overflows. -/
def NandFits (sp : SsdParams) (part : ℕ) (t : Timing) (ncmd : NandCmd) : Prop :=
  nandStime part t ncmd + ncmd.latency sp < 2 ^ 64 ∧
  match ncmd.cmd with
  | .read => XferFits sp part ncmd.ppa.ch.toNat ncmd.interleavePciDma ncmd.xferSize ncmd.xferSize
      (nandStime part t ncmd + ncmd.latency sp) (cmdStime t ncmd).2
  | .write => lunStime part t ncmd + channelLatency (cmdStime t ncmd).2 part ncmd.ppa.ch.toNat
      (lunStime part t ncmd) ncmd.xferSize < 2 ^ 64
  | .erase | .nop => True

/-- What a command does to the dies. -/
structure NandLaw (sp : SsdParams) (part : ℕ) (t : Timing) (ncmd : NandCmd) (r : ℕ × Timing) : Prop where
  starts : max (lunAvail t part ncmd.ppa) (cmdStime t ncmd).1 ≤ nandStime part t ncmd
  mono : lunAvail t part ncmd.ppa ≤ lunAvail r.2 part ncmd.ppa
  busy : nandStime part t ncmd + ncmd.latency sp ≤ lunAvail r.2 part ncmd.ppa
  completes : nandStime part t ncmd + ncmd.latency sp ≤ r.1
  others (part' : ℕ) (l : ℕ × ℕ) : (part', l) ≠ (part, (ncmd.ppa.ch.toNat, ncmd.ppa.lun.toNat)) →
    (r.2.ssd part').nextLunAvailTime l = (t.ssd part').nextLunAvailTime l

/-- The ways `ssd_advance_nand` ends: the die is available from `avail` on, and the
    command is complete at `completed`. -/
theorem NandLaw.of_setLun {completed avail : ℕ} (hsame : SameDies t t')
    (hstarts : lunStime part t ncmd ≤ nandStime part t ncmd)
    (havail : nandStime part t ncmd + ncmd.latency sp ≤ avail)
    (hcompleted : nandStime part t ncmd + ncmd.latency sp ≤ completed) :
    NandLaw sp part t ncmd (completed, t'.setLun part ncmd.ppa avail) where
  starts := hstarts
  mono := by
    rw [lunAvail_setLun]
    exact ((le_max_left _ _).trans hstarts).trans ((Nat.le_add_right _ _).trans havail)
  busy := by
    rw [lunAvail_setLun]
    exact havail
  completes := hcompleted
  others part' l hne := by
    dsimp only
    rw [setLun_of_ne t' avail hne, hsame.avail part']

/-- **A command waits for its die, and the die is busy until it is over.** -/
theorem ssdAdvanceNand_law (hcredits : t.NoCommandCredits) (hmapped : ncmd.ppa.ppa ≠ UNMAPPED_PPA)
    (hread : ncmd.cmd = .read → ncmd.xferSize ≠ 0) (hfits : NandFits sp part t ncmd) :
    NandLaw sp part t ncmd (ssdAdvanceNand sp part t ncmd) := by
  have hcmd := cmdStime_sameDies t ncmd
  have hstart : max (((cmdStime t ncmd).2.ssd part).nextLunAvailTime (ncmd.ppa.ch.toNat, ncmd.ppa.lun.toNat))
      (cmdStime t ncmd).1 = lunStime part t ncmd := by
    rw [hcmd.avail part]
    rfl
  unfold NandFits at hfits
  obtain ⟨hfit, hfits⟩ := hfits
  unfold ssdAdvanceNand
  rw [← cmdStime]
  dsimp only
  rw [if_neg hmapped, hstart]
  cases hop : ncmd.cmd with
  | read =>
    have hs : nandStime part t ncmd = lunStime part t ncmd := by unfold nandStime; rw [hop]
    have hlat : ncmd.latency sp = if ncmd.xferSize = 4096 then sp.pg4kbRdLat (getCell sp ncmd.ppa)
        else sp.pgRdLat (getCell sp ncmd.ppa) := by unfold NandCmd.latency; rw [hop]
    rw [hop] at hfits
    dsimp only at hfits ⊢
    rw [← hlat, ← hs, show u64 (nandStime part t ncmd + ncmd.latency sp) = _ from Nat.mod_eq_of_lt hfit]
    have hlaw := readXfer_law (hcmd.credits hcredits) (hread hop) hfits 0
    have hsame := hcmd.trans (readXfer_sameDies sp part ncmd.ppa.ch.toNat ncmd.interleavePciDma
      ncmd.xferSize ncmd.xferSize (nandStime part t ncmd + ncmd.latency sp) 0 (cmdStime t ncmd).2)
    exact .of_setLun hsame hs.ge hlaw.1 hlaw.2
  | write =>
    have hs : nandStime part t ncmd = (ssdAdvanceChannel (cmdStime t ncmd).2 part ncmd.ppa.ch.toNat
        (lunStime part t ncmd) ncmd.xferSize).1 := by unfold nandStime; rw [hop]
    have hlat : ncmd.latency sp = sp.pgWrLat := by unfold NandCmd.latency; rw [hop]
    rw [hop] at hfits
    dsimp only at hfits ⊢
    rw [← hs, ← hlat, show u64 (nandStime part t ncmd + ncmd.latency sp) = _ from Nat.mod_eq_of_lt hfit]
    refine .of_setLun (hcmd.trans (ssdAdvanceChannel_sameDies _ _ _ _ _)) ?_ le_rfl le_rfl
    rw [hs]
    exact le_ssdAdvanceChannel (hcmd.credits hcredits) hfits
  | erase =>
    have hs : nandStime part t ncmd = lunStime part t ncmd := by unfold nandStime; rw [hop]
    have hlat : ncmd.latency sp = sp.blkErLat := by unfold NandCmd.latency; rw [hop]
    dsimp only
    rw [← hs, ← hlat, show u64 (nandStime part t ncmd + ncmd.latency sp) = _ from Nat.mod_eq_of_lt hfit]
    exact .of_setLun hcmd hs.ge le_rfl le_rfl
  | nop =>
    have hs : nandStime part t ncmd = lunStime part t ncmd := by unfold nandStime; rw [hop]
    have hlat : ncmd.latency sp = 0 := by unfold NandCmd.latency; rw [hop]
    dsimp only
    rw [← hs]
    refine .of_setLun hcmd hs.ge ?_ ?_
    · rw [hlat]; exact le_rfl
    · rw [hlat]; exact le_rfl

theorem ssdAdvanceNand_credits (hcredits : t.NoCommandCredits) :
    (ssdAdvanceNand sp part t ncmd).2.NoCommandCredits := by
  have hset {t : Timing} (h : t.NoCommandCredits) (time : ℕ) :
      (t.setLun part ncmd.ppa time).NoCommandCredits := by
    refine ⟨fun p c => ?_, h.pcie⟩
    show (((update t.ssd part _ : ℕ → NandTiming) p).perfModel c).commandCredits = 0
    by_cases hp : p = part
    · subst hp
      rw [update_self]
      exact h.channels p c
    · rw [update_of_ne hp]
      exact h.channels p c
  have hcmd := (cmdStime_sameDies t ncmd).credits hcredits
  unfold ssdAdvanceNand
  rw [← cmdStime]
  dsimp only
  by_cases hmapped : ncmd.ppa.ppa = UNMAPPED_PPA
  · rw [if_pos hmapped]
    exact hcmd
  · rw [if_neg hmapped]
    cases ncmd.cmd with
    | read => exact hset ((readXfer_sameDies _ _ _ _ _ _ _ _ _).credits hcmd) _
    | write => exact hset ((ssdAdvanceChannel_sameDies _ _ _ _ _).credits hcmd) _
    | erase => exact hset hcmd _
    | nop => exact hset hcmd _

end WaitGc

/-
  WAITGC verification — the sequential-write law of a zone.

  `sequential_writes`: in every run without random write areas, on a device
  below 2 TiB, the write pointer of a zone and its state agree, and the blocks
  of the successful writes since the last reset follow one another from the
  start of the zone to the write pointer; an append reports the first of its
  blocks.
-/
import WaitGc.Io.Completion
import WaitGc.Lib.Extent
import WaitGc.Proof.ZoneStore
import WaitGc.Theorems.ZoneResources

namespace WaitGc

open Outcome Function Extent

variable {c : ZnsCfg} {s s' : ZnsFtl} {zid : ℕ} {z z' : ZoneDescriptor} {clock storage : ℕ → ℕ}

/-! ## Runs with a log -/

/-- A successful write: the blocks it covers, whether it was an append, and
    `ret->result`. -/
structure ZoneWrite where
  range : Extent
  append : Bool
  result : ℕ

/-- A namespace, and the successful writes of each zone since its last reset. -/
structure ZnsRun where
  ftl : ZnsFtl
  log : ℕ → List ZoneWrite

/-- The zones a management command resets. -/
def ZmgmtSendCommand.Resets (c : ZnsCfg) (s : ZnsFtl) (cmd : ZmgmtSendCommand) (zid : ℕ) : Prop :=
  (cmd.selectAll = true ∨ lbaToZone c cmd.slba.toNat = zid) ∧ (s.zoneDescs zid).Resets cmd.zsa

instance (c : ZnsCfg) (s : ZnsFtl) (cmd : ZmgmtSendCommand) (zid : ℕ) : Decidable (cmd.Resets c s zid) :=
  inferInstanceAs (Decidable (_ ∧ _))

/-- The write with the outcome `o` enters the log if it succeeded.  The blocks are those
    of the submission entry when the handler is done. -/
def ZnsRun.noteWrite (c : ZnsCfg) (s : ZnsRun) (append : Bool) (rw : RwCommand) (o : ZnsOutcome) :
    ℕ → List ZoneWrite :=
  match o.ret with
  | some ret =>
    if ret.status = .success then
      let zid := lbaToZone c rw.slba.toNat
      update s.log zid (s.log zid ++ [⟨⟨o.slba, rw.nrLba⟩, append, ret.result⟩])
    else s.log
  | none => s.log

/-- The log after a command with the outcome `o`. -/
def ZnsRun.note (c : ZnsCfg) (s : ZnsRun) (cmd : ZnsCommand) (o : ZnsOutcome) : ℕ → List ZoneWrite :=
  match cmd with
  | .write rw => s.noteWrite c false rw o
  | .append rw => s.noteWrite c true rw o
  | .mgmtSend cmd => fun zid => if cmd.Resets c s.ftl zid then [] else s.log zid
  | _ => s.log

/-- The machine of `znsMachine`, with the log. -/
def znsLogged (c : ZnsCfg) : Machine ZnsRun ZnsEvent ZnsFault where
  step s
    | .command req => (znsProcNvmeIoCmd c s.ftl req).map fun o => ⟨o.ftl, s.note c req.cmd o⟩
    | .fire i => .ok ⟨s.ftl.fire i, s.log⟩

/-- No zone is opened with a random write area, and the zones exist. -/
def ZnsEvent.Sequential (c : ZnsCfg) : ZnsEvent → Prop
  | .command ⟨.mgmtSend cmd, _, _⟩ => (ZnsCommand.mgmtSend cmd).Addressed c ∧
      (cmd.zsa = ZSA_OPEN_ZONE → cmd.zsaso = false)
  | .command req => req.cmd.Addressed c
  | .fire _ => True

/-! ## The law -/

/-- The first block of a zone. -/
def zoneStart (c : ZnsCfg) (zid : ℕ) : ℕ := zid * lbasPerZone c

/-- A zone obeys the law: where the write pointer stands in each state, how the written
    blocks lie, and what the appends report. -/
structure ZoneLaw (c : ZnsCfg) (zid : ℕ) (z : ZoneDescriptor) (log : List ZoneWrite) : Prop where
  zslba : z.zslba = zoneStart c zid
  capacity : z.zoneCapacity = lbasPerZone c
  wpGe : z.zslba ≤ z.wp
  wpLe : z.wp ≤ z.zslba + z.zoneCapacity
  empty : z.state = .empty → z.wp = z.zslba
  active : z.isActive = true → z.wp < z.zslba + z.zoneCapacity
  full : z.wp = z.zslba + z.zoneCapacity → z.state = .full
  tiles : Tiles z.zslba (log.map (·.range)) z.wp
  appends : ∀ w ∈ log, w.append = true → w.result = w.range.start
  zrwav : z.zrwav = false
  readable : z.state ≠ .readOnly ∧ z.state ≠ .offline

theorem lbasPerZone_pos (c : ZnsCfg) : 0 < lbasPerZone c := by
  have hpos := c.zoneSize_pos
  have hmod := c.zoneSize_mod
  rw [c.pgsz_eq, show LBA_SIZE = 512 from rfl] at hmod
  rw [lbasPerZone, show LBA_SIZE = 512 from rfl]
  omega

/-- The last block of a zone is a 32-bit number. -/
theorem zoneStart_succ_lt (hcap : c.zp.nrZones * c.zp.zoneSize < 2 ^ 41) (hzid : zid < c.zp.nrZones) :
    zoneStart c zid + lbasPerZone c < 2 ^ 32 := by
  have hlba : lbasPerZone c * 512 ≤ c.zp.zoneSize := Nat.div_mul_le_self _ _
  have hle : (zid + 1) * (lbasPerZone c * 512) ≤ c.zp.nrZones * c.zp.zoneSize :=
    Nat.mul_le_mul hzid hlba
  have heq : (zid + 1) * (lbasPerZone c * 512) = (zoneStart c zid + lbasPerZone c) * 512 := by
    unfold zoneStart; ring
  omega

theorem zoneToSlba_eq (hcap : c.zp.nrZones * c.zp.zoneSize < 2 ^ 41) (hzid : zid < c.zp.nrZones) :
    zoneToSlba c zid = zoneStart c zid :=
  Nat.mod_eq_of_lt (by have := zoneStart_succ_lt hcap hzid; unfold zoneStart at this; omega)

theorem lbaToZone_eq (hzid : zid < c.zp.nrZones) {lba : ℕ} (hge : zoneStart c zid ≤ lba)
    (hlt : lba < zoneStart c zid + lbasPerZone c) : lbaToZone c lba = zid := by
  have hdiv : lba / lbasPerZone c = zid :=
    Nat.div_eq_of_lt_le hge (by rw [Nat.succ_mul]; exact hlt)
  have := c.nrZones_lt
  rw [lbaToZone, hdiv, u32, Nat.mod_eq_of_lt (by omega)]

/-! ## The law is kept -/

/-- An empty zone, and nothing written. -/
theorem zoneLaw_empty (hz : z.zslba = zoneStart c zid) (hc : z.zoneCapacity = lbasPerZone c)
    (hstate : z.state = .empty) (hwp : z.wp = z.zslba) (hzrwa : z.zrwav = false) :
    ZoneLaw c zid z [] where
  zslba := hz
  capacity := hc
  wpGe := hwp.ge
  wpLe := by omega
  empty _ := hwp
  active ha := by simp [ZoneDescriptor.isActive, ZoneDescriptor.isOpen, hstate] at ha
  full heq := by
    have := lbasPerZone_pos c
    omega
  tiles := hwp.symm
  appends := List.forall_mem_nil _
  zrwav := hzrwa
  readable := by simp [hstate]

theorem zoneLaw_init (hcap : c.zp.nrZones * c.zp.zoneSize < 2 ^ 41) (hzid : zid < c.zp.nrZones) :
    ZoneLaw c zid (initDescriptor c zid) [] := by
  have hlt := zoneStart_succ_lt hcap hzid
  have hstart : u64 (zid * lbasPerZone c) = zoneStart c zid :=
    Nat.mod_eq_of_lt (by unfold zoneStart at hlt; omega)
  exact zoneLaw_empty hstart rfl rfl rfl rfl

theorem ZoneLaw.room {log : List ZoneWrite} (h : ZoneLaw c zid z log)
    (hz : z.state = .empty ∨ z.isActive = true) : z.wp < z.zslba + z.zoneCapacity := by
  rcases hz with hz | hz
  · have := h.empty hz
    have := h.capacity
    have := lbasPerZone_pos c
    omega
  · exact h.active hz

/-- A zone whose write pointer stays may change its state. -/
theorem ZoneLaw.setState {log : List ZoneWrite} (h : ZoneLaw c zid z log) (state : ZoneState)
    (hread : state ≠ .readOnly ∧ state ≠ .offline) (hempty : state ≠ .empty)
    (hroom : state ≠ .full → z.wp < z.zslba + z.zoneCapacity) :
    ZoneLaw c zid { z with state } log where
  zslba := h.zslba
  capacity := h.capacity
  wpGe := h.wpGe
  wpLe := h.wpLe
  empty he := absurd he hempty
  active ha := hroom fun hf => by
    rw [hf] at ha
    cases ha
  full hwp := by
    by_contra hf
    exact (hroom hf).ne hwp
  tiles := h.tiles
  appends := h.appends
  zrwav := h.zrwav
  readable := hread

/-- **A management command keeps the law**; the log of a zone that is reset starts
    anew. -/
theorem ZoneLaw.managed {log : List ZoneWrite} {action : BitVec 8} {option : Bool}
    (h : ZoneLaw c zid z log) (hm : z.Managed action option z')
    (hopt : action = ZSA_OPEN_ZONE → option = false) :
    ZoneLaw c zid z' (if z.Resets action then [] else log) := by
  rcases hm with ⟨hreset, rfl⟩ | ⟨hreset, hm⟩
  · rw [if_pos hreset]
    exact zoneLaw_empty h.zslba h.capacity rfl rfl rfl
  · rw [if_neg hreset]
    have hzrwa : (decide (action = ZSA_OPEN_ZONE) && option) = false := by
      by_cases ha : action = ZSA_OPEN_ZONE
      · rw [hopt ha, Bool.and_false]
      · rw [decide_eq_false ha, Bool.false_and]
    rw [hzrwa] at hm
    cases hm with
    | keep => exact h
    | close hopen =>
      exact h.setState .closed (by simp) (by simp) fun _ =>
        h.active (ZoneDescriptor.isActive_of_isOpen hopen)
    | finish => exact h.setState .full (by simp) (by simp) (by simp)
    | opened hz => exact h.setState .openedExpl (by simp) (by simp) fun _ => h.room hz
    | openedZrwa hf => cases hf
    | offline hread => exact absurd hread h.readable.1
    | flush wp state hw => rw [h.zrwav] at hw; cases hw

/-- The blocks of an admitted write lie in the zone. -/
theorem ZoneLaw.admitted_le {log : List ZoneWrite} {slba nrLba : ℕ}
    (hcap : c.zp.nrZones * c.zp.zoneSize < 2 ^ 41) (hzid : zid < c.zp.nrZones)
    (h : ZoneLaw c zid z log) (ha : Admitted c z slba nrLba) (hpos : 0 < nrLba) (hnr : nrLba ≤ 2 ^ 16) :
    slba + nrLba ≤ zoneStart c zid + lbasPerZone c := by
  have hend := zoneStart_succ_lt hcap hzid
  have hroom := h.room ha.state
  have hge := h.wpGe
  rw [← ha.wp, h.zslba, h.capacity] at hroom
  rw [← ha.wp, h.zslba] at hge
  have hbound := ha.boundary
  have hu : u32 nrLba = nrLba := Nat.mod_eq_of_lt (by omega)
  have hlast : sub64 (u64 (slba + nrLba)) 1 = slba + nrLba - 1 := by
    unfold sub64 u64
    omega
  rw [checkBoundaryError, hu, hlast, decide_eq_true_eq, lbaToZone_eq hzid hge hroom] at hbound
  -- the last block is in the zone, and its zone number does not wrap
  have hpos' := lbasPerZone_pos c
  have hdiv : (slba + nrLba - 1) / lbasPerZone c < 2 ^ 32 := by
    have hlba : 8 ≤ lbasPerZone c := by
      have h0 := c.zoneSize_pos
      have hmod := c.zoneSize_mod
      rw [c.pgsz_eq, show LBA_SIZE = 512 from rfl] at hmod
      rw [lbasPerZone, show LBA_SIZE = 512 from rfl]
      omega
    refine lt_of_le_of_lt (Nat.div_le_div_left hlba (by omega)) ?_
    omega
  rw [lbaToZone, u32, Nat.mod_eq_of_lt hdiv] at hbound
  have hlt := Nat.lt_mul_div_succ (slba + nrLba - 1) hpos'
  rw [← hbound, Nat.mul_comm, Nat.succ_mul] at hlt
  unfold zoneStart
  omega

/-- Where the write pointer of an admitted write goes, against the end of the zone. -/
theorem ZoneLaw.admitted_wp {log : List ZoneWrite} {slba nrLba : ℕ}
    (hcap : c.zp.nrZones * c.zp.zoneSize < 2 ^ 41) (hzid : zid < c.zp.nrZones)
    (h : ZoneLaw c zid z log) (ha : Admitted c z slba nrLba) (hpos : 0 < nrLba) (hnr : nrLba ≤ 2 ^ 16) :
    u64 (z.wp + u32 nrLba) = slba + nrLba ∧
      u64 (zoneToSlba c zid + z.zoneCapacity) = zoneStart c zid + lbasPerZone c := by
  have hend := zoneStart_succ_lt hcap hzid
  have hle := h.admitted_le hcap hzid ha hpos hnr
  have hu : u32 nrLba = nrLba := Nat.mod_eq_of_lt (by omega)
  rw [hu, zoneToSlba_eq hcap hzid, h.capacity, ← ha.wp]
  exact ⟨Nat.mod_eq_of_lt (by omega), Nat.mod_eq_of_lt (by omega)⟩

/-- **A done write keeps the law**, with its blocks at the end of the log. -/
theorem ZoneLaw.written {log : List ZoneWrite} {slba nrLba result : ℕ} {append : Bool}
    (hcap : c.zp.nrZones * c.zp.zoneSize < 2 ^ 41) (hzid : zid < c.zp.nrZones)
    (h : ZoneLaw c zid z log) (ha : Admitted c z slba nrLba) (hpos : 0 < nrLba) (hnr : nrLba ≤ 2 ^ 16)
    (hres : append = true → result = slba) :
    ZoneLaw c zid (z.written c zid nrLba) (log ++ [⟨⟨slba, nrLba⟩, append, result⟩]) := by
  have hle := h.admitted_le hcap hzid ha hpos hnr
  obtain ⟨hwp, hend⟩ := h.admitted_wp hcap hzid ha hpos hnr
  have hge := h.wpGe
  have hz := h.zslba
  have hc := h.capacity
  have hslba := ha.wp
  have hwp' : (z.written c zid nrLba).wp = slba + nrLba := hwp
  have hstate : (z.written c zid nrLba).state =
      if slba + nrLba = zoneStart c zid + lbasPerZone c then .full else z.openImpl.state := by
    simp only [ZoneDescriptor.written, ZoneDescriptor.advance, ZoneDescriptor.openImpl_wp,
      ZoneDescriptor.openImpl_zoneCapacity, hwp, hend]
  have hopen := (isOpen_eq _).1 (ZoneDescriptor.openImpl_isOpen z)
  constructor
  · exact hz
  · exact hc
  · show z.zslba ≤ _
    rw [hwp']
    omega
  · show _ ≤ z.zslba + z.zoneCapacity
    rw [hwp', hz, hc]
    exact hle
  · intro he
    rw [hstate] at he
    split_ifs at he
    rcases hopen with ho | ho <;> rw [ho] at he <;> cases he
  · intro hact
    show _ < z.zslba + z.zoneCapacity
    rw [hwp', hz, hc]
    refine lt_of_le_of_ne hle fun heq => ?_
    simp [ZoneDescriptor.isActive, ZoneDescriptor.isOpen, hstate, heq] at hact
  · intro heq
    change (z.written c zid nrLba).wp = z.zslba + z.zoneCapacity at heq
    rw [hwp', hz, hc] at heq
    rw [hstate, if_pos heq]
  · show Tiles z.zslba _ _
    rw [hwp', List.map_append]
    exact h.tiles.concat (e := ⟨slba, nrLba⟩) hslba
  · intro w hw happ
    rcases List.mem_append.1 hw with hw | hw
    · exact h.appends w hw happ
    · rw [List.mem_singleton] at hw
      subst hw
      exact hres happ
  · exact h.zrwav
  · rw [hstate]
    split_ifs
    · simp
    · rcases hopen with ho | ho <;> rw [ho] <;> simp

/-! ## Runs -/

/-- The law of a run: every zone obeys its own, and no write passed the end of a
    zone. -/
structure RunLaw (c : ZnsCfg) (s : ZnsRun) : Prop where
  counted : ZonesCounted c s.ftl
  zones : ∀ zid, zid < c.zp.nrZones → ZoneLaw c zid (s.ftl.zoneDescs zid) (s.log zid)
  boundaryErrors : s.ftl.boundaryErrors = 0

theorem RunLaw.same {r : ZnsRun} (h : RunLaw c r) (hs : SameZones r.ftl s) : RunLaw c ⟨s, r.log⟩ where
  counted := h.counted.same hs
  zones zid hzid := by
    show ZoneLaw c zid (s.zoneDescs zid) _
    rw [hs.descs]
    exact h.zones zid hzid
  boundaryErrors := hs.boundaryErrors.trans h.boundaryErrors

/-- **A write keeps the law of the run.** -/
theorem RunLaw.write {r : ZnsRun} {append : Bool} {rw : RwCommand} {sqid start : ℕ} {o : ZnsOutcome}
    (hcap : c.zp.nrZones * c.zp.zoneSize < 2 ^ 41) (h : RunLaw c r)
    (hzid : lbaToZone c rw.slba.toNat < c.zp.nrZones)
    (ho : znsWrite c r.ftl sqid start append rw = .ok o) :
    RunLaw c ⟨o.ftl, r.noteWrite c append rw o⟩ := by
  have hcounted := h.counted.write hzid ho
  unfold znsWrite at ho
  dsimp only at ho
  rw [lpnToZone_lbaToLpn, if_pos (h.zones _ hzid).zrwav] at ho
  have hslba := znsWriteSeq_slba ho
  rcases znsWriteSeq_cases (h.counted.room hzid) ho with
    ⟨hret, hsame⟩ | ⟨ret, hret, hst, hsame⟩ | ⟨ret, hret, hst, hres, hadm, hmove, herr⟩
  · rw [ZnsRun.noteWrite, hret]
    exact h.same hsame
  · simp only [ZnsRun.noteWrite, hret]
    rw [if_neg hst]
    exact h.same hsame
  · simp only [ZnsRun.noteWrite, hret]
    rw [if_pos hst, hslba, hres]
    have hpos : 0 < rw.nrLba := Nat.succ_pos _
    have hnr : rw.nrLba ≤ 2 ^ 16 := rw.length.isLt
    have hlaw := h.zones _ hzid
    obtain ⟨hwp, hend⟩ := hlaw.admitted_wp hcap hzid hadm hpos hnr
    have hle := hlaw.admitted_le hcap hzid hadm hpos hnr
    refine ⟨hcounted, ?_, ?_⟩
    · intro zid' hzid'
      show ZoneLaw c zid' (o.ftl.zoneDescs zid') (update r.log _ _ zid')
      rw [hmove.descs]
      rcases eq_or_ne zid' (lbaToZone c rw.slba.toNat) with heq | hne
      · subst heq
        rw [update_self, update_self]
        exact hlaw.written hcap hzid hadm hpos hnr fun happ => by rw [happ]; rfl
      · rw [update_of_ne hne, update_of_ne hne]
        exact h.zones zid' hzid'
    · exact (herr (by rw [hwp, hend]; exact hle)).trans h.boundaryErrors

theorem lbaToZone_zoneToSlba (hcap : c.zp.nrZones * c.zp.zoneSize < 2 ^ 41)
    (hzid : zid < c.zp.nrZones) : lbaToZone c (zoneToSlba c zid) = zid := by
  have hpos := lbasPerZone_pos c
  rw [zoneToSlba_eq hcap hzid]
  exact lbaToZone_eq hzid le_rfl (by omega)

/-- **A management command on one zone keeps the law of the run.** -/
theorem RunLaw.send {r : ZnsRun} {slba : ℕ} {action : BitVec 8} {option : Bool}
    {a : ZnsStatus × ZnsFtl} (h : RunLaw c r) (hzid : lbaToZone c slba < c.zp.nrZones)
    (hopt : action = ZSA_OPEN_ZONE → option = false)
    (hsend : zmgmtSend c r.ftl slba action option = .ok a) :
    RunLaw c ⟨a.2, update r.log (lbaToZone c slba)
      (if (r.ftl.zoneDescs (lbaToZone c slba)).Resets action then [] else r.log (lbaToZone c slba))⟩ ∧
    ∀ zid, zid ≠ lbaToZone c slba → a.2.zoneDescs zid = r.ftl.zoneDescs zid := by
  obtain ⟨z, hz, hmove⟩ := zmgmtSend_move (h.counted.room hzid) hsend
  refine ⟨⟨h.counted.move hzid hmove, ?_, ?_⟩, ?_⟩
  · intro zid hzid'
    show ZoneLaw c zid (a.2.zoneDescs zid) (update r.log _ _ zid)
    rw [hmove.descs]
    rcases eq_or_ne zid (lbaToZone c slba) with heq | hne
    · subst heq
      rw [update_self, update_self]
      exact (h.zones _ hzid).managed hz hopt
    · rw [update_of_ne hne, update_of_ne hne]
      exact h.zones zid hzid'
  · exact (zmgmtSend_boundaryErrors hsend).trans h.boundaryErrors
  · intro zid hne
    rw [hmove.descs, update_of_ne hne]

/-- The log after the zones of `pre` were handled. -/
def resetLog (r : ZnsRun) (action : BitVec 8) (pre : List ℕ) : ℕ → List ZoneWrite := fun zid =>
  if zid ∈ pre ∧ (r.ftl.zoneDescs zid).Resets action then [] else r.log zid

/-- **A management command on all zones keeps the law of the run.** -/
theorem RunLaw.sendAll {r : ZnsRun} {action : BitVec 8} {option : Bool}
    (hcap : c.zp.nrZones * c.zp.zoneSize < 2 ^ 41) (h : RunLaw c r)
    (hopt : action = ZSA_OPEN_ZONE → option = false)
    (hsend : zmgmtSendAll c r.ftl action option = .ok s) :
    RunLaw c ⟨s, resetLog r action (List.range c.zp.nrZones)⟩ := by
  let I (pre : List ℕ) (s : ZnsFtl) : Prop := RunLaw c ⟨s, resetLog r action pre⟩ ∧
    ∀ zid, zid ∉ pre → s.zoneDescs zid = r.ftl.zoneDescs zid
  have hnil : resetLog r action [] = r.log := by
    funext zid
    exact if_neg fun hz => absurd hz.1 (List.not_mem_nil)
  suffices hloop : Yields (I (List.range c.zp.nrZones)) (zmgmtSendAll c r.ftl action option) from
    (hloop.of_ok hsend).1
  refine sat_foldlM I _ ?_ ⟨hnil.symm ▸ h, fun _ _ => rfl⟩
  intro pre zid post s₁ hl ⟨hlaw, hrest⟩
  have hzid : zid < c.zp.nrZones := List.mem_range.1 (hl ▸ by simp)
  have hnot : zid ∉ pre := by
    have hnd := List.nodup_range (n := c.zp.nrZones)
    rw [hl, List.nodup_append] at hnd
    exact fun hmem => hnd.2.2 zid hmem zid List.mem_cons_self rfl
  cases hs : zmgmtSend c s₁ (zoneToSlba c zid) action option with
  | error e => trivial
  | ok a =>
    have heq := lbaToZone_zoneToSlba hcap hzid
    obtain ⟨hlaw', hdescs⟩ := hlaw.send (heq.symm ▸ hzid) hopt hs
    rw [heq] at hlaw' hdescs
    have hlog : update (resetLog r action pre) zid
        (if (s₁.zoneDescs zid).Resets action then [] else resetLog r action pre zid) =
          resetLog r action (pre ++ [zid]) := by
      funext j
      rcases eq_or_ne j zid with rfl | hne
      · rw [update_self, hrest j hnot]
        simp [resetLog, hnot]
      · rw [update_of_ne hne]
        simp [resetLog, hne]
    refine ⟨hlog ▸ hlaw', fun j hj => ?_⟩
    rw [List.mem_append, not_or, List.mem_singleton] at hj
    rw [hdescs j hj.2, hrest j hj.1]

/-- **A command keeps the law of the run.** -/
theorem RunLaw.command {r : ZnsRun} {req : ZnsRequest} {o : ZnsOutcome}
    (hcap : c.zp.nrZones * c.zp.zoneSize < 2 ^ 41) (h : RunLaw c r)
    (hseq : (ZnsEvent.command req).Sequential c) (ho : znsProcNvmeIoCmd c r.ftl req = .ok o) :
    RunLaw c ⟨o.ftl, r.note c req.cmd o⟩ := by
  obtain ⟨cmd, sqid, start⟩ := req
  unfold znsProcNvmeIoCmd at ho
  dsimp only at ho ⊢
  cases cmd with
  | write rw => exact h.write hcap hseq ho
  | append rw => exact h.write hcap hseq ho
  | read rw => cases ho; exact h.same (znsRead_same _ _ _)
  | flush => cases ho; exact h.same (znsFlush_same _)
  | other opcode => cases ho; exact h
  | mgmtSend cmd =>
    obtain ⟨haddr, hopt⟩ := hseq
    obtain ⟨a, hsend, ho⟩ := bind_eq_ok ho
    cases ho
    show RunLaw c ⟨a.2, fun zid => if cmd.Resets c r.ftl zid then [] else r.log zid⟩
    unfold znsZmgmtSend at hsend
    by_cases hall : cmd.selectAll = true
    · rw [if_pos hall] at hsend
      cases hs : zmgmtSendAll c r.ftl cmd.zsa cmd.zsaso with
      | error e => rw [hs] at hsend; cases hsend
      | ok s =>
        rw [hs] at hsend
        cases hsend
        have hlaw := h.sendAll hcap hopt hs
        refine ⟨hlaw.counted, fun zid hzid => ?_, hlaw.boundaryErrors⟩
        have hz := hlaw.zones zid hzid
        simpa only [resetLog, ZmgmtSendCommand.Resets, hall, true_or, true_and, List.mem_range, hzid]
          using hz
    · rw [if_neg hall] at hsend
      have hzid := haddr.resolve_left hall
      obtain ⟨hlaw, -⟩ := h.send hzid hopt hsend
      have hlog : (fun zid => if cmd.Resets c r.ftl zid then [] else r.log zid) =
          update r.log (lbaToZone c cmd.slba.toNat)
            (if (r.ftl.zoneDescs (lbaToZone c cmd.slba.toNat)).Resets cmd.zsa then []
              else r.log (lbaToZone c cmd.slba.toNat)) := by
        funext j
        rcases eq_or_ne j (lbaToZone c cmd.slba.toNat) with rfl | hne
        · rw [update_self]
          simp [ZmgmtSendCommand.Resets]
        · rw [update_of_ne hne]
          exact if_neg fun hres => hne (hres.1.resolve_left hall).symm
      rw [hlog]
      exact hlaw

theorem RunLaw.step {r r' : ZnsRun} {e : ZnsEvent} (hcap : c.zp.nrZones * c.zp.zoneSize < 2 ^ 41)
    (h : RunLaw c r) (hseq : e.Sequential c) (hstep : (znsLogged c).step r e = .ok r') : RunLaw c r' := by
  cases e with
  | command req =>
    cases ho : znsProcNvmeIoCmd c r.ftl req with
    | error f => simp [znsLogged, ho, Except.map] at hstep
    | ok o =>
      simp only [znsLogged, ho, Except.map, Except.ok.injEq] at hstep
      exact hstep ▸ h.command hcap hseq ho
  | fire i =>
    simp only [znsLogged, Except.ok.injEq] at hstep
    exact hstep ▸ h.same (r.ftl.fire_same i)

theorem RunLaw.run {r r' : ZnsRun} {es : List ZnsEvent}
    (hcap : c.zp.nrZones * c.zp.zoneSize < 2 ^ 41) (hseq : ∀ e ∈ es, e.Sequential c) (h : RunLaw c r)
    (hrun : (znsLogged c).run r es = .ok r') : RunLaw c r' := by
  refine (Machine.run_sat (E := fun _ => True) ?_ h (Machine.along_of_forall hseq)).of_ok hrun
  intro r e h hseq
  cases hs : (znsLogged c).step r e with
  | error f => trivial
  | ok r₁ => exact h.step hcap hseq hs

/-- The log is only looked on: the namespace runs as it does without. -/
theorem znsLogged_run (r : ZnsRun) (es : List ZnsEvent) :
    ((znsLogged c).run r es).map ZnsRun.ftl = (znsMachine c).run r.ftl es := by
  induction es generalizing r with
  | nil => rfl
  | cons e es ih =>
    rw [Machine.run_cons, Machine.run_cons]
    cases e with
    | command req =>
      simp only [znsLogged, znsMachine]
      cases znsProcNvmeIoCmd c r.ftl req with
      | error f => rfl
      | ok o => exact ih _
    | fire i => exact ih _

/-! ## The theorem -/

/-- A new namespace, and nothing written. -/
def znsRunInit (c : ZnsCfg) (clock storage : ℕ → ℕ) : ZnsRun := ⟨znsInitFtl c clock storage, fun _ => []⟩

/-- The number the completion of a write reports in its two words. -/
def ZoneWrite.Reports (w : ZoneWrite) (n : ℕ) : Prop :=
  ∀ (e : IoWork) (phase : Bool) (clock sqid cqid commandId start target status : ℕ) (sqEntry : ℤ),
    let cqe := ((IoJob.io sqid cqid sqEntry commandId start target status w.result).fill e clock).cqe phase
    cqe.result0 + 2 ^ 32 * cqe.result1 = n

/-- The sequential-write law of a zone: the write pointer and the state, and the writes
    of `log`, those since the last reset. -/
structure Sequential (z : ZoneDescriptor) (log : List ZoneWrite) : Prop where
  wpGe : z.zslba ≤ z.wp
  wpLe : z.wp ≤ z.zslba + z.zoneCapacity
  empty : z.state = .empty → z.wp = z.zslba
  active : z.state = .openedImpl ∨ z.state = .openedExpl ∨ z.state = .closed →
    z.wp < z.zslba + z.zoneCapacity
  full : z.wp = z.zslba + z.zoneCapacity → z.state = .full
  contiguous : Tiles z.zslba (log.map (·.range)) z.wp
  disjoint : log.Pairwise fun v w => v.range.stop ≤ w.range.start
  appends : ∀ w ∈ log, w.append = true → w.Reports w.range.start

/-- **The sequential-write law**, in every reachable state of a namespace without random
    write areas below 2 TiB; `__increase_write_ptr` never finds a write pointer past
    the end of its zone. -/
theorem sequential_writes {r : ZnsRun} {es : List ZnsEvent}
    (hcap : c.zp.nrZones * c.zp.zoneSize < 2 ^ 41) (hseq : ∀ e ∈ es, e.Sequential c)
    (hrun : (znsLogged c).run (znsRunInit c clock storage) es = .ok r) :
    (∀ zid, zid < c.zp.nrZones → Sequential (r.ftl.zoneDescs zid) (r.log zid)) ∧
      r.ftl.boundaryErrors = 0 := by
  have hinit : RunLaw c (znsRunInit c clock storage) :=
    ⟨zonesCounted_init c clock storage, fun zid hzid => zoneLaw_init hcap hzid, rfl⟩
  have hlaw := hinit.run hcap hseq hrun
  refine ⟨fun zid hzid => ?_, hlaw.boundaryErrors⟩
  have h := hlaw.zones zid hzid
  have hend := zoneStart_succ_lt hcap hzid
  refine ⟨h.wpGe, h.wpLe, h.empty, fun hz => h.active ?_, h.full, h.tiles,
    List.pairwise_map.1 h.tiles.pairwise, fun w hw happ => ?_⟩
  · rw [ZoneDescriptor.isActive, ZoneDescriptor.isOpen]
    simpa [or_assoc] using hz
  · intro e phase clock sqid cqid commandId start target status sqEntry
    have hstop := h.tiles.stop_le _ (List.mem_map_of_mem (f := (·.range)) hw)
    have hwp := h.wpLe
    rw [h.zslba, h.capacity] at hwp
    rw [← h.appends w hw happ] at *
    have hlt : w.result < 2 ^ 32 := by
      rw [stop, ← h.appends w hw happ] at hstop
      omega
    simp only [IoJob.fill, IoWork.cqe, u32]
    omega

/-- A zone is written, appended to, reset, and appended to again. -/
def appendResetAppend : List ZnsEvent :=
  [.command ⟨.write ⟨0, 7, 0⟩, 1, 0⟩, .command ⟨.append ⟨0, 3, 0⟩, 1, 0⟩,
    .command ⟨.mgmtSend ⟨0, ZSA_RESET_ZONE, false, false⟩, 1, 0⟩,
    .command ⟨.append ⟨5, 1, 0⟩, 1, 0⟩, .command ⟨.append ⟨5, 0, 0⟩, 1, 0⟩]

theorem sequential_writes_appendResetAppend :
    ∃ r, (znsLogged zn540).run (znsRunInit zn540 (fun _ => 0) fun _ => 0) appendResetAppend = .ok r ∧
      (r.log 0).map (·.range) = [⟨0, 2⟩, ⟨2, 1⟩] ∧ Sequential (r.ftl.zoneDescs 0) (r.log 0) := by
  have hseq : ∀ e ∈ appendResetAppend, e.Sequential zn540 := by
    simp only [appendResetAppend, List.forall_mem_cons]
    refine ⟨?_, ?_, ⟨.inr ?_, fun _ => rfl⟩, ?_, ?_, List.forall_mem_nil _⟩
    · show lbaToZone zn540 0 < 2; decide
    · show lbaToZone zn540 0 < 2; decide
    · decide
    · show lbaToZone zn540 5 < 2; decide
    · show lbaToZone zn540 5 < 2; decide
  obtain ⟨r, hrun, hlog⟩ := exists_ok_of_map (f := fun r : ZnsRun => (r.log 0).map (·.range))
    (show ((znsLogged zn540).run (znsRunInit zn540 (fun _ => 0) fun _ => 0) appendResetAppend).map
      (fun r => (r.log 0).map (·.range)) = .ok [⟨0, 2⟩, ⟨2, 1⟩] by decide)
  exact ⟨r, hrun, hlog, (sequential_writes (by decide) hseq hrun).1 0 (by decide)⟩

end WaitGc

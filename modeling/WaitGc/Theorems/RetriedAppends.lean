/-
  WAITGC verification — zone appends that are retried.

  `__zns_write` writes the write pointer of the zone into the submission entry
  before it takes space from the buffer; the dispatcher submits the same entry
  again if there was none.  `retried_appends`: the retries are those of the
  host's command exactly when every failed attempt finds the write pointer
  where the entry points; and the append stays in its zone if every failed
  attempt finds the write pointer inside the zone.
-/
import WaitGc.Proof.ZoneData
import WaitGc.Zns.Device

namespace WaitGc

open Outcome Function

variable {c : ZnsCfg} {s s' : ZnsFtl} {sqid start : ℕ} {rw : RwCommand} {o : ZnsOutcome}

/-! ## The machine -/

/-- A queue whose next entry is a zone append, and what its handler returned at last. -/
structure Retry where
  ftl : ZnsFtl
  entry : RwCommand
  ret : Option ZnsResult

/-- The entry is submitted, or something else happens to the namespace. -/
inductive RetryEvent where
  | attempt (nsecsStart : BitVec 64)
  | other (e : ZnsEvent)

/-- The entry, with the `slba` a handler left there. -/
def RwCommand.setSlba (rw : RwCommand) (slba : ℕ) : RwCommand := { rw with slba := .ofNat 64 slba }

/-- `nvmev_proc_io_sq` submits the entry until its handler returns `true`. -/
def retryMachine (c : ZnsCfg) (sqid : ℕ) : Machine Retry RetryEvent ZnsFault where
  step r
    | .attempt start =>
      if r.ret = none then
        (znsProcNvmeIoCmd c r.ftl ⟨.append r.entry, sqid, start⟩).map fun o =>
          ⟨o.ftl, r.entry.setSlba o.slba, o.ret⟩
      else .ok r
    | .other e => ((znsMachine c).step r.ftl e).map fun s => { r with ftl := s }

/-- The host places the command. -/
def retryInit (s : ZnsFtl) (rw : RwCommand) : Retry := ⟨s, rw, none⟩

/-- An attempt handles the host's command `rw`: if it fails the entry is as it was, and
    if it completes it does what an attempt of `rw` would do. -/
def RetryEvent.Faithful (c : ZnsCfg) (sqid : ℕ) (rw : RwCommand) (r : Retry) : RetryEvent → Prop
  | .attempt start => r.ret = none →
    ∀ o, znsProcNvmeIoCmd c r.ftl ⟨.append r.entry, sqid, start⟩ = .ok o →
      (o.ret = none → r.entry.setSlba o.slba = r.entry) ∧
      (o.ret ≠ none → znsProcNvmeIoCmd c r.ftl ⟨.append rw, sqid, start⟩ = .ok o)
  | .other _ => True

/-- An attempt completes as an attempt of the host's command would, if the zone has no
    random write area. -/
def RetryEvent.InZone (c : ZnsCfg) (sqid : ℕ) (rw : RwCommand) (r : Retry) : RetryEvent → Prop
  | .attempt start => r.ret = none → (r.ftl.zoneDescs (lbaToZone c rw.slba.toNat)).zrwav = false →
    ∀ o, znsProcNvmeIoCmd c r.ftl ⟨.append r.entry, sqid, start⟩ = .ok o → o.ret ≠ none →
      znsProcNvmeIoCmd c r.ftl ⟨.append rw, sqid, start⟩ = .ok o
  | .other _ => True

/-- An attempt that finds too little buffer space finds a zone `P`. -/
def RetryEvent.Short (c : ZnsCfg) (P : RwCommand → ZoneDescriptor → Prop) (r : Retry) :
    RetryEvent → Prop
  | .attempt _ =>
    let zid := lbaToZone c r.entry.slba.toNat
    r.ret = none → (r.ftl.zoneDescs zid).zrwav = false →
      (r.ftl.buffers (zoneBuffer c zid)).remaining < lbaToByte r.entry.nrLba →
      P r.entry (r.ftl.zoneDescs zid)
  | .other _ => True

/-- The write pointer is at the entry's `slba`. -/
def AtEntry (rw : RwCommand) (z : ZoneDescriptor) : Prop := rw.setSlba z.wp = rw

/-- The write pointer is in the zone the entry's `slba` is in. -/
def InEntryZone (c : ZnsCfg) (rw : RwCommand) (z : ZoneDescriptor) : Prop :=
  lbaToZone c (rw.setSlba z.wp).slba.toNat = lbaToZone c rw.slba.toNat

/-! ## One attempt -/

theorem znsWriteSeq_dropped {append : Bool} (h : znsWriteSeq c s sqid start append rw = .ok o) :
    o.ret = none ↔
      (s.buffers (zoneBuffer c (lbaToZone c rw.slba.toNat))).remaining < lbaToByte rw.nrLba := by
  have hbytes := rw.lbaToByte_eq
  have hpos := rw.nrLba_pos
  have hle := rw.nrLba_le
  unfold znsWriteSeq at h
  dsimp only at h
  obtain ⟨⟨allocated, wbuf⟩, halloc, h⟩ := bind_eq_ok h
  dsimp only at h
  rw [show (if c.zp.zoneWbSize ≠ 0 then ZnsBuffer.zone (lbaToZone c rw.slba.toNat) else ZnsBuffer.ssd) =
    zoneBuffer c (lbaToZone c rw.slba.toNat) from rfl] at h halloc
  have hshort := liftZns_bufferAllocate_short (by omega) (by omega) halloc
  by_cases hlt : allocated < lbaToByte rw.nrLba
  · rw [if_pos hlt] at h
    cases h
    exact iff_of_true rfl (hshort.1 hlt)
  · rw [if_neg hlt] at h
    refine iff_of_false ?_ (mt hshort.2 hlt)
    generalize znsWriteAdmit c _ _ _ rw.nrLba = a at h
    by_cases hst : a.1 = .success
    · rw [if_pos hst] at h
      cases h
      exact Option.some_ne_none _
    · rw [if_neg hst] at h
      cases h
      exact Option.some_ne_none _

theorem RwCommand.setSlba_toNat (rw : RwCommand) : rw.setSlba rw.slba.toNat = rw := by
  rw [setSlba, BitVec.ofNat_toNat, BitVec.setWidth_eq]

theorem append_slba {nsecsStart : BitVec 64}
    (h : znsProcNvmeIoCmd c s ⟨.append rw, sqid, nsecsStart⟩ = .ok o) :
    o.slba = entrySlba c s true rw := (znsWrite_report h).slba

/-- A failed attempt found too little buffer space, or a random write area. -/
theorem append_dropped {nsecsStart : BitVec 64}
    (hz : (s.zoneDescs (lbaToZone c rw.slba.toNat)).zrwav = false)
    (h : znsProcNvmeIoCmd c s ⟨.append rw, sqid, nsecsStart⟩ = .ok o) :
    o.ret = none ↔
      (s.buffers (zoneBuffer c (lbaToZone c rw.slba.toNat))).remaining < lbaToByte rw.nrLba := by
  replace h : znsWrite c s sqid nsecsStart.toNat true rw = .ok o := h
  unfold znsWrite at h
  dsimp only at h
  rw [lpnToZone_lbaToLpn, if_pos hz] at h
  exact znsWriteSeq_dropped h

/-- The entry after an attempt, in a zone that keeps `P` if the attempt is short. -/
theorem append_entry {nsecsStart : BitVec 64} {P : RwCommand → ZoneDescriptor → Prop} {r : Retry}
    (hret : r.ret = none) (hshort : RetryEvent.Short c P r (.attempt nsecsStart))
    (h : znsProcNvmeIoCmd c r.ftl ⟨.append r.entry, sqid, nsecsStart⟩ = .ok o) (hnone : o.ret = none) :
    r.entry.setSlba o.slba = r.entry ∨
      ∃ z, P r.entry z ∧ r.entry.setSlba o.slba = r.entry.setSlba z.wp := by
  rw [append_slba h, entrySlba]
  by_cases hz : (r.ftl.zoneDescs (lbaToZone c r.entry.slba.toNat)).zrwav = false
  · rw [if_pos hz]
    exact .inr ⟨_, hshort hret hz ((append_dropped hz h).1 hnone), rfl⟩
  · rw [if_neg hz]
    exact .inl r.entry.setSlba_toNat

/-- Appends of one size to one zone are the same. -/
structure SameAppend (c : ZnsCfg) (rw rw' : RwCommand) : Prop where
  zone : lbaToZone c rw.slba.toNat = lbaToZone c rw'.slba.toNat
  length : rw.length = rw'.length
  control : rw.control = rw'.control

theorem SameAppend.handled {rw' : RwCommand} {nsecsStart : BitVec 64} (h : SameAppend c rw rw')
    (hz : (s.zoneDescs (lbaToZone c rw'.slba.toNat)).zrwav = false) :
    znsProcNvmeIoCmd c s ⟨.append rw, sqid, nsecsStart⟩ =
      znsProcNvmeIoCmd c s ⟨.append rw', sqid, nsecsStart⟩ := by
  have hnr : rw.nrLba = rw'.nrLba := by unfold RwCommand.nrLba; rw [h.length]
  have hfua : rw.fua = rw'.fua := by unfold RwCommand.fua; rw [h.control]
  show znsWrite c s sqid nsecsStart.toNat true rw = znsWrite c s sqid nsecsStart.toNat true rw'
  unfold znsWrite
  dsimp only
  rw [lpnToZone_lbaToLpn, lpnToZone_lbaToLpn, h.zone, if_pos hz, if_pos hz]
  unfold znsWriteSeq writeResult
  simp only [h.zone, hnr, hfua, if_true]

/-! ## Runs -/

/-- An attempt or another event, and the state after it. -/
theorem retryMachine_step {r r' : Retry} {e : RetryEvent} (h : (retryMachine c sqid).step r e = .ok r') :
    (∃ nsecsStart o, e = .attempt nsecsStart ∧ r.ret = none ∧
      znsProcNvmeIoCmd c r.ftl ⟨.append r.entry, sqid, nsecsStart⟩ = .ok o ∧
      r' = ⟨o.ftl, r.entry.setSlba o.slba, o.ret⟩) ∨
    ((∀ nsecsStart, e = .attempt nsecsStart → r.ret ≠ none) ∧ r'.entry = r.entry ∧ r'.ret = r.ret) := by
  cases e with
  | attempt nsecsStart =>
    simp only [retryMachine] at h
    by_cases hret : r.ret = none
    · rw [if_pos hret] at h
      cases ho : znsProcNvmeIoCmd c r.ftl ⟨.append r.entry, sqid, nsecsStart⟩ with
      | error f => rw [ho] at h; cases h
      | ok o =>
        rw [ho] at h
        cases h
        exact .inl ⟨nsecsStart, o, rfl, hret, ho, rfl⟩
    · rw [if_neg hret] at h
      cases h
      exact .inr ⟨fun _ _ => hret, rfl, rfl⟩
  | other e =>
    simp only [retryMachine] at h
    cases hs : (znsMachine c).step r.ftl e with
    | error f => rw [hs] at h; cases h
    | ok s =>
      rw [hs] at h
      cases h
      exact .inr ⟨fun _ he => (nomatch he), rfl, rfl⟩

/-- **A step keeps what the entry keeps.**  `Q` holds of the entry as long as the command
    is retried. -/
theorem retry_entry {P : RwCommand → ZoneDescriptor → Prop} {Q : RwCommand → Prop}
    (hP : ∀ rw z, Q rw → P rw z → Q (rw.setSlba z.wp)) {r r' : Retry} {e : RetryEvent}
    (hQ : r.ret = none → Q r.entry) (hshort : e.Short c P r)
    (h : (retryMachine c sqid).step r e = .ok r') (hret : r'.ret = none) : Q r'.entry := by
  rcases retryMachine_step h with ⟨nsecsStart, o, rfl, hr, ho, rfl⟩ | ⟨-, hentry, hr⟩
  · show Q (r.entry.setSlba o.slba)
    rcases append_entry hr hshort ho hret with hkeep | ⟨z, hz, hkeep⟩
    · rw [hkeep]; exact hQ hr
    · rw [hkeep]; exact hP _ _ (hQ hr) hz
  · rw [hentry]
    exact hQ (hr.symm.trans hret)

/-- The attempts are those of the host's command if every failed one finds the write
    pointer at the entry, and only then. -/
theorem retry_faithful_iff {es : List RetryEvent} {r : Retry}
    (hrun : (retryMachine c sqid).run (retryInit s rw) es = .ok r) :
    (retryMachine c sqid).Along (fun r e => e.Faithful c sqid rw r) (retryInit s rw) es ↔
      (retryMachine c sqid).Along (fun r e => e.Short c AtEntry r) (retryInit s rw) es := by
  constructor
  · intro h
    refine (h.and (Machine.along_ok hrun)).mono ?_
    rintro r e ⟨hf, r', hstep⟩
    rcases retryMachine_step hstep with ⟨nsecsStart, o, rfl, hr, ho, -⟩ | ⟨hother, -, -⟩
    · intro _ hz hlt
      have hkeep := (hf hr o ho).1 ((append_dropped hz ho).2 hlt)
      rw [append_slba ho, entrySlba, if_pos hz] at hkeep
      exact hkeep
    · cases e with
      | attempt nsecsStart => exact fun hret => absurd hret (hother _ rfl)
      | other e => trivial
  · intro h
    refine h.imp (I := fun r => r.ret = none → r.entry = rw) ?_ ?_ fun _ => rfl
    · intro r e r' hI hshort hstep
      exact retry_entry (fun rw z hQ hP => hP.trans hQ) hI hshort hstep
    · intro r e hI hshort
      cases e with
      | attempt nsecsStart =>
        intro hret o ho
        refine ⟨fun hnone => ?_, fun _ => hI hret ▸ ho⟩
        rcases append_entry hret hshort ho hnone with hkeep | ⟨z, hz, hkeep⟩
        · exact hkeep
        · exact hkeep.trans hz
      | other e => trivial

/-- The append stays in its zone if every failed attempt finds the write pointer there. -/
theorem retry_inZone {es : List RetryEvent}
    (h : (retryMachine c sqid).Along (fun r e => e.Short c (InEntryZone c) r) (retryInit s rw) es) :
    (retryMachine c sqid).Along (fun r e => e.InZone c sqid rw r) (retryInit s rw) es := by
  refine h.imp (I := fun r => r.ret = none → SameAppend c r.entry rw) ?_ ?_ fun _ => ⟨rfl, rfl, rfl⟩
  · intro r e r' hI hshort hstep
    exact retry_entry (Q := fun rw' => SameAppend c rw' rw)
      (fun rw' z hQ hP => ⟨hP.trans hQ.zone, hQ.length, hQ.control⟩) hI hshort hstep
  · intro r e hI hshort
    cases e with
    | attempt nsecsStart =>
      intro hret hz o ho _
      rw [← ho, (hI hret).handled hz]
    | other e => trivial

/-- **Retried appends.** -/
theorem retried_appends {es : List RetryEvent} {r : Retry}
    (hrun : (retryMachine c sqid).run (retryInit s rw) es = .ok r) :
    ((retryMachine c sqid).Along (fun r e => e.Faithful c sqid rw r) (retryInit s rw) es ↔
      (retryMachine c sqid).Along (fun r e => e.Short c AtEntry r) (retryInit s rw) es) ∧
    ((retryMachine c sqid).Along (fun r e => e.Short c (InEntryZone c) r) (retryInit s rw) es →
      (retryMachine c sqid).Along (fun r e => e.InZone c sqid rw r) (retryInit s rw) es) :=
  ⟨retry_faithful_iff hrun, retry_inZone⟩

instance (P : RwCommand → ZoneDescriptor → Prop) [∀ rw z, Decidable (P rw z)] (r : Retry) :
    ∀ e : RetryEvent, Decidable (e.Short c P r)
  | .attempt _ => inferInstanceAs (Decidable (r.ret = none →
      (r.ftl.zoneDescs (lbaToZone c r.entry.slba.toNat)).zrwav = false →
      (r.ftl.buffers (zoneBuffer c (lbaToZone c r.entry.slba.toNat))).remaining <
        lbaToByte r.entry.nrLba → P r.entry (r.ftl.zoneDescs (lbaToZone c r.entry.slba.toNat))))
  | .other _ => .isTrue trivial

deriving instance DecidableEq for RwCommand

instance (rw : RwCommand) (z : ZoneDescriptor) : Decidable (AtEntry rw z) :=
  inferInstanceAs (Decidable (rw.setSlba z.wp = rw))

/-- Two zones of two pages. -/
def twoPageZones : ZnsCfg :=
  { zn540 with
    zp := { zn540.zp with zoneSize := 8192, zoneWbSize := 8192 }
    zoneSize_pos := by decide
    zoneSize_mod := by decide
    zoneSize_lt := by decide }

/-- The host's command: an append of two pages to the first zone. -/
def appendTwoPages : RwCommand := ⟨0, 15, 0⟩

/-- A new namespace, and the command. -/
def twoPageRetry : Retry := retryInit (znsInitFtl twoPageZones (fun _ => 0) fun _ => 0) appendTwoPages

/-- Another queue appends `length + 1` blocks to the first zone. -/
def appendBlocks (length : BitVec 16) : RetryEvent := .other (.command ⟨.append ⟨0, length, 0⟩, 2, 0⟩)

/-- The first zone is filled and reset, and the command waits for the buffer. -/
def fillResetRetry : List RetryEvent :=
  [appendBlocks 15, .other (.command ⟨.mgmtSend ⟨0, ZSA_RESET_ZONE, false, false⟩, 2, 0⟩),
    .attempt 0, .other (.fire 0), .attempt 0]

theorem retried_appends_fillResetRetry :
    ∃ r, (retryMachine twoPageZones 1).run twoPageRetry fillResetRetry = .ok r ∧
      r.ret.map (·.result) = some 0 ∧
      (retryMachine twoPageZones 1).Along (fun r e => e.Faithful twoPageZones 1 appendTwoPages r)
        twoPageRetry fillResetRetry := by
  have hmap : ((retryMachine twoPageZones 1).run twoPageRetry fillResetRetry).map
      (fun r => r.ret.map (·.result)) = .ok (some 0) := by decide +kernel
  obtain ⟨r, hrun, hret⟩ := exists_ok_of_map hmap
  exact ⟨r, hrun, hret, (retried_appends hrun).1.2 (by decide +kernel)⟩

/-- The command waits, and another queue fills the first zone, page by page. -/
def fillRetry : List RetryEvent := [appendBlocks 7, .attempt 0, appendBlocks 7, .attempt 0, .attempt 0]

/-- The command completes in the second zone: it reports block 16, and the write pointer
    of the second zone moves from there. -/
theorem retried_appends_fillRetry :
    lbaToZone twoPageZones appendTwoPages.slba.toNat = 0 ∧
    ∃ r, (retryMachine twoPageZones 1).run twoPageRetry fillRetry = .ok r ∧
      (r.ret.map fun ret => (ret.status, ret.result)) = some (.success, 16) ∧
      lbaToZone twoPageZones 16 = 1 ∧ (r.ftl.zoneDescs 1).wp = 32 ∧
      ¬ (retryMachine twoPageZones 1).Along (fun r e => e.Faithful twoPageZones 1 appendTwoPages r)
        twoPageRetry fillRetry := by
  refine ⟨by decide, ?_⟩
  have hmap : ((retryMachine twoPageZones 1).run twoPageRetry fillRetry).map
      (fun r => (r.ret.map fun ret => (ret.status, ret.result), (r.ftl.zoneDescs 1).wp)) =
        .ok (some (.success, 16), 32) := by decide +kernel
  obtain ⟨r, hrun, hx⟩ := exists_ok_of_map hmap
  rw [Prod.mk.injEq] at hx
  refine ⟨r, hrun, hx.1, by decide, hx.2, fun h => ?_⟩
  have hsteady : ¬ (retryMachine twoPageZones 1).Along (fun r e => e.Short twoPageZones AtEntry r)
      twoPageRetry fillRetry := by decide +kernel
  exact hsteady ((retry_faithful_iff hrun).1 h)

end WaitGc

/-
  WAITGC verification — the zones a command reads and writes.

  `s.splice zones other` is `s` with the zones behind `zones`, and their
  buffers, taken from `other`; the indices of an array have no bound here, so
  that the descriptors behind the array are among them.  A handler stays inside
  `zones` if it commutes with `splice`: what it returns does not depend on the
  other descriptors and buffers, and it leaves them as they are.

  `znsProcNvmeIoCmd_splice`: a command uses the zones of its block, and a
  select-all those that the loop finds.
-/
import Mathlib.Data.Finset.Piecewise
import WaitGc.Proof.ZoneData
import WaitGc.Zns.MgmtRecv

namespace WaitGc

open Outcome Function

variable {c : ZnsCfg} {zones : Finset ℕ} {other : ZnsFtl} {zid : ℕ}

/-! ## Splicing -/

/-- The buffers of some zones: the shared one, and those of each zone. -/
def zoneBuffers (zones : Finset ℕ) : Finset ZnsBuffer :=
  insert .ssd (zones.image .zone ∪ zones.image .zrwa)

/-- `s`, with the zones other than `zones` and their buffers taken from `other`. -/
def ZnsFtl.splice (s : ZnsFtl) (zones : Finset ℕ) (other : ZnsFtl) : ZnsFtl :=
  { s with
    zoneDescs := zones.piecewise s.zoneDescs other.zoneDescs
    buffers := (zoneBuffers zones).piecewise s.buffers other.buffers }

/-- The outcome of a handler, its state spliced. -/
def Spliced (zones : Finset ℕ) (other : ZnsFtl) {α : Type} : α × ZnsFtl → α × ZnsFtl :=
  Prod.map id (·.splice zones other)

theorem spliced_snd {α : Type} (a : α × ZnsFtl) : (Spliced zones other a).2 = a.2.splice zones other := rfl

namespace ZnsFtl

variable (s : ZnsFtl)

theorem splice_zoneDescs (hz : zid ∈ zones) :
    (s.splice zones other).zoneDescs zid = s.zoneDescs zid :=
  Finset.piecewise_eq_of_mem _ _ _ hz

theorem splice_buffers {b : ZnsBuffer} (hb : b ∈ zoneBuffers zones) :
    (s.splice zones other).buffers b = s.buffers b :=
  Finset.piecewise_eq_of_mem _ _ _ hb

theorem splice_timing : (s.splice zones other).timing = s.timing := rfl

theorem splice_pending : (s.splice zones other).pending = s.pending := rfl

theorem splice_clocks (timing : Timing) (pending : List ZnsOp) :
    ({ s.splice zones other with timing, pending } : ZnsFtl) =
      ZnsFtl.splice { s with timing, pending } zones other := rfl

theorem splice_isAvail (type : ZoneResourceType) :
    (s.splice zones other).isZoneResourceAvail type = s.isZoneResourceAvail type := rfl

theorem splice_isFull (type : ZoneResourceType) :
    (s.splice zones other).isZoneResourceFull type = s.isZoneResourceFull type := rfl

theorem splice_setZone (hz : zid ∈ zones) (z : ZoneDescriptor) :
    (s.splice zones other).setZone zid z = (s.setZone zid z).splice zones other := by
  have h : update (zones.piecewise s.zoneDescs other.zoneDescs) zid z =
      zones.piecewise (update s.zoneDescs zid z) other.zoneDescs := by
    rw [Finset.update_piecewise_of_mem _ _ _ hz]
  rw [setZone, splice, h]
  rfl

theorem splice_changeZoneState (hz : zid ∈ zones) (state : ZoneState) :
    (s.splice zones other).changeZoneState zid state = (s.changeZoneState zid state).splice zones other := by
  rw [changeZoneState, splice_zoneDescs s hz, splice_setZone s hz]
  rfl

theorem splice_setBuffer {b : ZnsBuffer} (hb : b ∈ zoneBuffers zones) (buf : Buffer) :
    (s.splice zones other).setBuffer b buf = (s.setBuffer b buf).splice zones other := by
  have h : update ((zoneBuffers zones).piecewise s.buffers other.buffers) b buf =
      (zoneBuffers zones).piecewise (update s.buffers b buf) other.buffers := by
    rw [Finset.update_piecewise_of_mem _ _ _ hb]
  rw [setBuffer, splice, h]
  rfl

theorem splice_release (type : ZoneResourceType) :
    (s.splice zones other).releaseZoneResource type = (s.releaseZoneResource type).splice zones other := rfl

theorem splice_releaseZrwa (zrwa : Bool) :
    (s.splice zones other).releaseZrwa zrwa = (s.releaseZrwa zrwa).splice zones other := by
  cases zrwa <;> rfl

theorem splice_acquire (type : ZoneResourceType) :
    (s.splice zones other).acquireZoneResource type = Spliced zones other (s.acquireZoneResource type) := by
  unfold acquireZoneResource
  rw [splice_isAvail]
  split_ifs <;> rfl

end ZnsFtl

open ZnsFtl

/-! ## Zone management -/

theorem closeZone_splice (s : ZnsFtl) (hz : zid ∈ zones) :
    zmgmtSendCloseZone (s.splice zones other) zid = Spliced zones other (zmgmtSendCloseZone s zid) := by
  unfold zmgmtSendCloseZone
  rw [splice_zoneDescs s hz, splice_changeZoneState s hz]
  cases (s.zoneDescs zid).state <;> rfl

theorem finishZone_splice (s : ZnsFtl) (hz : zid ∈ zones) :
    zmgmtSendFinishZone (s.splice zones other) zid = Spliced zones other (zmgmtSendFinishZone s zid) := by
  unfold zmgmtSendFinishZone
  rw [splice_zoneDescs s hz, splice_changeZoneState s hz]
  simp only [splice_release, splice_releaseZrwa, splice_changeZoneState _ hz]
  cases (s.zoneDescs zid).state <;> rfl

theorem openClosedZone_splice (s : ZnsFtl) (hz : zid ∈ zones) :
    openClosedZone (s.splice zones other) zid = Spliced zones other (openClosedZone s zid) := by
  unfold openClosedZone
  rw [splice_acquire]
  obtain ⟨ok, s₁⟩ := s.acquireZoneResource .openZone
  cases ok with
  | false => rfl
  | true => exact congrArg (Prod.mk _) (splice_changeZoneState s₁ hz _)

theorem openZone_splice (s : ZnsFtl) (hz : zid ∈ zones) (zrwa : Bool) :
    zmgmtSendOpenZone (s.splice zones other) zid zrwa =
      Spliced zones other (zmgmtSendOpenZone s zid zrwa) := by
  have hempty (s : ZnsFtl) : openClosedZone ((s.splice zones other).acquireZoneResource .activeZone).2 zid =
      Spliced zones other (openClosedZone (s.acquireZoneResource .activeZone).2 zid) := by
    rw [splice_acquire]
    exact openClosedZone_splice _ hz
  have harea (s : ZnsFtl) : (s.splice zones other).setZone zid
        { (s.splice zones other).zoneDescs zid with zrwav := true } =
      (s.setZone zid { s.zoneDescs zid with zrwav := true }).splice zones other := by
    rw [splice_zoneDescs s hz, splice_setZone s hz]
  unfold zmgmtSendOpenZone
  rw [splice_zoneDescs s hz, splice_changeZoneState s hz]
  cases (s.zoneDescs zid).state with
  | empty =>
    dsimp only
    rw [splice_isFull, splice_isFull, splice_isFull, hempty, splice_acquire, spliced_snd, harea, hempty]
    split_ifs <;> rfl
  | closed => exact openClosedZone_splice s hz
  | _ => rfl

theorem zone_mem_zoneBuffers (hz : zid ∈ zones) : ZnsBuffer.zone zid ∈ zoneBuffers zones := by
  simp [zoneBuffers, hz]

theorem zrwa_mem_zoneBuffers (hz : zid ∈ zones) : ZnsBuffer.zrwa zid ∈ zoneBuffers zones := by
  simp [zoneBuffers, hz]

theorem resetZone_splice (s : ZnsFtl) (hz : zid ∈ zones) :
    resetZone c (s.splice zones other) zid = (resetZone c s zid).splice zones other := by
  unfold resetZone
  dsimp only
  rw [splice_zoneDescs s hz]
  generalize { s.zoneDescs zid with wp := (s.zoneDescs zid).zslba, zrwav := false } = z
  have hset : ZnsFtl.setZone { s.splice zones other with
        storage := memset (s.splice zones other).storage (u64 (zid * c.zp.zoneSize)) c.zp.zoneSize 0 } zid z =
      (ZnsFtl.setZone { s with storage := memset s.storage (u64 (zid * c.zp.zoneSize)) c.zp.zoneSize 0 }
        zid z).splice zones other :=
    splice_setZone { s with storage := memset s.storage (u64 (zid * c.zp.zoneSize)) c.zp.zoneSize 0 } hz z
  rw [hset, splice_buffers _ (zrwa_mem_zoneBuffers hz), splice_setBuffer _ (zrwa_mem_zoneBuffers hz)]
  split_ifs <;> rfl

theorem resetZoneSend_splice (s : ZnsFtl) (hz : zid ∈ zones) :
    zmgmtSendResetZone c (s.splice zones other) zid = Spliced zones other (zmgmtSendResetZone c s zid) := by
  unfold zmgmtSendResetZone
  rw [splice_zoneDescs s hz]
  simp only [splice_release, splice_releaseZrwa, splice_changeZoneState _ hz, resetZone_splice _ hz]
  cases (s.zoneDescs zid).state <;> rfl

theorem offlineZone_splice (s : ZnsFtl) (hz : zid ∈ zones) :
    zmgmtSendOfflineZone (s.splice zones other) zid = Spliced zones other (zmgmtSendOfflineZone s zid) := by
  unfold zmgmtSendOfflineZone
  rw [splice_zoneDescs s hz, splice_changeZoneState s hz]
  cases (s.zoneDescs zid).state <;> rfl

theorem flushFull_splice (s : ZnsFtl) (hz : zid ∈ zones) (state : ZoneState) :
    flushFull (s.splice zones other) zid state = (flushFull s zid state).splice zones other := by
  unfold flushFull
  dsimp only
  split_ifs
  · rw [splice_release, splice_release, splice_release, splice_changeZoneState _ hz]
  · rw [splice_release, splice_release, splice_changeZoneState _ hz]

theorem flushExplicitZrwa_splice (s : ZnsFtl) {slba : ℕ} (hz : lbaToZone c slba ∈ zones) :
    zmgmtSendFlushExplicitZrwa c (s.splice zones other) slba =
      (zmgmtSendFlushExplicitZrwa c s slba).map (Spliced zones other) := by
  unfold zmgmtSendFlushExplicitZrwa
  dsimp only
  rw [splice_zoneDescs s hz]
  generalize lbaToZone c slba = zid at hz ⊢
  generalize min (_ : ℕ) (_ : ℕ) = zrwaEnd
  by_cases hw : (s.zoneDescs zid).zrwav = false
  · rw [if_pos hw, if_pos hw]; rfl
  rw [if_neg hw, if_neg hw]
  by_cases hin : ¬ ((s.zoneDescs zid).wp ≤ slba ∧ slba ≤ zrwaEnd)
  · rw [if_pos hin, if_pos hin]; rfl
  rw [if_neg hin, if_neg hin]
  by_cases hfg : c.zp.lbasPerZrwafg ≠ 0
  · rw [require_pos hfg, ok_bind, ok_bind]
    by_cases hmod : u64 (sub64 slba (s.zoneDescs zid).wp + 1) % c.zp.lbasPerZrwafg ≠ 0
    · rw [if_pos hmod, if_pos hmod]; rfl
    rw [if_neg hmod, if_neg hmod, splice_setZone s hz]
    cases (s.zoneDescs zid).state with
    | openedExpl | openedImpl | closed =>
      dsimp only
      rw [flushFull_splice _ hz]
      split_ifs <;> rfl
    | _ => rfl
  · rw [require_neg hfg]; rfl

/-- **An action uses its zone** alone. -/
theorem zmgmtSend_splice (s : ZnsFtl) {slba : ℕ} (hz : lbaToZone c slba ∈ zones) (action : BitVec 8)
    (option : Bool) : zmgmtSend c (s.splice zones other) slba action option =
      (zmgmtSend c s slba action option).map (Spliced zones other) := by
  unfold zmgmtSend
  dsimp only
  rw [closeZone_splice s hz, finishZone_splice s hz, openZone_splice s hz, resetZoneSend_splice s hz,
    offlineZone_splice s hz, flushExplicitZrwa_splice s hz]
  split_ifs <;> rfl

/-- The loop over all zones uses those it finds. -/
theorem zmgmtSendAll_splice (s : ZnsFtl) (hz : ∀ i < c.zp.nrZones, lbaToZone c (zoneToSlba c i) ∈ zones)
    (action : BitVec 8) (option : Bool) :
    zmgmtSendAll c (s.splice zones other) action option =
      (zmgmtSendAll c s action option).map (·.splice zones other) := by
  unfold zmgmtSendAll
  have hl : ∀ i ∈ List.range c.zp.nrZones, lbaToZone c (zoneToSlba c i) ∈ zones :=
    fun i hi => hz i (List.mem_range.1 hi)
  generalize List.range c.zp.nrZones = l at hl ⊢
  induction l generalizing s with
  | nil => rfl
  | cons i l ih =>
    rw [List.foldlM_cons, List.foldlM_cons, zmgmtSend_splice s (hl i (by simp))]
    cases zmgmtSend c s (zoneToSlba c i) action option with
    | error e => rfl
    | ok r => exact ih r.2 fun j hj => hl j (by simp [hj])

/-! ## Writes -/

theorem increaseWritePtr_splice (s : ZnsFtl) (hz : zid ∈ zones) (nrLba : ℕ) :
    increaseWritePtr c (s.splice zones other) zid nrLba =
      (increaseWritePtr c s zid nrLba).splice zones other := by
  have hfill (s : ZnsFtl) : (s.splice zones other).fill zid = (s.fill zid).splice zones other := by
    rw [fill, splice_release, splice_release, splice_changeZoneState _ hz]
    rfl
  unfold increaseWritePtr
  dsimp only
  rw [splice_zoneDescs s hz, splice_setZone s hz, hfill]
  split_ifs <;> rfl

theorem znsWriteAdmit_splice (s : ZnsFtl) (hz : zid ∈ zones) (slba nrLba : ℕ) :
    znsWriteAdmit c (s.splice zones other) zid slba nrLba =
      Spliced zones other (znsWriteAdmit c s zid slba nrLba) := by
  have hopen (s : ZnsFtl) : znsWriteAdmit.openImpl (s.splice zones other) zid =
      Spliced zones other (znsWriteAdmit.openImpl s zid) := by
    unfold znsWriteAdmit.openImpl
    rw [splice_acquire]
    obtain ⟨ok, s₁⟩ := s.acquireZoneResource .openZone
    cases ok with
    | false => rfl
    | true => exact congrArg (Prod.mk _) (splice_changeZoneState s₁ hz _)
  unfold znsWriteAdmit
  dsimp only
  rw [splice_zoneDescs s hz, splice_isFull, splice_isFull, splice_acquire, spliced_snd,
    hopen, hopen]
  cases (s.zoneDescs zid).state <;> split_ifs <;> rfl

theorem znsWriteTiming_splice (s : ZnsFtl) (sqid start zid slba nrLba : ℕ) (buf : ZnsBuffer) :
    znsWriteTiming c (s.splice zones other) sqid start zid slba nrLba buf =
      znsWriteTiming c s sqid start zid slba nrLba buf := by
  unfold znsWriteTiming
  rw [splice_timing, splice_pending]

theorem zoneWriteBuffer_mem (c : ZnsCfg) (hz : zid ∈ zones) :
    (if c.zp.zoneWbSize ≠ 0 then ZnsBuffer.zone zid else .ssd) ∈ zoneBuffers zones := by
  split_ifs
  · exact zone_mem_zoneBuffers hz
  · exact Finset.mem_insert_self _ _

/-- The outcome of a command, its state spliced. -/
def ZnsOutcome.splice (o : ZnsOutcome) (zones : Finset ℕ) (other : ZnsFtl) : ZnsOutcome :=
  { o with ftl := o.ftl.splice zones other }

theorem znsWriteSeq_splice (s : ZnsFtl) (sqid start : ℕ) (append : Bool) (rw : RwCommand)
    (hz : lbaToZone c rw.slba.toNat ∈ zones) :
    znsWriteSeq c (s.splice zones other) sqid start append rw =
      (znsWriteSeq c s sqid start append rw).map (·.splice zones other) := by
  unfold znsWriteSeq
  dsimp only
  rw [splice_zoneDescs s hz, splice_buffers s (zoneWriteBuffer_mem c hz)]
  have hbuf := zoneWriteBuffer_mem c hz
  generalize (if c.zp.zoneWbSize ≠ 0 then ZnsBuffer.zone (lbaToZone c rw.slba.toNat) else .ssd) = buf
    at hbuf ⊢
  generalize (if append = true then (s.zoneDescs (lbaToZone c rw.slba.toNat)).wp else rw.slba.toNat) = slba
  generalize lbaToZone c rw.slba.toNat = zid at hz ⊢
  cases liftZns (bufferAllocate (s.buffers buf) (lbaToByte rw.nrLba)) with
  | error f => rfl
  | ok a =>
    simp only [ok_bind]
    rw [splice_setBuffer s hbuf, znsWriteAdmit_splice _ hz]
    by_cases hshort : a.1 < lbaToByte rw.nrLba
    · rw [if_pos hshort, if_pos hshort]; rfl
    rw [if_neg hshort, if_neg hshort]
    obtain ⟨status, s₁⟩ := znsWriteAdmit c (s.setBuffer buf a.2) zid slba rw.nrLba
    change (if status = .success then _ else _) = Except.map _ (if status = .success then _ else _)
    by_cases hst : status = .success
    · rw [if_pos hst, if_pos hst, spliced_snd, increaseWritePtr_splice _ hz, znsWriteTiming_splice]
      generalize increaseWritePtr c (status, s₁).2 zid rw.nrLba = s₂
      generalize znsWriteTiming c s₂ sqid start zid slba rw.nrLba buf = j
      rw [splice_clocks]
      rfl
    · rw [if_neg hst, if_neg hst]; rfl

theorem zrwaAllocate_splice (s : ZnsFtl) (hz : zid ∈ zones) (size : ℕ) :
    zrwaAllocate c (s.splice zones other) zid size =
      (zrwaAllocate c s zid size).map (Spliced zones other) := by
  unfold zrwaAllocate
  rw [splice_buffers s (zrwa_mem_zoneBuffers hz)]
  by_cases hsize : c.zp.zrwaBufferSize ≠ 0
  · rw [require_pos hsize, ok_bind, ok_bind]
    cases liftZns (bufferAllocate (s.buffers (.zrwa zid)) size) with
    | error f => rfl
    | ok a => exact congrArg (fun s => Except.ok (a.1, s)) (splice_setBuffer s (zrwa_mem_zoneBuffers hz) a.2)
  · rw [require_neg hsize]; rfl

theorem zrwaAdmit_splice (s : ZnsFtl) (hz : zid ∈ zones) (slba nrLba : ℕ) :
    zrwaAdmit c (s.splice zones other) zid slba nrLba =
      (zrwaAdmit c s zid slba nrLba).map (Spliced zones other) := by
  unfold zrwaAdmit
  dsimp only
  rw [splice_zoneDescs s hz, splice_acquire]
  by_cases halign : lbaToByte nrLba % c.writeUnitSize ≠ 0
  · rw [if_pos halign, if_pos halign]; rfl
  rw [if_neg halign, if_neg halign]
  by_cases hbound : checkBoundaryError c slba nrLba = false
  · rw [if_pos hbound, if_pos hbound]; rfl
  rw [if_neg hbound, if_neg hbound]
  by_cases hrange : slba < (s.zoneDescs zid).wp ∨
      zrwaImplEnd c (s.zoneDescs zid).wp < sub64 (u64 (slba + nrLba)) 1
  · rw [if_pos hrange, if_pos hrange]; rfl
  rw [if_neg hrange, if_neg hrange]
  cases (s.zoneDescs zid).state with
  | closed | empty =>
    obtain ⟨ok, s₁⟩ := s.acquireZoneResource .openZone
    cases ok with
    | false => rfl
    | true =>
      dsimp only [Spliced, Prod.map, id]
      rw [zrwaAllocate_splice s₁ hz]
      cases zrwaAllocate c s₁ zid c.zp.zrwaSize with
      | error f => rfl
      | ok a =>
        by_cases hsome : a.1 ≠ 0
        · have hstate : (a.2.splice zones other).changeZoneState zid .openedImpl =
              (a.2.changeZoneState zid .openedImpl).splice zones other := splice_changeZoneState a.2 hz .openedImpl
          simp only [Except.map, ok_bind, Spliced, Prod.map, id, require_pos hsome, hstate]
          rfl
        · simp only [Except.map, ok_bind, Spliced, Prod.map, id, require_neg hsome, error_bind]
  | _ => rfl

theorem znsWriteZrwa_splice (s : ZnsFtl) (sqid start : ℕ) (rw : RwCommand)
    (hz : lbaToZone c rw.slba.toNat ∈ zones) :
    znsWriteZrwa c (s.splice zones other) sqid start rw =
      (znsWriteZrwa c s sqid start rw).map (·.splice zones other) := by
  unfold znsWriteZrwa
  dsimp only
  rw [splice_zoneDescs s hz, zrwaAdmit_splice s hz]
  generalize (s.zoneDescs (lbaToZone c rw.slba.toNat)).wp = wp
  generalize sub64 (u64 (rw.slba.toNat + rw.nrLba)) 1 = elba
  generalize lbaToZone c rw.slba.toNat = zid at hz ⊢
  cases zrwaAdmit c s zid rw.slba.toNat rw.nrLba with
  | error f => rfl
  | ok a =>
    obtain ⟨status, s₁⟩ := a
    simp only [Except.map, ok_bind, Spliced, Prod.map, id]
    by_cases hst : status = .success
    · rw [if_pos hst, if_pos hst]
      cases nrLbasFlush c zid wp elba with
      | error f => rfl
      | ok flush =>
        simp only [ok_bind]
        by_cases hflush : 0 < flush
        · rw [if_pos hflush, if_pos hflush, zrwaAllocate_splice s₁ hz]
          cases zrwaAllocate c s₁ zid (lbaToByte flush) with
          | error f => rfl
          | ok b =>
            simp only [Except.map, ok_bind, Spliced, Prod.map, id, if_pos hflush,
              increaseWritePtr_splice b.2 hz]
            split_ifs <;> rfl
        · simp only [if_neg hflush]
          rfl
    · rw [if_neg hst, if_neg hst]; rfl

theorem znsWrite_splice (s : ZnsFtl) (sqid start : ℕ) (append : Bool) (rw : RwCommand)
    (hz : lbaToZone c rw.slba.toNat ∈ zones) :
    znsWrite c (s.splice zones other) sqid start append rw =
      (znsWrite c s sqid start append rw).map (·.splice zones other) := by
  unfold znsWrite
  dsimp only
  rw [lpnToZone_lbaToLpn, splice_zoneDescs s hz, znsWriteSeq_splice s _ _ _ _ hz,
    znsWriteZrwa_splice s _ _ _ hz]
  split_ifs <;> rfl

/-! ## Commands -/

theorem znsRead_splice (s : ZnsFtl) (start : ℕ) (rw : RwCommand) (hz : lbaToZone c rw.slba.toNat ∈ zones) :
    znsRead c (s.splice zones other) start rw = Spliced zones other (znsRead c s start rw) := by
  unfold znsRead
  dsimp only
  rw [lpnToZone_lbaToLpn, splice_zoneDescs s hz, splice_timing]
  generalize readFlashPages _ _ _ _ _ _ = nand
  generalize ssdAdvancePcie _ _ _ = pcie
  exact congrArg (Prod.mk _) (splice_clocks s pcie.2 s.pending)

/-- The zone numbers a command looks up are in `zones`. -/
def ZnsCommand.Within (c : ZnsCfg) (zones : Finset ℕ) : ZnsCommand → Prop
  | .write rw | .append rw | .read rw => lbaToZone c rw.slba.toNat ∈ zones
  | .mgmtSend cmd => ∀ zid, cmd.For c zid → zid ∈ zones
  | .flush | .other _ => True

theorem znsZmgmtSend_splice (s : ZnsFtl) {cmd : ZmgmtSendCommand} (hz : ∀ zid, cmd.For c zid → zid ∈ zones) :
    znsZmgmtSend c (s.splice zones other) cmd = (znsZmgmtSend c s cmd).map (Spliced zones other) := by
  unfold ZmgmtSendCommand.For at hz
  unfold znsZmgmtSend
  split_ifs at hz ⊢ with hall
  · rw [zmgmtSendAll_splice s fun i hi => hz _ ⟨i, hi, rfl⟩]
    cases zmgmtSendAll c s cmd.zsa cmd.zsaso <;> rfl
  · exact zmgmtSend_splice s (hz _ rfl) _ _

/-- **A command uses the zones it looks up** alone, and what it returns depends on no other. -/
theorem znsProcNvmeIoCmd_splice (s : ZnsFtl) {req : ZnsRequest} (hz : req.cmd.Within c zones) :
    znsProcNvmeIoCmd c (s.splice zones other) req =
      (znsProcNvmeIoCmd c s req).map (·.splice zones other) := by
  obtain ⟨cmd, sqId, nsecsStart⟩ := req
  cases cmd with
  | write rw | append rw => exact znsWrite_splice s _ _ _ rw hz
  | read rw =>
    have hread : znsRead c (s.splice zones other) nsecsStart.toNat rw =
        Spliced zones other (znsRead c s nsecsStart.toNat rw) := znsRead_splice s nsecsStart.toNat rw hz
    exact congrArg (fun r : ZnsResult × ZnsFtl => Except.ok (ZnsOutcome.mk (some r.1) rw.slba.toNat r.2)) hread
  | mgmtSend cmd =>
    unfold znsProcNvmeIoCmd
    dsimp only
    rw [znsZmgmtSend_splice s hz]
    cases znsZmgmtSend c s cmd <;> rfl
  | flush => rfl
  | other opcode => rfl

/-- **A report reads the zones it lists.** -/
theorem znsZmgmtRecv_splice (s : ZnsFtl) (report : ℕ → ℕ) (host : HostData) (cmd : ZmgmtRecvCommand)
    (hz : checkZmgmtRcvOptionSupported c cmd = true →
      ∀ i < nrZoneToReport c cmd, lbaToZone c cmd.slba.toNat + i ∈ zones) :
    znsZmgmtRecv c (s.splice zones other) report host cmd = znsZmgmtRecv c s report host cmd := by
  unfold znsZmgmtRecv
  by_cases hsup : checkZmgmtRcvOptionSupported c cmd = true
  · have hfill : fillZoneReport c (s.splice zones other) cmd report = fillZoneReport c s cmd report := by
      funext j
      unfold fillZoneReport
      split_ifs with h8 hin
      · rfl
      · rw [splice_zoneDescs s (hz hsup _ (Nat.div_lt_of_lt_mul hin.2))]
      · rfl
    rw [if_pos hsup, if_pos hsup, hfill]
  · rw [if_neg hsup, if_neg hsup]

end WaitGc

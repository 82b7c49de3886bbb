/-
  WAITGC verification — which writes a zoned namespace refuses, and which
  commands change its storage.

  `znsWrite_refused`: a write completes with an error exactly when one of the
  checks of its path fails (`WriteRefused`), in any state.  No write handler
  touches the storage; a reset clears its zone.
-/
import WaitGc.Proof.ZoneStore
import WaitGc.Proof.ZoneWrites
import WaitGc.Zns.Serve

namespace WaitGc

open Outcome Function

variable {c : ZnsCfg} {s s' : ZnsFtl} {zid slba nrLba : ℕ} {append : Bool} {rw : RwCommand}
  {sqid start : ℕ} {o : ZnsOutcome}

/-! ## Refusals -/

/-- A zone that is not open cannot be opened, or its state forbids writes. -/
def OpenRefused (s : ZnsFtl) (z : ZoneDescriptor) : Prop :=
  match z.state with
  | .empty | .closed => s.isZoneResourceAvail .openZone = false
  | .openedImpl | .openedExpl => False
  | .full | .readOnly | .offline => True

/-- The checks of `__zns_write` that can fail. -/
def SeqRefused (c : ZnsCfg) (s : ZnsFtl) (zid slba nrLba : ℕ) : Prop :=
  lbaToByte nrLba % c.writeUnitSize ≠ 0 ∨ checkBoundaryError c slba nrLba = false ∨
    slba ≠ (s.zoneDescs zid).wp ∨
    ((s.zoneDescs zid).state = .empty ∧
      (slba ≠ (s.zoneDescs zid).zslba ∨ s.isZoneResourceFull .activeZone = true)) ∨
    OpenRefused s (s.zoneDescs zid)

/-- The checks of `__zns_write_zrwa` that can fail. -/
def ZrwaRefused (c : ZnsCfg) (s : ZnsFtl) (zid slba nrLba : ℕ) : Prop :=
  lbaToByte nrLba % c.writeUnitSize ≠ 0 ∨ checkBoundaryError c slba nrLba = false ∨
    slba < (s.zoneDescs zid).wp ∨ zrwaImplEnd c (s.zoneDescs zid).wp < sub64 (u64 (slba + nrLba)) 1 ∨
    OpenRefused s (s.zoneDescs zid)

/-- The buffer a write takes its space from. -/
def zoneBuffer (c : ZnsCfg) (zid : ℕ) : ZnsBuffer := if c.zp.zoneWbSize ≠ 0 then .zone zid else .ssd

/-- A write is refused: it finds buffer space, and a check fails. -/
def WriteRefused (c : ZnsCfg) (s : ZnsFtl) (append : Bool) (rw : RwCommand) : Prop :=
  let zid := lbaToZone c rw.slba.toNat
  if (s.zoneDescs zid).zrwav = false then
    lbaToByte rw.nrLba ≤ (s.buffers (zoneBuffer c zid)).remaining ∧
      SeqRefused c s zid (writeSlba c s append rw) rw.nrLba
  else ZrwaRefused c s zid rw.slba.toNat rw.nrLba

theorem not_avail_of_full {type : ZoneResourceType} (h : s.isZoneResourceFull type = true) :
    s.isZoneResourceAvail type = false := by
  simp only [ZnsFtl.isZoneResourceFull, decide_eq_true_eq] at h
  simp [ZnsFtl.isZoneResourceAvail, h]

theorem acquire_fst (s : ZnsFtl) (type : ZoneResourceType) :
    (s.acquireZoneResource type).1 = s.isZoneResourceAvail type := by
  unfold ZnsFtl.acquireZoneResource
  split_ifs with h
  · exact h.symm
  · exact (Bool.eq_false_iff.2 h).symm

theorem acquire_active_avail (s : ZnsFtl) :
    (s.acquireZoneResource .activeZone).2.isZoneResourceAvail .openZone =
      s.isZoneResourceAvail .openZone := by
  unfold ZnsFtl.acquireZoneResource
  split_ifs
  · rfl
  · rfl

theorem openImpl_refused (s : ZnsFtl) (zid : ℕ) :
    (znsWriteAdmit.openImpl s zid).1 ≠ .success ↔ s.isZoneResourceAvail .openZone = false := by
  unfold znsWriteAdmit.openImpl ZnsFtl.acquireZoneResource
  split_ifs with h
  · simp [h]
  · simpa using h

/-- **`__zns_write` refuses** exactly when one of its checks fails. -/
theorem znsWriteAdmit_refused (s : ZnsFtl) (zid slba nrLba : ℕ) :
    (znsWriteAdmit c s zid slba nrLba).1 ≠ .success ↔ SeqRefused c s zid slba nrLba := by
  unfold znsWriteAdmit SeqRefused OpenRefused
  dsimp only
  by_cases halign : lbaToByte nrLba % c.writeUnitSize ≠ 0
  · rw [if_pos halign]
    exact ⟨fun _ => .inl halign, fun _ => by simp⟩
  rw [if_neg halign]
  by_cases hbound : checkBoundaryError c slba nrLba = false
  · rw [if_pos hbound]
    exact ⟨fun _ => .inr (.inl hbound), fun _ => by simp⟩
  rw [if_neg hbound]
  by_cases hwp : slba ≠ (s.zoneDescs zid).wp
  · rw [if_pos hwp]
    exact ⟨fun _ => .inr (.inr (.inl hwp)), fun _ => by simp⟩
  rw [if_neg hwp]
  rw [or_iff_right halign, or_iff_right hbound, or_iff_right hwp]
  cases hz : (s.zoneDescs zid).state with
  | empty =>
    simp only [true_and]
    by_cases hstart : slba ≠ (s.zoneDescs zid).zslba
    · rw [if_pos hstart]
      exact ⟨fun _ => .inl (.inl hstart), fun _ => by simp⟩
    rw [if_neg hstart]
    by_cases hna : s.isZoneResourceFull .activeZone = true
    · rw [if_pos hna]
      exact ⟨fun _ => .inl (.inr hna), fun _ => by simp⟩
    rw [if_neg hna]
    by_cases hno : s.isZoneResourceFull .openZone = true
    · rw [if_pos hno]
      exact ⟨fun _ => .inr (not_avail_of_full hno), fun _ => by simp⟩
    rw [if_neg hno, openImpl_refused, acquire_active_avail]
    exact ⟨.inr, fun h => h.resolve_left fun h => h.elim hstart hna⟩
  | closed => simp [openImpl_refused]
  | _ => simp

/-- **`__zns_write_zrwa` refuses** exactly when one of its checks fails. -/
theorem zrwaAdmit_refused {a : ZnsStatus × ZnsFtl} (h : zrwaAdmit c s zid slba nrLba = .ok a) :
    a.1 ≠ .success ↔ ZrwaRefused c s zid slba nrLba := by
  unfold zrwaAdmit at h
  unfold ZrwaRefused OpenRefused
  dsimp only at h
  by_cases halign : lbaToByte nrLba % c.writeUnitSize ≠ 0
  · rw [if_pos halign] at h; cases h
    exact ⟨fun _ => .inl halign, fun _ => by simp⟩
  rw [if_neg halign] at h
  by_cases hbound : checkBoundaryError c slba nrLba = false
  · rw [if_pos hbound] at h; cases h
    exact ⟨fun _ => .inr (.inl hbound), fun _ => by simp⟩
  rw [if_neg hbound] at h
  by_cases hrange : slba < (s.zoneDescs zid).wp ∨
      zrwaImplEnd c (s.zoneDescs zid).wp < sub64 (u64 (slba + nrLba)) 1
  · rw [if_pos hrange] at h; cases h
    exact ⟨fun _ => .inr (.inr (hrange.imp_right .inl)), fun _ => by simp⟩
  rw [if_neg hrange] at h
  rw [not_or] at hrange
  rw [or_iff_right halign, or_iff_right hbound, or_iff_right hrange.1, or_iff_right hrange.2]
  cases hz : (s.zoneDescs zid).state with
  | empty | closed =>
    rw [hz] at h
    dsimp only at h ⊢
    have hfst := acquire_fst s .openZone
    generalize s.acquireZoneResource .openZone = r at h hfst
    obtain ⟨ok, s₁⟩ := r
    cases ok with
    | false =>
      cases h
      exact ⟨fun _ => hfst.symm, fun _ => by simp⟩
    | true =>
      obtain ⟨⟨allocated, s₂⟩, -, h⟩ := bind_eq_ok h
      obtain ⟨-, -, h⟩ := bind_eq_ok h
      cases h
      exact ⟨fun h => absurd rfl h, fun h => by rw [← hfst] at h; cases h⟩
  | _ => rw [hz] at h; cases h; simp

/-! ## What a write leaves stored -/

theorem increaseWritePtr_store (s : ZnsFtl) (zid nrLba : ℕ) :
    (increaseWritePtr c s zid nrLba).storage = s.storage := by
  unfold increaseWritePtr
  dsimp only
  split_ifs
  · rfl
  · rfl
  · rfl

theorem zrwaAllocate_store {size : ℕ} {a : ℕ × ZnsFtl} (h : zrwaAllocate c s zid size = .ok a) :
    a.2.storage = s.storage := by
  unfold zrwaAllocate at h
  obtain ⟨-, -, h⟩ := bind_eq_ok h
  obtain ⟨⟨allocated, buf⟩, -, h⟩ := bind_eq_ok h
  cases h
  rfl

theorem zrwaAdmit_store {a : ZnsStatus × ZnsFtl} (h : zrwaAdmit c s zid slba nrLba = .ok a) :
    a.2.storage = s.storage := by
  rcases zrwaAdmit_step h with ⟨-, hs⟩ | ⟨-, rfl⟩ | ⟨b, -, halloc, -, rfl⟩
  · rw [hs]
  · rfl
  · exact (zrwaAllocate_store halloc).trans (SameStore.acquire s .openZone).storage

/-- What a handler of a write reports: the status, the `slba` of the entry, and that
    nothing is stored. -/
structure WriteReport (s : ZnsFtl) (slba : ℕ) (refused : Prop) (o : ZnsOutcome) : Prop where
  storage : o.ftl.storage = s.storage
  slba : o.slba = slba
  status : (∃ ret, o.ret = some ret ∧ ret.status ≠ .success) ↔ refused

theorem WriteReport.dropped {refused : Prop} (hstore : s'.storage = s.storage) (h : ¬ refused) :
    WriteReport s slba refused ⟨none, slba, s'⟩ :=
  ⟨hstore, rfl, iff_of_false (fun ⟨_, h, _⟩ => nomatch h) h⟩

theorem WriteReport.completed {refused : Prop} {ret : ZnsResult} (hstore : s'.storage = s.storage)
    (h : ret.status ≠ .success ↔ refused) : WriteReport s slba refused ⟨some ret, slba, s'⟩ :=
  ⟨hstore, rfl, ⟨fun ⟨_, hret, hst⟩ => h.1 (Option.some.inj hret ▸ hst), fun hr => ⟨ret, rfl, h.2 hr⟩⟩⟩

theorem WriteReport.clocks {refused : Prop} {ret : ZnsResult} (timing : Timing) (pending : List ZnsOp)
    (h : WriteReport s slba refused ⟨some ret, slba, s'⟩) :
    WriteReport s slba refused ⟨some ret, slba, { s' with timing, pending }⟩ :=
  ⟨h.storage, h.slba, h.status⟩

theorem RwCommand.lbaToByte_eq (rw : RwCommand) : lbaToByte rw.nrLba = rw.nrLba * 512 := by
  have := rw.nrLba_le
  rw [lbaToByte, Nat.shiftLeft_eq, u64, Nat.mod_eq_of_lt (by rw [show LBA_BITS = 9 from rfl]; omega)]
  rfl

/-- The space the buffer of a zone gives: all or nothing. -/
theorem liftZns_bufferAllocate_short {buf : Buffer} {size : ℕ} {a : ℕ × Buffer} (hsize : size < 2 ^ 32)
    (hpos : 0 < size) (h : liftZns (bufferAllocate buf size) = .ok a) :
    a.1 < size ↔ buf.remaining < size := by
  cases hb : bufferAllocate buf size with
  | error f => rw [hb] at h; cases h
  | ok b =>
    rw [hb] at h
    cases h
    exact bufferAllocate_short hsize hpos hb

theorem bufferAllocate_enough {buf : Buffer} {size : ℕ} {a : ℕ × Buffer} (hsize : size < 2 ^ 32)
    (hroom : size ≤ buf.remaining) (h : liftZns (bufferAllocate buf size) = .ok a) :
    a = (size, { buf with remaining := buf.remaining - size }) := by
  cases hb : bufferAllocate buf size with
  | error f => rw [hb] at h; cases h
  | ok b =>
    rw [hb] at h
    cases h
    obtain ⟨-, -, hb⟩ := bind_eq_ok hb
    dsimp only at hb
    rw [if_neg hroom.not_gt, show u32 size = size from Nat.mod_eq_of_lt hsize] at hb
    exact (Except.ok.inj hb).symm

theorem znsWriteSeq_report {rw : RwCommand} (h : znsWriteSeq c s sqid start append rw = .ok o) :
    WriteReport s (writeSlba c s append rw)
      (lbaToByte rw.nrLba ≤ (s.buffers (zoneBuffer c (lbaToZone c rw.slba.toNat))).remaining ∧
        SeqRefused c s (lbaToZone c rw.slba.toNat) (writeSlba c s append rw) rw.nrLba) o := by
  have hbytes := rw.lbaToByte_eq
  have hpos := rw.nrLba_pos
  have hle := rw.nrLba_le
  unfold znsWriteSeq at h
  dsimp only at h
  obtain ⟨⟨allocated, wbuf⟩, halloc, h⟩ := bind_eq_ok h
  dsimp only at h
  rw [show (if c.zp.zoneWbSize ≠ 0 then ZnsBuffer.zone (lbaToZone c rw.slba.toNat) else ZnsBuffer.ssd) =
    zoneBuffer c (lbaToZone c rw.slba.toNat) from rfl] at h halloc
  rw [show (if append = true then (s.zoneDescs (lbaToZone c rw.slba.toNat)).wp else rw.slba.toNat) =
    writeSlba c s append rw from rfl] at h
  generalize writeSlba c s append rw = slba at h ⊢
  generalize lbaToZone c rw.slba.toNat = zid at h halloc ⊢
  have hshort := liftZns_bufferAllocate_short (by omega) (by omega) halloc
  by_cases hlt : allocated < lbaToByte rw.nrLba
  · rw [if_pos hlt] at h
    cases h
    exact .dropped rfl fun hr => absurd (hshort.1 hlt) hr.1.not_gt
  rw [if_neg hlt] at h
  have hroom := Nat.le_of_not_lt (mt hshort.2 hlt)
  have hrefused := znsWriteAdmit_refused (c := c) (s.setBuffer (zoneBuffer c zid) wbuf) zid slba rw.nrLba
  obtain ⟨d, r, hframe⟩ := znsWriteAdmit_frame (c := c) (s.setBuffer (zoneBuffer c zid) wbuf) zid slba rw.nrLba
  have hstore : (znsWriteAdmit c (s.setBuffer (zoneBuffer c zid) wbuf) zid slba rw.nrLba).2.storage =
      s.storage := by rw [hframe]; rfl
  have hiff : SeqRefused c (s.setBuffer (zoneBuffer c zid) wbuf) zid slba rw.nrLba ↔
      lbaToByte rw.nrLba ≤ (s.buffers (zoneBuffer c zid)).remaining ∧ SeqRefused c s zid slba rw.nrLba :=
    (and_iff_right hroom).symm
  rw [hiff] at hrefused
  generalize znsWriteAdmit c (s.setBuffer (zoneBuffer c zid) wbuf) zid slba rw.nrLba = a at h hrefused hstore
  by_cases hst : a.1 = .success
  · rw [if_pos hst] at h
    have hnot := mt hrefused.2 (not_not_intro hst)
    have hdone := (increaseWritePtr_store (c := c) a.2 zid rw.nrLba).trans hstore
    cases h
    exact .clocks _ _ (.completed hdone (iff_of_false (fun h => h rfl) hnot))
  · rw [if_neg hst] at h
    cases h
    exact .completed hstore (iff_of_true hst (hrefused.1 hst))

theorem znsWriteZrwa_report {rw : RwCommand} (h : znsWriteZrwa c s sqid start rw = .ok o) :
    WriteReport s rw.slba.toNat (ZrwaRefused c s (lbaToZone c rw.slba.toNat) rw.slba.toNat rw.nrLba) o := by
  unfold znsWriteZrwa at h
  dsimp only at h
  generalize lbaToZone c rw.slba.toNat = zid at h ⊢
  obtain ⟨a, hadm, h⟩ := bind_eq_ok h
  have hrefused := zrwaAdmit_refused hadm
  have hstore := zrwaAdmit_store hadm
  by_cases hst : a.1 = .success
  · rw [if_pos hst] at h
    have hnot := mt hrefused.2 (not_not_intro hst)
    obtain ⟨flush, -, h⟩ := bind_eq_ok h
    by_cases hflush : 0 < flush
    · rw [if_pos hflush] at h
      obtain ⟨b, halloc, h⟩ := bind_eq_ok h
      have hstore₁ := (zrwaAllocate_store halloc).trans hstore
      have hdone := (increaseWritePtr_store (c := c) b.2 zid flush).trans hstore₁
      rw [if_pos hflush] at h
      by_cases hdrop : b.1 = 0
      · rw [if_pos hdrop] at h
        cases h
        exact .dropped hstore₁ hnot
      · rw [if_neg hdrop] at h
        cases h
        exact .clocks _ _ (.completed hdone (iff_of_false (fun h => h rfl) hnot))
    · rw [if_neg hflush] at h
      obtain ⟨r, hr₁, h⟩ := bind_eq_ok h
      cases hr₁
      dsimp only at h
      rw [if_neg hflush, if_neg Nat.one_ne_zero] at h
      cases h
      exact .clocks _ _ (.completed hstore (iff_of_false (fun h => h rfl) hnot))
  · rw [if_neg hst] at h
    cases h
    exact .completed hstore (iff_of_true hst (hrefused.1 hst))

theorem ZnsFtl.fire_storage (s : ZnsFtl) (i : ℕ) : (s.fire i).storage = s.storage := by
  unfold fire
  split
  · rfl
  · rfl

/-- The `slba` the submission entry of a write holds when a worker performs it. -/
def entrySlba (c : ZnsCfg) (s : ZnsFtl) (append : Bool) (rw : RwCommand) : ℕ :=
  if (s.zoneDescs (lbaToZone c rw.slba.toNat)).zrwav = false then writeSlba c s append rw
  else rw.slba.toNat

/-- **A write completes with an error** exactly when a check fails, in any state. -/
theorem znsWrite_report {rw : RwCommand} (h : znsWrite c s sqid start append rw = .ok o) :
    WriteReport s (entrySlba c s append rw) (WriteRefused c s append rw) o := by
  unfold znsWrite at h
  unfold entrySlba WriteRefused
  dsimp only at h ⊢
  rw [lpnToZone_lbaToLpn] at h
  split_ifs at h ⊢ with hw
  · exact znsWriteSeq_report h
  · exact znsWriteZrwa_report h

/-- **A command leaves stored** what it does not clear. -/
theorem znsProcNvmeIoCmd_stored {req : ZnsRequest} {o : ZnsOutcome} {a : ℕ}
    (ho : znsProcNvmeIoCmd c s req = .ok o)
    (ha : ∀ cmd, req.cmd = .mgmtSend cmd → ¬ cmd.Clears c s a) : o.ftl.storage a = s.storage a := by
  have htiming (timing : Timing) : ({ s with timing } : ZnsFtl).storage a = s.storage a := rfl
  unfold znsProcNvmeIoCmd at ho
  dsimp only at ho
  cases hcmd : req.cmd with
  | write rw => rw [hcmd] at ho; exact congrFun (znsWrite_report ho).storage a
  | append rw => rw [hcmd] at ho; exact congrFun (znsWrite_report ho).storage a
  | read rw => rw [hcmd] at ho; cases ho; exact htiming _
  | flush => rw [hcmd] at ho; cases ho; exact htiming _
  | mgmtSend cmd =>
    rw [hcmd] at ho
    obtain ⟨r, hsend, ho⟩ := bind_eq_ok ho
    cases ho
    exact znsZmgmtSend_stored hsend (ha cmd hcmd)
  | other opcode => rw [hcmd] at ho; cases ho; rfl

end WaitGc

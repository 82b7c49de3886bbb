/-
  WAITGC verification — what a rejected write of `__zns_write` takes away.

  The buffer is allocated before the first check, and the error exits go to
  `out`, which gives nothing back.  `rejected_writes`: the write has no side
  effects exactly when it is not rejected, and a rejected one costs the zone's
  buffer the bytes of the write.
-/
import WaitGc.Proof.ZoneData
import WaitGc.Zns.Device

namespace WaitGc

open Outcome Function

variable {c : ZnsCfg} {s s' : ZnsFtl} {zid slba nrLba : ℕ} {append : Bool} {rw : RwCommand}
  {sqid start : ℕ} {o : ZnsOutcome}

/-- The zones, the counters and the space left in the buffers are the same. -/
structure Unaffected (s s' : ZnsFtl) : Prop where
  descs : s'.zoneDescs = s.zoneDescs
  resInfos : s'.resInfos = s.resInfos
  remaining (b : ZnsBuffer) : (s'.buffers b).remaining = (s.buffers b).remaining

/-- The write finds buffer space, and a check of `__zns_write` fails. -/
def SeqRejected (c : ZnsCfg) (s : ZnsFtl) (append : Bool) (rw : RwCommand) : Prop :=
  lbaToByte rw.nrLba ≤ (s.buffers (zoneBuffer c (lbaToZone c rw.slba.toNat))).remaining ∧
    SeqRefused c s (lbaToZone c rw.slba.toNat) (writeSlba c s append rw) rw.nrLba

/-! ## The checks -/

/-- A zone that cannot be opened stays as it is. -/
theorem openImpl_rejected (h : (znsWriteAdmit.openImpl s zid).1 ≠ .success) :
    (znsWriteAdmit.openImpl s zid).2 = s := by
  have hno := (openImpl_refused s zid).1 h
  unfold znsWriteAdmit.openImpl ZnsFtl.acquireZoneResource
  rw [hno, if_neg Bool.false_ne_true]

/-- An open-zone resource that is neither full nor available is over its total. -/
theorem total_lt_acquired {type : ZoneResourceType} (hfull : ¬ s.isZoneResourceFull type = true)
    (havail : s.isZoneResourceAvail type = false) :
    (s.resInfos type).totalCnt < (s.resInfos type).acquiredCnt := by
  simp only [ZnsFtl.isZoneResourceFull, decide_eq_true_eq] at hfull
  simp only [ZnsFtl.isZoneResourceAvail, decide_eq_false_iff_not] at havail
  omega

/-- A failed check leaves the zones, and the counters while they are within their
    totals. -/
theorem znsWriteAdmit_rejected (h : (znsWriteAdmit c s zid slba nrLba).1 ≠ .success) :
    (znsWriteAdmit c s zid slba nrLba).2.zoneDescs = s.zoneDescs ∧
      ((s.resInfos .openZone).acquiredCnt ≤ (s.resInfos .openZone).totalCnt →
        (znsWriteAdmit c s zid slba nrLba).2.resInfos = s.resInfos) := by
  unfold znsWriteAdmit at h ⊢
  dsimp only at h ⊢
  by_cases halign : lbaToByte nrLba % c.writeUnitSize ≠ 0
  · rw [if_pos halign]; exact ⟨rfl, fun _ => rfl⟩
  rw [if_neg halign] at h ⊢
  by_cases hbound : checkBoundaryError c slba nrLba = false
  · rw [if_pos hbound]; exact ⟨rfl, fun _ => rfl⟩
  rw [if_neg hbound] at h ⊢
  by_cases hwp : slba ≠ (s.zoneDescs zid).wp
  · rw [if_pos hwp]; exact ⟨rfl, fun _ => rfl⟩
  rw [if_neg hwp] at h ⊢
  cases hz : (s.zoneDescs zid).state with
  | empty =>
    simp only [hz] at h ⊢
    by_cases hstart : slba ≠ (s.zoneDescs zid).zslba
    · rw [if_pos hstart]; exact ⟨rfl, fun _ => rfl⟩
    rw [if_neg hstart] at h ⊢
    by_cases hna : s.isZoneResourceFull .activeZone = true
    · rw [if_pos hna]; exact ⟨rfl, fun _ => rfl⟩
    rw [if_neg hna] at h ⊢
    by_cases hno : s.isZoneResourceFull .openZone = true
    · rw [if_pos hno]; exact ⟨rfl, fun _ => rfl⟩
    rw [if_neg hno] at h ⊢
    -- the resource of an active zone is taken, and the open one is not to be had
    have hover := total_lt_acquired hno ((acquire_active_avail s).symm.trans ((openImpl_refused _ _).1 h))
    obtain ⟨r, hr⟩ := acquireZoneResource_frame s .activeZone
    rw [openImpl_rejected h, hr]
    exact ⟨rfl, fun hle => absurd hle hover.not_ge⟩
  | closed =>
    simp only [hz] at h ⊢
    rw [openImpl_rejected h]
    exact ⟨rfl, fun _ => rfl⟩
  | _ => exact ⟨rfl, fun _ => rfl⟩

/-! ## The write -/

/-- What a write that finds buffer space leaves, if it is rejected. -/
structure Rejection (c : ZnsCfg) (s : ZnsFtl) (rw : RwCommand) (s' : ZnsFtl) : Prop where
  descs : s'.zoneDescs = s.zoneDescs
  resInfos : (s.resInfos .openZone).acquiredCnt ≤ (s.resInfos .openZone).totalCnt →
    s'.resInfos = s.resInfos
  lost : (s'.buffers (zoneBuffer c (lbaToZone c rw.slba.toNat))).remaining + lbaToByte rw.nrLba =
    (s.buffers (zoneBuffer c (lbaToZone c rw.slba.toNat))).remaining
  others (b : ZnsBuffer) : b ≠ zoneBuffer c (lbaToZone c rw.slba.toNat) → s'.buffers b = s.buffers b

theorem znsWriteSeq_rejected (h : znsWriteSeq c s sqid start append rw = .ok o)
    (hrej : SeqRejected c s append rw) : Rejection c s rw o.ftl := by
  have hbytes := rw.lbaToByte_eq
  have hle := rw.nrLba_le
  obtain ⟨hroom, hrefused⟩ := hrej
  unfold znsWriteSeq at h
  dsimp only at h
  obtain ⟨⟨allocated, wbuf⟩, halloc, h⟩ := bind_eq_ok h
  dsimp only at h
  rw [show (if c.zp.zoneWbSize ≠ 0 then ZnsBuffer.zone (lbaToZone c rw.slba.toNat) else ZnsBuffer.ssd) =
    zoneBuffer c (lbaToZone c rw.slba.toNat) from rfl] at h halloc
  rw [show (if append = true then (s.zoneDescs (lbaToZone c rw.slba.toNat)).wp else rw.slba.toNat) =
    writeSlba c s append rw from rfl] at h
  have hallocated := bufferAllocate_enough (by omega) hroom halloc
  rw [Prod.mk.injEq] at hallocated
  rw [if_neg hallocated.1.ge.not_gt] at h
  have hst := (znsWriteAdmit_refused (c := c)
    (s.setBuffer (zoneBuffer c (lbaToZone c rw.slba.toNat)) wbuf) _ _ _).2 hrefused
  have hkeep := znsWriteAdmit_rejected hst
  obtain ⟨d, r, hframe⟩ := znsWriteAdmit_frame (c := c)
    (s.setBuffer (zoneBuffer c (lbaToZone c rw.slba.toNat)) wbuf) (lbaToZone c rw.slba.toNat)
    (writeSlba c s append rw) rw.nrLba
  have hbuf := congrArg ZnsFtl.buffers hframe
  generalize znsWriteAdmit c (s.setBuffer (zoneBuffer c (lbaToZone c rw.slba.toNat)) wbuf)
    (lbaToZone c rw.slba.toNat) (writeSlba c s append rw) rw.nrLba = a at h hst hkeep hbuf
  rw [if_neg hst] at h
  cases h
  refine ⟨hkeep.1, hkeep.2, ?_, ?_⟩
  · rw [hbuf]
    dsimp only [ZnsFtl.setBuffer]
    rw [update_self, hallocated.2]
    exact Nat.sub_add_cancel hroom
  · intro b hb
    rw [hbuf]
    exact update_of_ne hb _ _

/-- **Rejected writes.** -/
theorem rejected_writes (h : znsWriteSeq c s sqid start append rw = .ok o) :
    (((∃ ret, o.ret = some ret ∧ ret.status ≠ .success) → Unaffected s o.ftl) ↔
      ¬ SeqRejected c s append rw) ∧
    (SeqRejected c s append rw → Rejection c s rw o.ftl) := by
  refine ⟨?_, znsWriteSeq_rejected h⟩
  rw [(znsWriteSeq_report h).status]
  constructor
  · intro hsame hrej
    have hlost := (znsWriteSeq_rejected h hrej).lost
    have hpos := rw.nrLba_pos
    have hbytes := rw.lbaToByte_eq
    rw [(hsame hrej).remaining] at hlost
    omega
  · exact fun hnot hrej => absurd hrej hnot

/-- The first block of an empty zone is written. -/
theorem rejected_writes_first_block :
    ∃ o, znsWriteSeq zn540 (znsInitFtl zn540 (fun _ => 0) fun _ => 0) 1 0 false ⟨0, 0, 0⟩ = .ok o ∧
      ((∃ ret, o.ret = some ret ∧ ret.status ≠ .success) →
        Unaffected (znsInitFtl zn540 (fun _ => 0) fun _ => 0) o.ftl) := by
  have hmap : (znsWriteSeq zn540 (znsInitFtl zn540 (fun _ => 0) fun _ => 0) 1 0 false ⟨0, 0, 0⟩).map
      (fun o => o.ret.map (·.status)) = .ok (some .success) := by decide +kernel
  obtain ⟨o, ho, -⟩ := exists_ok_of_map hmap
  refine ⟨o, ho, (rejected_writes ho).1.2 fun hrej => ?_⟩
  have hrefused : ¬ SeqRefused zn540 (znsInitFtl zn540 (fun _ => 0) fun _ => 0) 0 0 1 := by
    rw [← znsWriteAdmit_refused]
    decide
  exact hrefused hrej.2

/-- The second block of an empty zone is written first: the write is invalid, and the
    buffer of the zone is short of 512 bytes from then on. -/
theorem rejected_writes_second_block :
    ∃ o, znsWriteSeq zn540 (znsInitFtl zn540 (fun _ => 0) fun _ => 0) 1 0 false ⟨1, 0, 0⟩ = .ok o ∧
      (∃ ret, o.ret = some ret ∧ ret.status = .invalidWrite) ∧
      (o.ftl.buffers (.zone 0)).remaining = 983040 - 512 ∧
      ¬ Unaffected (znsInitFtl zn540 (fun _ => 0) fun _ => 0) o.ftl := by
  have hmap : (znsWriteSeq zn540 (znsInitFtl zn540 (fun _ => 0) fun _ => 0) 1 0 false ⟨1, 0, 0⟩).map
      (fun o => (o.ret.map (·.status), (o.ftl.buffers (.zone 0)).remaining)) =
        .ok (some .invalidWrite, 983040 - 512) := by decide +kernel
  obtain ⟨o, ho, hx⟩ := exists_ok_of_map hmap
  rw [Prod.mk.injEq, Option.map_eq_some_iff] at hx
  refine ⟨o, ho, hx.1, hx.2, fun h => ?_⟩
  have hkeep := (h.remaining (.zone 0)).symm.trans hx.2
  exact absurd hkeep (by decide)

end WaitGc

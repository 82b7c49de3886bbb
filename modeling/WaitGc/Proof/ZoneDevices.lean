/-
  WAITGC verification — what the zoned devices of the repository are set up as,
  and how their random write areas, which have no size, take writes.
-/
import WaitGc.Proof.Zones
import WaitGc.Zns.Device

namespace WaitGc

open Outcome

variable {m : ZnsConfig} {capacity : ℕ} {c : ZnsCfg} {s : ZnsFtl}

/-- The parameters that do not depend on the capacity. -/
theorem ssdInitParams_fixed {m : SsdConfig} {capacity : ℕ} {sp : SsdParams}
    (h : ssdInitParams m capacity 1 = .ok sp) :
    sp.nchs = m.nandChannels ∧ sp.ttLuns = m.lunsPerNandCh * m.nandChannels ∧
      sp.lunsPerCh = m.lunsPerNandCh ∧ sp.pgsPerOneshotpg = m.oneshotPageSize / 4096 ∧
      sp.pgsPerFlashpg = m.flashPageSize / 4096 ∧ sp.cellMode = m.cellMode ∧
      sp.chBandwidth = m.nandChannelBandwidth ∧ sp.pcieBandwidth = m.pcieBandwidth := by
  unfold ssdInitParams at h
  dsimp only at h
  obtain ⟨-, -, h⟩ := bind_eq_ok h
  obtain ⟨-, -, h⟩ := bind_eq_ok h
  obtain ⟨-, -, h⟩ := bind_eq_ok h
  obtain ⟨-, -, h⟩ := bind_eq_ok h
  cases h
  exact ⟨Nat.div_one _, congrArg (m.lunsPerNandCh * ·) (Nat.div_one _), rfl, rfl, rfl, rfl, rfl, rfl⟩

theorem wdZn540_inits : wdZn540.Inits (2 ^ 32) zn540 where
  whole := by decide
  fits := by decide
  sp := by
    have hlba : LBA_SIZE = 512 := rfl
    unfold ssdInitParams
    simp only [wdZn540, hlba]
    norm_num [nvmevAssert, require, zn540, zn540Params, divRoundUp, u64, int32, ulong]
    decide
  writeUnitSize := rfl
  zp := by rfl

/-! ## Faults -/

/-- A write outside a random write area stops only in functions shared with conventional
    namespaces. -/
theorem znsWriteSeq_fault {sqid start : ℕ} {append : Bool} {rw : RwCommand} {e : ZnsFault}
    (h : znsWriteSeq c s sqid start append rw = .error e) : ∃ f, e = .shared f := by
  unfold znsWriteSeq at h
  dsimp only at h
  generalize (if c.zp.zoneWbSize ≠ 0 then ZnsBuffer.zone (lbaToZone c rw.slba.toNat)
    else ZnsBuffer.ssd) = buf at h
  rcases bind_eq_error_iff.1 h with h | ⟨⟨allocated, wbuf⟩, -, h⟩
  · cases hb : bufferAllocate (s.buffers buf) (lbaToByte rw.nrLba) with
    | ok a => rw [hb] at h; cases h
    | error f => rw [hb] at h; cases h; exact ⟨f, rfl⟩
  dsimp only at h
  by_cases hshort : allocated < lbaToByte rw.nrLba
  · rw [if_pos hshort] at h
    cases h
  rw [if_neg hshort] at h
  generalize znsWriteAdmit c (s.setBuffer buf wbuf) (lbaToZone c rw.slba.toNat) _ rw.nrLba = a at h
  by_cases hst : a.1 = .success
  · rw [if_pos hst] at h
    cases h
  · rw [if_neg hst] at h
    cases h

/-- A management command stops only at its division. -/
theorem zmgmtSend_fault {slba : ℕ} {action : BitVec 8} {option : Bool} {e : ZnsFault}
    (h : zmgmtSend c s slba action option = .error e) : e = .divideByZero := by
  unfold zmgmtSend at h
  dsimp only at h
  split_ifs at h
  unfold zmgmtSendFlushExplicitZrwa at h
  dsimp only at h
  generalize lbaToZone c slba = zid at h
  generalize min (_ : ℕ) (_ : ℕ) = zrwaEnd at h
  by_cases hw : (s.zoneDescs zid).zrwav = false
  · rw [if_pos hw] at h; cases h
  rw [if_neg hw] at h
  by_cases hin : ¬ ((s.zoneDescs zid).wp ≤ slba ∧ slba ≤ zrwaEnd)
  · rw [if_pos hin] at h; cases h
  rw [if_neg hin] at h
  rcases bind_eq_error_iff.1 h with h | ⟨_, -, h⟩
  · unfold require at h
    split_ifs at h
    exact (Except.error.inj h).symm
  by_cases hmod : u64 (sub64 slba (s.zoneDescs zid).wp + 1) % c.zp.lbasPerZrwafg ≠ 0
  · rw [if_pos hmod] at h; cases h
  rw [if_neg hmod] at h
  cases hz : (s.zoneDescs zid).state with
  | openedExpl | openedImpl | closed =>
    rw [hz] at h
    dsimp only at h
    split_ifs at h
    · cases h
    · cases h
  | _ => rw [hz] at h; cases h

theorem znsZmgmtSend_fault {cmd : ZmgmtSendCommand} {e : ZnsFault}
    (h : znsZmgmtSend c s cmd = .error e) : e = .divideByZero := by
  unfold znsZmgmtSend at h
  split_ifs at h
  · have hloop : Sat (· = .divideByZero) (fun _ => True) (zmgmtSendAll c s cmd.zsa cmd.zsaso) := by
      refine sat_foldlM (fun _ _ => True) _ ?_ trivial
      intro pre zid post s₁ _ _
      cases hs : zmgmtSend c s₁ (zoneToSlba c zid) cmd.zsa cmd.zsaso with
      | ok r => trivial
      | error e => exact zmgmtSend_fault hs
    cases hs : zmgmtSendAll c s cmd.zsa cmd.zsaso with
    | ok s₁ => rw [hs] at h; cases h
    | error e' => rw [hs] at h; cases h; exact hloop.of_error hs
  · exact zmgmtSend_fault h

/-! ## Random write areas -/

/-- Random write areas have no size. -/
structure NoZrwa (c : ZnsCfg) : Prop where
  bufferSize : c.zp.zrwaBufferSize = 0
  lbasPerZrwafg : c.zp.lbasPerZrwafg = 0
  lbasPerZrwa : c.zp.lbasPerZrwa = 0

theorem ZnsConfig.Inits.noZrwa (hm : Shipped m) (hinit : m.Inits capacity c) : NoZrwa c := by
  rcases hm with rfl | rfl
  · exact ⟨by rw [hinit.zp]; rfl, by rw [hinit.zp]; rfl, by rw [hinit.zp]; rfl⟩
  · exact ⟨by rw [hinit.zp]; rfl, by rw [hinit.zp]; rfl, by rw [hinit.zp]; rfl⟩

theorem elba_ge (hm : Shipped m) (hinit : m.Inits capacity c) {rw : RwCommand}
    (haddr : lbaToZone c rw.slba.toNat < c.zp.nrZones) :
    rw.slba.toNat ≤ sub64 (u64 (rw.slba.toNat + rw.nrLba)) 1 := by
  have hlt := c.nrZones_lt
  have hpos := rw.nrLba_pos
  have hle := rw.nrLba_le
  have hslba := rw.slba.isLt
  -- a block in the last 2^16 lies in zone 2^32 - 1, and there is no such zone
  have hfar : rw.slba.toNat + 2 ^ 16 ≤ 2 ^ 64 := by
    by_contra hfar
    have hlbas : lbasPerZone c = 2 ^ 22 ∨ lbasPerZone c = 2 ^ 16 := by
      rw [lbasPerZone, hinit.zp]
      rcases hm with rfl | rfl
      · exact .inl (show 2 ^ 31 / 512 = 2 ^ 22 by norm_num)
      · exact .inr (show 2 ^ 25 / 512 = 2 ^ 16 by norm_num)
    unfold lbaToZone u32 at haddr
    rcases hlbas with h | h <;> rw [h] at haddr <;> omega
  unfold sub64 u64
  omega

/-- The checks of `__zns_write_zrwa` let the write pass. -/
structure ZrwaPasses (c : ZnsCfg) (s : ZnsFtl) (rw : RwCommand) : Prop where
  wp : (s.zoneDescs (lbaToZone c rw.slba.toNat)).wp = 0
  aligned : lbaToByte rw.nrLba % c.writeUnitSize = 0
  boundary : checkBoundaryError c rw.slba.toNat rw.nrLba = true

/-- **`__zns_write_zrwa` without random write areas**: a write that passes divides by zero on an
    open zone, and uses a buffer that there is not on one that it opens. -/
theorem znsWriteZrwa_faults (hz : NoZrwa c) (s : ZnsFtl) (sqid start : ℕ) {rw : RwCommand}
    (helba : rw.slba.toNat ≤ sub64 (u64 (rw.slba.toNat + rw.nrLba)) 1) :
    let z := s.zoneDescs (lbaToZone c rw.slba.toNat)
    (ZrwaPasses c s rw ∧ z.isOpen = true ∧ znsWriteZrwa c s sqid start rw = .error .divideByZero) ∨
      (ZrwaPasses c s rw ∧ (z.state = .empty ∨ z.state = .closed) ∧
        s.isZoneResourceAvail .openZone = true ∧ znsWriteZrwa c s sqid start rw = .error .nullPointer) ∨
      (¬ (ZrwaPasses c s rw ∧ (z.isOpen = true ∨ ((z.state = .empty ∨ z.state = .closed) ∧
        s.isZoneResourceAvail .openZone = true))) ∧ ∃ o, znsWriteZrwa c s sqid start rw = .ok o) := by
  have hslba := rw.slba.isLt
  have hlast : sub64 (u64 (rw.slba.toNat + rw.nrLba)) 1 < 2 ^ 64 := Nat.mod_lt _ (by decide)
  have hpasses : ZrwaPasses c s rw ↔ (s.zoneDescs (lbaToZone c rw.slba.toNat)).wp = 0 ∧
      lbaToByte rw.nrLba % c.writeUnitSize = 0 ∧ checkBoundaryError c rw.slba.toNat rw.nrLba = true :=
    ⟨fun h => ⟨h.wp, h.aligned, h.boundary⟩, fun h => ⟨h.1, h.2.1, h.2.2⟩⟩
  rw [hpasses]
  unfold znsWriteZrwa zrwaAdmit
  dsimp only
  generalize sub64 (u64 (rw.slba.toNat + rw.nrLba)) 1 = elba at *
  generalize lbaToZone c rw.slba.toNat = zid
  by_cases halign : lbaToByte rw.nrLba % c.writeUnitSize ≠ 0
  · rw [if_pos halign]
    exact .inr (.inr ⟨fun h => halign h.1.2.1, _, rfl⟩)
  rw [if_neg halign]
  rw [not_not] at halign
  by_cases hbound : checkBoundaryError c rw.slba.toNat rw.nrLba = false
  · rw [if_pos hbound]
    exact .inr (.inr ⟨fun h => by simp [hbound] at h, _, rfl⟩)
  rw [if_neg hbound]
  rw [Bool.not_eq_false] at hbound
  have hend : zrwaImplEnd c (s.zoneDescs zid).wp = sub64 (u64 (s.zoneDescs zid).wp) 1 := by
    rw [zrwaImplEnd, hz.lbasPerZrwa]
    rfl
  by_cases hrange : rw.slba.toNat < (s.zoneDescs zid).wp ∨ zrwaImplEnd c (s.zoneDescs zid).wp < elba
  · rw [if_pos hrange]
    refine .inr (.inr ⟨fun h => ?_, _, rfl⟩)
    rw [hend, h.1.1] at hrange
    unfold sub64 u64 at hrange
    omega
  rw [if_neg hrange]
  rw [hend] at hrange
  have hwp : (s.zoneDescs zid).wp = 0 := by
    unfold sub64 u64 at hrange
    omega
  have hflush : nrLbasFlush c zid (s.zoneDescs zid).wp elba = .error .divideByZero := by
    have hstart : zrwaImplStart c (s.zoneDescs zid).wp = 0 := by
      rw [zrwaImplStart, hz.lbasPerZrwa, hwp]
      rfl
    rw [nrLbasFlush, hstart, if_pos (Nat.zero_le _), require_neg (not_not_intro hz.lbasPerZrwafg)]
    rfl
  have hnull (s : ZnsFtl) : zrwaAllocate c s zid c.zp.zrwaSize = .error .nullPointer := by
    rw [zrwaAllocate, require_neg (not_not_intro hz.bufferSize)]
    rfl
  cases hstate : (s.zoneDescs zid).state with
  | openedImpl | openedExpl =>
    refine .inl ⟨⟨hwp, halign, hbound⟩, by simp [ZoneDescriptor.isOpen, hstate], ?_⟩
    rw [show (pure (ZnsStatus.success, s) : Except ZnsFault _) = .ok (.success, s) from rfl, ok_bind,
      if_pos rfl, hflush]
    rfl
  | empty | closed =>
    cases havail : s.isZoneResourceAvail .openZone with
    | true =>
      refine .inr (.inl ⟨⟨hwp, halign, hbound⟩, by simp, rfl, ?_⟩)
      unfold ZnsFtl.acquireZoneResource
      rw [if_pos havail]
      dsimp only
      rw [hnull]
      rfl
    | false =>
      refine .inr (.inr ⟨by simp [ZoneDescriptor.isOpen, hstate], ?_⟩)
      unfold ZnsFtl.acquireZoneResource
      rw [if_neg (by simp [havail])]
      exact ⟨_, rfl⟩
  | _ => exact .inr (.inr ⟨by simp [ZoneDescriptor.isOpen, hstate], _, rfl⟩)

end WaitGc

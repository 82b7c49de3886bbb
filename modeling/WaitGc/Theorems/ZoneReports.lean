/-
  WAITGC verification — zone reports.

  `__fill_zone_report` fills the header and `nr_zones` descriptors, and
  `__prp_transfer_data` copies as many bytes as the host asked for.
  `zone_report_sound_iff`: the copy stays inside what was filled, and the count is
  the right one, exactly if the host asks for no more bytes than all descriptors
  from the first zone on take, and with the partial bit for a header and whole
  descriptors.
-/
import WaitGc.Zns.Device
import WaitGc.Zns.MgmtRecv

namespace WaitGc

open Outcome Function Extent

variable {c : ZnsCfg} {s : ZnsFtl} {report : ℕ → ℕ} {host : HostData} {cmd : ZmgmtRecvCommand}

/-- The header and the descriptors that were filled. -/
def filledSize (nrZones : ℕ) : ℕ := REPORT_HEADER_SIZE + DESCRIPTOR_SIZE * nrZones

/-- The number of zones a report is to name: all from the first one on, or with the
    partial bit as many as fit. -/
def zonesExpected (c : ZnsCfg) (cmd : ZmgmtRecvCommand) : ℕ :=
  let all := c.zp.nrZones - lbaToZone c cmd.slba.toNat
  if cmd.zraSpecificFeatures = false then all
  else min all ((cmd.length - REPORT_HEADER_SIZE) / DESCRIPTOR_SIZE)

/-- The command is answered with a report `t`: it reads what was filled, the header holds
    `nr_zones`, the descriptors are those of the zones, and the count is the right one. -/
structure ReportSound (c : ZnsCfg) (s : ZnsFtl) (report : ℕ → ℕ) (host : HostData)
    (cmd : ZmgmtRecvCommand) (t : PrpTransfer) : Prop where
  status : (znsZmgmtRecv c s report host cmd).status = .success
  transfer : (znsZmgmtRecv c s report host cmd).transfer = some t
  bounded : ∀ e ∈ t.parts, e.stop ≤ filledSize (nrZoneToReport c cmd)
  header : ∀ j < 8, j < cmd.length → t.data j = leByte (nrZoneToReport c cmd) j
  descriptor : ∀ i < nrZoneToReport c cmd, ∀ j < DESCRIPTOR_SIZE,
    REPORT_HEADER_SIZE + DESCRIPTOR_SIZE * i + j < cmd.length →
      t.data (REPORT_HEADER_SIZE + DESCRIPTOR_SIZE * i + j) =
        (s.zoneDescs (lbaToZone c cmd.slba.toNat + i)).byte j
  count : nrZoneToReport c cmd = zonesExpected c cmd

/-- The host asks for no more than there is, and with the partial bit for whole
    descriptors. -/
def LengthFits (c : ZnsCfg) (cmd : ZmgmtRecvCommand) : Prop :=
  cmd.length ≤ filledSize (c.zp.nrZones - lbaToZone c cmd.slba.toNat) ∧
    (cmd.zraSpecificFeatures = true → 0 < cmd.length ∧ cmd.length % DESCRIPTOR_SIZE = 0)

/-! ## The copy -/

/-- The parts follow one another through the buffer. -/
theorem HostData.parts_tiles (h : HostData) : ∀ (fuel n offset remaining : ℕ), remaining ≤ fuel →
    offset + remaining < 2 ^ 64 → Tiles offset (h.parts fuel n offset remaining) (offset + remaining)
  | 0, n, offset, remaining, hf, _ => by
    obtain rfl : remaining = 0 := Nat.le_zero.1 hf
    exact rfl
  | fuel + 1, n, offset, remaining, hf, hlt => by
    unfold parts
    by_cases h0 : remaining = 0
    · rw [if_pos h0, h0]
      exact rfl
    rw [if_neg h0]
    have hpos := h.ioSize_pos n h0
    have hle := h.ioSize_le n remaining
    dsimp only
    generalize h.ioSize n remaining = ioSize at *
    have hnext : u64 (offset + ioSize) = offset + ioSize := Nat.mod_eq_of_lt (by omega)
    have hrest := h.parts_tiles fuel (n + 1) (offset + ioSize) (remaining - ioSize) (by omega) (by omega)
    rw [hnext]
    refine ⟨rfl, ?_⟩
    rwa [show offset + ioSize + (remaining - ioSize) = offset + remaining by omega] at hrest

theorem prpTransfer_bounded (buffer : ℕ → ℕ) {length size : ℕ} (hlt : length < 2 ^ 64) :
    (∀ e ∈ (prpTransferData host buffer length).parts, e.stop ≤ size) ↔ length ≤ size := by
  have htiles := host.parts_tiles length 0 0 length le_rfl (by omega)
  rw [Nat.zero_add] at htiles
  show (∀ e ∈ host.parts length 0 0 length, _) ↔ _
  constructor
  · intro h
    by_contra hlong
    -- the part with the last byte stops behind it
    obtain ⟨e, he, -, hlast⟩ := (htiles.cover (length - 1)).2 (by omega)
    have := h e he
    omega
  · intro h e he
    exact (htiles.stop_le e he).trans h

theorem prpTransfer_data (buffer : ℕ → ℕ) {length k : ℕ} (hlt : length < 2 ^ 64) (hk : k < length) :
    (prpTransferData host buffer length).data k = buffer k := by
  show host.performRead buffer length 0 0 length k = _
  rw [host.performRead_apply _ _ _ _ _ _ le_rfl hk, Nat.zero_add, u64, Nat.mod_eq_of_lt (by omega)]

/-! ## The count -/

theorem recvLength_lt (cmd : ZmgmtRecvCommand) : cmd.length < 2 ^ 34 := by
  have : u32 (cmd.nrDw.toNat + 1) < 2 ^ 32 := Nat.mod_lt _ (by decide)
  unfold ZmgmtRecvCommand.length
  omega

theorem zonesFrom_eq (hzid : lbaToZone c cmd.slba.toNat < c.zp.nrZones) :
    sub64 c.zp.nrZones (lbaToZone c cmd.slba.toNat) = c.zp.nrZones - lbaToZone c cmd.slba.toNat := by
  have := c.nrZones_lt
  unfold sub64 u64
  omega

theorem nrZoneToReport_all (hzid : lbaToZone c cmd.slba.toNat < c.zp.nrZones)
    (hp : cmd.zraSpecificFeatures = false) :
    nrZoneToReport c cmd = c.zp.nrZones - lbaToZone c cmd.slba.toNat := by
  unfold nrZoneToReport
  dsimp only
  rw [zonesFrom_eq hzid, if_pos hp, if_neg (lt_irrefl _)]

/-- With the partial bit as many as fit; a length below a header wraps, and names all. -/
theorem nrZoneToReport_partial (hzid : lbaToZone c cmd.slba.toNat < c.zp.nrZones)
    (hp : cmd.zraSpecificFeatures = true) :
    nrZoneToReport c cmd = if cmd.length < REPORT_HEADER_SIZE then
        c.zp.nrZones - lbaToZone c cmd.slba.toNat
      else min (c.zp.nrZones - lbaToZone c cmd.slba.toNat) (cmd.length / DESCRIPTOR_SIZE - 1) := by
  have hlen := recvLength_lt cmd
  have hlt := c.nrZones_lt
  have hne : ¬ cmd.zraSpecificFeatures = false := by simp [hp]
  unfold nrZoneToReport
  dsimp only
  rw [zonesFrom_eq hzid, if_neg hne, show REPORT_HEADER_SIZE = 64 from rfl,
    show DESCRIPTOR_SIZE = 64 from rfl]
  have hsub : sub64 (cmd.length / 64) 1 = if cmd.length < 64 then 2 ^ 64 - 1 else cmd.length / 64 - 1 := by
    unfold sub64 u64
    split_ifs <;> omega
  rw [hsub]
  by_cases hshort : cmd.length < 64
  · rw [if_pos hshort, if_pos hshort, if_pos (by omega)]
  · rw [if_neg hshort, if_neg hshort]
    split_ifs <;> omega

theorem count_iff (hzid : lbaToZone c cmd.slba.toNat < c.zp.nrZones) :
    nrZoneToReport c cmd = zonesExpected c cmd ↔
      (cmd.zraSpecificFeatures = true → REPORT_HEADER_SIZE ≤ cmd.length) := by
  unfold zonesExpected
  dsimp only
  by_cases hp : cmd.zraSpecificFeatures = false
  · rw [if_pos hp, nrZoneToReport_all hzid hp]
    simp [hp]
  · have ht : cmd.zraSpecificFeatures = true := by simpa using hp
    rw [if_neg hp, nrZoneToReport_partial hzid ht, imp_iff_right ht, show REPORT_HEADER_SIZE = 64 from rfl,
      show DESCRIPTOR_SIZE = 64 from rfl]
    split_ifs <;> omega

/-! ## The report -/

theorem fillZoneReport_header {j : ℕ} (hj : j < 8) :
    fillZoneReport c s cmd report j = leByte (nrZoneToReport c cmd) j := if_pos hj

theorem fillZoneReport_descriptor {i j : ℕ} (hi : i < nrZoneToReport c cmd) (hj : j < DESCRIPTOR_SIZE) :
    fillZoneReport c s cmd report (REPORT_HEADER_SIZE + DESCRIPTOR_SIZE * i + j) =
      (s.zoneDescs (lbaToZone c cmd.slba.toNat + i)).byte j := by
  unfold fillZoneReport
  rw [show REPORT_HEADER_SIZE = 64 from rfl, show DESCRIPTOR_SIZE = 64 from rfl] at *
  have hoff : 64 + 64 * i + j - 64 = 64 * i + j := by omega
  have hdiv : (64 * i + j) / 64 = i := by omega
  have hmod : (64 * i + j) % 64 = j := by omega
  rw [if_neg (by omega), hoff, if_pos ⟨by omega, by omega⟩, hdiv, hmod]

theorem znsZmgmtRecv_supported (hsup : checkZmgmtRcvOptionSupported c cmd = true) :
    znsZmgmtRecv c s report host cmd = ⟨.success,
      some (prpTransferData host (fillZoneReport c s cmd report) cmd.length),
      fillZoneReport c s cmd report⟩ := by
  unfold znsZmgmtRecv
  rw [if_pos hsup]

theorem ReportSound.length_le {t : PrpTransfer} (hsup : checkZmgmtRcvOptionSupported c cmd = true)
    (ht : ReportSound c s report host cmd t) : cmd.length ≤ filledSize (nrZoneToReport c cmd) := by
  have hlen := recvLength_lt cmd
  have htransfer := ht.transfer
  rw [znsZmgmtRecv_supported hsup] at htransfer
  obtain rfl := Option.some.inj htransfer
  exact (prpTransfer_bounded _ (by omega)).1 ht.bounded

/-- **A zone report is sound** exactly if its length fits, in any state of the namespace and of
    the buffer. -/
theorem zone_report_sound_iff (hsup : checkZmgmtRcvOptionSupported c cmd = true) :
    (∃ t, ReportSound c s report host cmd t) ↔ LengthFits c cmd := by
  have hlen := recvLength_lt cmd
  have hzid : lbaToZone c cmd.slba.toNat < c.zp.nrZones := by
    simp only [checkZmgmtRcvOptionSupported, decide_eq_true_eq] at hsup
    exact hsup.1
  have hcount := count_iff hzid
  have hall := nrZoneToReport_all hzid
  have hpart := nrZoneToReport_partial hzid
  have hfits : (cmd.length ≤ filledSize (nrZoneToReport c cmd) ∧
      (cmd.zraSpecificFeatures = true → REPORT_HEADER_SIZE ≤ cmd.length)) ↔ LengthFits c cmd := by
    unfold LengthFits filledSize
    rw [show REPORT_HEADER_SIZE = 64 from rfl, show DESCRIPTOR_SIZE = 64 from rfl] at *
    cases hp : cmd.zraSpecificFeatures with
    | false => simp [hall hp]
    | true =>
      rw [hpart hp, imp_iff_right rfl, imp_iff_right rfl]
      split_ifs <;> omega
  rw [← hfits]
  constructor
  · rintro ⟨t, ht⟩
    exact ⟨ht.length_le hsup, hcount.1 ht.count⟩
  · rintro ⟨hle, hshort⟩
    refine ⟨_, by rw [znsZmgmtRecv_supported hsup], by rw [znsZmgmtRecv_supported hsup],
      (prpTransfer_bounded _ (by omega)).2 hle, ?_, ?_,
      hcount.2 hshort⟩
    · intro j hj hjl
      rw [prpTransfer_data _ (by omega) hjl, fillZoneReport_header hj]
    · intro i hi j hj hjl
      rw [prpTransfer_data _ (by omega) hjl, fillZoneReport_descriptor hi hj]

/-- A header and one descriptor, the partial bit set. -/
def recvOne : ZmgmtRecvCommand := ⟨0, 31, 0, 0, true⟩

theorem zone_report_sound_recvOne :
    ∃ t, ReportSound zn540 (znsInitFtl zn540 (fun _ => 0) fun _ => 0) (fun _ => 0)
      ⟨fun _ => 0, fun _ => 0⟩ recvOne t :=
  (zone_report_sound_iff (by decide)).2 ⟨by decide, by decide⟩

/-- A page of the report on two zones is asked for, which fills 192 bytes. -/
def recvPage : ZmgmtRecvCommand := ⟨0, 1023, 0, 0, false⟩

theorem zone_report_overread :
    recvPage.length = 4096 ∧ filledSize (nrZoneToReport zn540 recvPage) = 192 ∧
      ¬ ∃ t, ReportSound zn540 (znsInitFtl zn540 (fun _ => 0) fun _ => 0) (fun _ => 0)
        ⟨fun _ => 0, fun _ => 0⟩ recvPage t := by
  have hlen : recvPage.length = 4096 := by decide
  have hfilled : filledSize (nrZoneToReport zn540 recvPage) = 192 := by decide
  refine ⟨hlen, hfilled, fun ⟨t, ht⟩ => ?_⟩
  have hle := ht.length_le (by decide)
  omega

end WaitGc

/-
  WAITGC verification — zones and the numbers of their blocks.

  `__init_descriptor` adds up where the zones start in 64 bits;
  `zone_to_slba` and `zone_to_elba` multiply in 32 bits.
  `conversions_exact_iff`: on the devices of the repository the two agree, and
  a zone becomes full exactly when its write pointer reaches the end, exactly if
  the device is smaller than 2 TiB.
-/
import WaitGc.Proof.ZoneDevices
import WaitGc.Theorems.SequentialWrites

namespace WaitGc

open Outcome Function

variable {m : ZnsConfig} {capacity : ℕ} {c : ZnsCfg} {zid : ℕ}

/-- The conversions between zones, blocks and pages are those of the descriptors. -/
structure ConversionsExact (c : ZnsCfg) : Prop where
  start : ∀ zid < c.zp.nrZones, zoneToSlba c zid = (initDescriptor c zid).zslba
  stop : ∀ zid < c.zp.nrZones,
    zoneToElba c zid + 1 = (initDescriptor c zid).zslba + (initDescriptor c zid).zoneCapacity
  -- the zone of a block is the only one whose range contains it
  zone : ∀ lba < c.zp.nrZones * lbasPerZone c, lbaToZone c lba < c.zp.nrZones ∧
    ∀ zid < c.zp.nrZones, lbaToZone c lba = zid ↔ (initDescriptor c zid).zslba ≤ lba ∧
      lba < (initDescriptor c zid).zslba + (initDescriptor c zid).zoneCapacity
  page : ∀ lba < c.zp.nrZones * lbasPerZone c, lpnToZone c (lbaToLpn c lba) = lbaToZone c lba
  full : ∀ (s : ZnsFtl) (zid nrLba : ℕ), zid < c.zp.nrZones →
    (initDescriptor c zid).SameLayout (s.zoneDescs zid) → (s.zoneDescs zid).state ≠ .full →
    let z := (increaseWritePtr c s zid nrLba).zoneDescs zid
    z.state = .full ↔ z.wp = z.zslba + z.zoneCapacity

/-! ## The descriptors -/

theorem lbas_lt (c : ZnsCfg) : c.zp.nrZones * lbasPerZone c < 2 ^ 55 := by
  have hzones := c.nrZones_lt
  have hsize := c.zoneSize_lt
  have hlbas : lbasPerZone c < 2 ^ 23 := by
    rw [lbasPerZone, show LBA_SIZE = 512 from rfl]
    omega
  calc c.zp.nrZones * lbasPerZone c < 2 ^ 32 * 2 ^ 23 :=
        Nat.mul_lt_mul'' hzones hlbas
    _ = 2 ^ 55 := by norm_num

theorem zoneStop_le (hzid : zid < c.zp.nrZones) :
    zid * lbasPerZone c + lbasPerZone c ≤ c.zp.nrZones * lbasPerZone c := by
  rw [← Nat.succ_mul]
  exact Nat.mul_le_mul_right _ hzid

theorem initDescriptor_zslba (hzid : zid < c.zp.nrZones) :
    (initDescriptor c zid).zslba = zid * lbasPerZone c := by
  have := lbas_lt c
  have := zoneStop_le hzid
  exact Nat.mod_eq_of_lt (by omega)

theorem zoneToSlba_of_lt (h : zid * lbasPerZone c < 2 ^ 32) : zoneToSlba c zid = zid * lbasPerZone c :=
  Nat.mod_eq_of_lt h

theorem zoneToElba_eq (hzid : zid < c.zp.nrZones) :
    zoneToElba c zid = sub64 (u32 (zid * lbasPerZone c + lbasPerZone c)) 1 := by
  have := c.nrZones_lt
  rw [zoneToElba, show u32 (zid + 1) = zid + 1 from Nat.mod_eq_of_lt (by omega), zoneToSlba,
    Nat.succ_mul]

theorem increaseWritePtr_descs (s : ZnsFtl) (zid nrLba : ℕ) :
    (increaseWritePtr c s zid nrLba).zoneDescs zid = (s.zoneDescs zid).advance c zid nrLba := by
  unfold increaseWritePtr ZoneDescriptor.advance
  dsimp only
  split_ifs with hend hover
  · rw [ZnsFtl.fill, ZnsFtl.changeZoneState_zoneDescs, update_self]
    show { update s.zoneDescs zid _ zid with state := ZoneState.full } = _
    rw [update_self]
  · exact update_self ..
  · exact update_self ..

/-! ## Devices of fewer than 2^32 blocks -/

section small
variable (h : c.zp.nrZones * lbasPerZone c < 2 ^ 32)
include h

theorem slba_exact (hzid : zid < c.zp.nrZones) : zoneToSlba c zid = (initDescriptor c zid).zslba := by
  have hstop := zoneStop_le hzid
  have hpos := lbasPerZone_pos c
  rw [initDescriptor_zslba hzid, zoneToSlba_of_lt (by omega)]

theorem elba_exact (hzid : zid < c.zp.nrZones) :
    zoneToElba c zid + 1 = (initDescriptor c zid).zslba + (initDescriptor c zid).zoneCapacity := by
  have hstop := zoneStop_le hzid
  have hpos := lbasPerZone_pos c
  rw [initDescriptor_zslba hzid, zoneToElba_eq hzid, u32, Nat.mod_eq_of_lt (by omega), sub64, u64]
  show _ = zid * lbasPerZone c + lbasPerZone c
  omega

/-- A zone is full when its write pointer is at its end. -/
theorem increaseWritePtr_full {s : ZnsFtl} (nrLba : ℕ) (hzid : zid < c.zp.nrZones)
    (hz : (initDescriptor c zid).SameLayout (s.zoneDescs zid))
    (hnot : (s.zoneDescs zid).state ≠ .full) :
    let z := (increaseWritePtr c s zid nrLba).zoneDescs zid
    z.state = .full ↔ z.wp = z.zslba + z.zoneCapacity := by
  have hend : u64 (zoneToSlba c zid + (s.zoneDescs zid).zoneCapacity) =
      (s.zoneDescs zid).zslba + (s.zoneDescs zid).zoneCapacity := by
    have hstop := zoneStop_le hzid
    have hcap : (s.zoneDescs zid).zoneCapacity = lbasPerZone c := hz.zoneCapacity
    rw [slba_exact h hzid, ← hz.zslba, u64, Nat.mod_eq_of_lt]
    rw [hz.zslba, hcap, initDescriptor_zslba hzid]
    omega
  rw [increaseWritePtr_descs]
  unfold ZoneDescriptor.advance
  dsimp only
  rw [hend]
  split_ifs with hwp
  · exact iff_of_true rfl hwp
  · exact iff_of_false hnot hwp

end small

/-! ## The theorem -/

/-- On a device of 2^32 blocks or more the end of the last zone is wrong. -/
theorem elba_wrong (h : 2 ^ 32 ≤ c.zp.nrZones * lbasPerZone c) :
    ∃ zid < c.zp.nrZones,
      zoneToElba c zid + 1 ≠ (initDescriptor c zid).zslba + (initDescriptor c zid).zoneCapacity := by
  have hpos : 0 < c.zp.nrZones := Nat.pos_of_ne_zero fun h0 => by rw [h0] at h; omega
  have hlast : c.zp.nrZones - 1 < c.zp.nrZones := by omega
  have hend : (c.zp.nrZones - 1) * lbasPerZone c + lbasPerZone c = c.zp.nrZones * lbasPerZone c := by
    rw [← Nat.succ_mul, Nat.succ_eq_add_one, Nat.sub_add_cancel hpos]
  have hlt := lbas_lt c
  refine ⟨_, hlast, ?_⟩
  rw [initDescriptor_zslba hlast, zoneToElba_eq hlast]
  show _ ≠ _ + lbasPerZone c
  rw [hend, sub64, u64, u32]
  omega

theorem conversionsExact_iff (c : ZnsCfg) :
    ConversionsExact c ↔ c.zp.nrZones * lbasPerZone c < 2 ^ 32 := by
  constructor
  · intro hexact
    by_contra h
    obtain ⟨zid, hzid, hne⟩ := elba_wrong (Nat.le_of_not_lt h)
    exact hne (hexact.stop zid hzid)
  · intro h
    have hpos := lbasPerZone_pos c
    refine ⟨fun zid hzid => slba_exact h hzid, fun zid hzid => elba_exact h hzid, ?_,
      fun lba _ => lpnToZone_lbaToLpn c lba, fun s zid n hzid hz => increaseWritePtr_full h n hzid hz⟩
    intro lba hlba
    have hdiv : lba / lbasPerZone c < c.zp.nrZones := Nat.div_lt_of_lt_mul (by rwa [Nat.mul_comm] at hlba)
    have hlt := c.nrZones_lt
    rw [lbaToZone, u32, Nat.mod_eq_of_lt (by omega)]
    refine ⟨hdiv, fun zid hzid => ?_⟩
    rw [initDescriptor_zslba hzid, Nat.div_eq_iff hpos]
    show _ ↔ _ ∧ _ < _ + lbasPerZone c
    omega

theorem ZnsConfig.Inits.lbas (hm : Shipped m) (hinit : m.Inits capacity c) :
    c.zp.nrZones * lbasPerZone c = capacity / 512 := by
  have hwhole := hinit.whole
  have hzones := hinit.fits
  rw [lbasPerZone, hinit.zp, show LBA_SIZE = 512 from rfl]
  show u32 (capacity / m.zoneSize) * (m.zoneSize / 512) = _
  rw [u32, Nat.mod_eq_of_lt hzones]
  rcases hm with rfl | rfl
  · simp only [wdZn540] at hwhole ⊢
    omega
  · simp only [znsPrototype] at hwhole ⊢
    omega

/-- **The conversions are exact** exactly on the devices below 2 TiB. -/
theorem conversions_exact_iff (hm : Shipped m) (hinit : m.Inits capacity c) :
    ConversionsExact c ↔ capacity < 2 ^ 41 := by
  rw [conversionsExact_iff, hinit.lbas hm]
  omega

theorem conversions_exact_zn540 : ConversionsExact zn540 :=
  (conversions_exact_iff (.inl rfl) wdZn540_inits).2 (by decide)

/-- A `WD_ZN540` of 4 TiB. -/
def zn540Large : ZnsCfg where
  sp := { zn540Params with
    blksPerPl := 2048
    pgsPerPl := 33570816
    pgsPerLun := 33570816
    pgsPerCh := 134283264
    ttPgs := 1074266112
    blksPerLun := 2048
    ttLines := 2048 }
  writeUnitSize := 512
  zp := { zn540.zp with nrZones := 2048 }
  secsPerPg_eq := rfl
  pgsz_eq := rfl
  zoneSize_pos := by decide
  zoneSize_mod := by decide
  zoneSize_lt := by decide
  nrZones_lt := by decide

theorem zn540Large_inits : wdZn540.Inits (2 ^ 42) zn540Large where
  whole := by decide
  fits := by decide
  sp := by
    have hlba : LBA_SIZE = 512 := rfl
    unfold ssdInitParams
    simp only [wdZn540, hlba]
    norm_num [nvmevAssert, require, zn540Large, zn540Params, divRoundUp, u64, int32, ulong]
    decide
  writeUnitSize := rfl
  zp := by rfl

/-- There the start of zone 1024 is taken to be block 0. -/
theorem conversions_wrapped :
    wdZn540.Inits (2 ^ 42) zn540Large ∧ zoneToSlba zn540Large 1024 = 0 ∧
      (initDescriptor zn540Large 1024).zslba = 2 ^ 32 ∧ ¬ ConversionsExact zn540Large := by
  have hlt : 1024 < zn540Large.zp.nrZones := by decide
  have hslba : zoneToSlba zn540Large 1024 = 0 := rfl
  have hzslba : (initDescriptor zn540Large 1024).zslba = 2 ^ 32 := by
    rw [initDescriptor_zslba hlt]
    rfl
  refine ⟨zn540Large_inits, hslba, hzslba, fun h => ?_⟩
  have hstart := h.start 1024 hlt
  rw [hslba, hzslba] at hstart
  norm_num at hstart

end WaitGc

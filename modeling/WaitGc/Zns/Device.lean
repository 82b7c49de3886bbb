/-
  WAITGC verification — the zoned devices of the repository
  (`BASE_SSD == WD_ZN540`, `BASE_SSD == ZNS_PROTOTYPE` of `ssd_config.h`) and
  their initialisation (`zns_init_params`).

  `zn540` is a `WD_ZN540` with a capacity of two zones.
-/
import WaitGc.Zns.Namespace

namespace WaitGc

/-! ## Configurations -/

/-- The macros of a zoned `BASE_SSD`. -/
structure ZnsConfig where
  ssd : SsdConfig
  writeUnitSize : ℕ
  diesPerZone : ℕ
  zoneSize : ℕ
  zoneWbSize : ℕ
  zrwafgSize : ℕ
  zrwaSize : ℕ
  zrwaBufferSize : ℕ

/-- `BASE_SSD == WD_ZN540` -/
def wdZn540 : ZnsConfig where
  ssd := {
    ssdPartitions := 1
    nandChannels := 8
    lunsPerNandCh := 4
    plnsPerLun := 1
    cellMode := 3
    flashPageSize := 32768
    oneshotPageSize := 32768 * 3
    blksPerPln := 0
    blkSize := 2 ^ 31 / (8 * 4)
    maxChXferSize := 32768
    nandChannelBandwidth := 450
    pcieBandwidth := 3050
    nand4kbReadLatency := fun _ => 50000
    nandReadLatency := fun _ => 58000
    nandProgLatency := 561000
    nandEraseLatency := 0
    fw4kbReadLatency := 20000
    fwReadLatency := 13000
    fwWbufLatency0 := 5600
    fwWbufLatency1 := 600
    fwChXferLatency := 0
    globalWbSize := 0
    writeEarlyCompletion := true }
  writeUnitSize := 512
  diesPerZone := 8 * 4
  zoneSize := 2 ^ 31
  zoneWbSize := 10 * (32768 * 3)
  zrwafgSize := 0
  zrwaSize := 0
  zrwaBufferSize := 0

/-- `BASE_SSD == ZNS_PROTOTYPE` -/
def znsPrototype : ZnsConfig where
  ssd := {
    ssdPartitions := 1
    nandChannels := 8
    lunsPerNandCh := 16
    plnsPerLun := 1
    cellMode := 3
    flashPageSize := 65536
    oneshotPageSize := 65536 * 2
    blksPerPln := 0
    blkSize := 2 ^ 25 / 1
    maxChXferSize := 65536
    nandChannelBandwidth := 800
    pcieBandwidth := 3200
    nand4kbReadLatency := fun _ => 25485
    nandReadLatency := fun _ => 40950
    nandProgLatency := 1913640
    nandEraseLatency := 0
    fw4kbReadLatency := 37540 - 7390 + 2000
    fwReadLatency := 37540 - 7390 + 2000
    fwWbufLatency0 := 0
    fwWbufLatency1 := 0
    fwChXferLatency := 413
    globalWbSize := 8 * 16 * (65536 * 2) * 2
    writeEarlyCompletion := false }
  writeUnitSize := 65536 * 2
  diesPerZone := 1
  zoneSize := 2 ^ 25
  zoneWbSize := 0
  zrwafgSize := 0
  zrwaSize := 0
  zrwaBufferSize := 0

/-- The configurations the repository ships. -/
def Shipped (m : ZnsConfig) : Prop := m = wdZn540 ∨ m = znsPrototype

/-! ## Initialisation -/

/-- `zns_init_params`; the number of zones has 32 bits. -/
def znsInitParams (m : ZnsConfig) (capacity : ℕ) : ZnsParams where
  nrZones := u32 (capacity / m.zoneSize)
  diesPerZone := m.diesPerZone
  zoneSize := m.zoneSize
  zoneWbSize := m.zoneWbSize
  zrwaSize := m.zrwaSize
  zrwaBufferSize := m.zrwaBufferSize
  lbasPerZrwafg := m.zrwafgSize / LBA_SIZE
  lbasPerZrwa := m.zrwaSize / LBA_SIZE

/-- `zns_init_namespace` sets up `c`.  It asserts that the capacity is one of whole
    zones; the number of zones fits its field. -/
structure ZnsConfig.Inits (m : ZnsConfig) (capacity : ℕ) (c : ZnsCfg) : Prop where
  whole : capacity % m.zoneSize = 0
  fits : capacity / m.zoneSize < 2 ^ 32
  sp : ssdInitParams m.ssd capacity 1 = .ok c.sp
  writeUnitSize : c.writeUnitSize = m.writeUnitSize
  zp : c.zp = znsInitParams m capacity

/-! ## A device of two zones -/

/-- What `ssd_init_params` derives from the macros of the device. -/
def zn540Params : SsdParams where
  secsPerPg := 8
  pgsz := 4096
  pgsPerFlashpg := 8
  flashpgsPerBlk := 2049
  pgsPerOneshotpg := 24
  oneshotpgsPerBlk := 683
  pgsPerBlk := 16392
  blksPerPl := 2
  plsPerLun := 1
  lunsPerCh := 4
  nchs := 8
  cellMode := 3
  writeEarlyCompletion := true
  pg4kbRdLat _ := 50000
  pgRdLat _ := 58000
  pgWrLat := 561000
  blkErLat := 0
  maxChXferSize := 32768
  fw4kbRdLat := 20000
  fwRdLat := 13000
  fwWbufLat0 := 5600
  fwWbufLat1 := 600
  fwChXferLat := 0
  chBandwidth := 450
  pcieBandwidth := 3050
  pgsPerPl := 32784
  pgsPerLun := 32784
  pgsPerCh := 131136
  ttPgs := 1049088
  blksPerLun := 2
  ttLuns := 32
  blksPerLine := 32
  pgsPerLine := 524544
  ttLines := 2
  writeBufferSize := 0

/-- What `zns_init_params` adds. -/
def zn540 : ZnsCfg where
  sp := zn540Params
  writeUnitSize := 512
  zp := {
    nrZones := 2
    diesPerZone := 32
    zoneSize := 2 ^ 31
    zoneWbSize := 983040
    zrwaSize := 0
    zrwaBufferSize := 0
    lbasPerZrwafg := 0
    lbasPerZrwa := 0 }
  secsPerPg_eq := rfl
  pgsz_eq := rfl
  zoneSize_pos := by decide
  zoneSize_mod := by decide
  zoneSize_lt := by decide
  nrZones_lt := by decide

end WaitGc

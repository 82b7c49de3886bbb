/-
  WAITGC verification — device geometry and physical page addresses
  (`ssd_config.h`, `ssd.h`, `ssd_init_params` of `ssd.c`, `ppa2pgidx` of
  `conv_ftl.c`).

  * `SsdConfig` holds the macros of one `BASE_SSD`; `samsung970Pro` is the
    conventional SSD the repository builds.
  * `ssdInitParams` derives the geometry from the capacity, with the widths of
    the C fields: a product of `int`s wraps to 32 bits, and the counts of type
    `unsigned long` wrap to 64.  An `int` field that wrapped to a negative
    value is kept as `0`: every use of it is a loop bound or the upper end of
    a range check, which is empty in both cases.
  * `Ppa` is `struct ppa`: the bit fields of one 64-bit word.
-/
import WaitGc.Basic
import WaitGc.Lib.Radix

namespace WaitGc

open Outcome

/-! ## Configuration -/

/-- `LBA_BITS`, the same for every `BASE_SSD`. -/
def LBA_BITS : ℕ := 9

/-- `LBA_SIZE`. -/
def LBA_SIZE : ℕ := 1 <<< LBA_BITS

/-- The macros of a `BASE_SSD` that `ssd_init_params` reads. -/
structure SsdConfig where
  ssdPartitions : ℕ
  nandChannels : ℕ
  lunsPerNandCh : ℕ
  plnsPerLun : ℕ
  cellMode : ℕ
  flashPageSize : ℕ
  oneshotPageSize : ℕ
  blksPerPln : ℕ
  blkSize : ℕ
  maxChXferSize : ℕ
  nandChannelBandwidth : ℕ
  pcieBandwidth : ℕ
  nand4kbReadLatency : ℕ → ℕ
  nandReadLatency : ℕ → ℕ
  nandProgLatency : ℕ
  nandEraseLatency : ℕ
  fw4kbReadLatency : ℕ
  fwReadLatency : ℕ
  fwWbufLatency0 : ℕ
  fwWbufLatency1 : ℕ
  fwChXferLatency : ℕ
  globalWbSize : ℕ
  writeEarlyCompletion : Bool

/-- `BASE_SSD == SAMSUNG_970PRO`. -/
def samsung970Pro : SsdConfig where
  ssdPartitions := 1
  nandChannels := 8
  lunsPerNandCh := 2
  plnsPerLun := 1
  cellMode := 3
  flashPageSize := 16384
  oneshotPageSize := 16384 * 3
  blksPerPln := 32
  blkSize := 0
  maxChXferSize := 16384
  nandChannelBandwidth := 800
  pcieBandwidth := 3360
  nand4kbReadLatency _ := 45000
  nandReadLatency _ := 45000
  nandProgLatency := 1140000
  nandEraseLatency := 3500000
  fw4kbReadLatency := 21500
  fwReadLatency := 30490
  fwWbufLatency0 := 4000
  fwWbufLatency1 := 460
  fwChXferLatency := 0
  globalWbSize := 8 * 2 * (16384 * 3) * 2
  writeEarlyCompletion := true

/-! ## Parameters -/

/-- `struct ssdparams`, the fields the FTL and the timing model read. -/
structure SsdParams where
  secsPerPg : ℕ
  pgsz : ℕ
  pgsPerFlashpg : ℕ
  flashpgsPerBlk : ℕ
  pgsPerOneshotpg : ℕ
  oneshotpgsPerBlk : ℕ
  pgsPerBlk : ℕ
  blksPerPl : ℕ
  plsPerLun : ℕ
  lunsPerCh : ℕ
  nchs : ℕ
  cellMode : ℕ
  writeEarlyCompletion : Bool
  pg4kbRdLat : ℕ → ℕ
  pgRdLat : ℕ → ℕ
  pgWrLat : ℕ
  blkErLat : ℕ
  maxChXferSize : ℕ
  fw4kbRdLat : ℕ
  fwRdLat : ℕ
  fwWbufLat0 : ℕ
  fwWbufLat1 : ℕ
  fwChXferLat : ℕ
  chBandwidth : ℕ
  pcieBandwidth : ℕ
  pgsPerPl : ℕ
  pgsPerLun : ℕ
  pgsPerCh : ℕ
  ttPgs : ℕ
  blksPerLun : ℕ
  ttLuns : ℕ
  blksPerLine : ℕ
  pgsPerLine : ℕ
  ttLines : ℕ
  writeBufferSize : ℕ

/-- `ssd_init_params(spp, capacity, nparts)`. -/
def ssdInitParams (m : SsdConfig) (capacity nparts : ℕ) : Except Fault SsdParams := do
  let secsPerPg := 4096 / LBA_SIZE
  let pgsz := LBA_SIZE * secsPerPg
  -- partitioning SSD by dividing channel
  nvmevAssert (m.nandChannels % nparts = 0) .initParams
  let nchs := m.nandChannels / nparts
  let capacity := capacity / nparts
  nvmevAssert (0 < m.blksPerPln ∨ 0 < m.blkSize) .initParams
  let (blksPerPl, blkSize) : ℤ × ℕ :=
    if 0 < m.blksPerPln then
      (m.blksPerPln, divRoundUp capacity (m.blksPerPln * m.plnsPerLun * m.lunsPerNandCh * nchs))
    else
      (int32 (divRoundUp capacity (m.blkSize * m.plnsPerLun * m.lunsPerNandCh * nchs)), m.blkSize)
  nvmevAssert (m.oneshotPageSize % pgsz = 0 ∧ m.flashPageSize % pgsz = 0) .initParams
  nvmevAssert (m.oneshotPageSize % m.flashPageSize = 0) .initParams
  let pgsPerOneshotpg := m.oneshotPageSize / pgsz
  let oneshotpgsPerBlk := int32 (divRoundUp blkSize m.oneshotPageSize)
  let flashpgsPerBlk := int32 ((m.oneshotPageSize / m.flashPageSize : ℕ) * oneshotpgsPerBlk)
  let pgsPerBlk := int32 (pgsPerOneshotpg * oneshotpgsPerBlk)
  let pgsPerPl := ulong (int32 (pgsPerBlk * blksPerPl))
  let pgsPerLun := u64 (pgsPerPl * m.plnsPerLun)
  let pgsPerCh := u64 (pgsPerLun * m.lunsPerNandCh)
  let blksPerLun := ulong (int32 (blksPerPl * m.plnsPerLun))
  let ttLuns := m.lunsPerNandCh * nchs
  pure {
    secsPerPg, pgsz, nchs, pgsPerOneshotpg
    pgsPerFlashpg := m.flashPageSize / pgsz
    flashpgsPerBlk := flashpgsPerBlk.toNat
    oneshotpgsPerBlk := oneshotpgsPerBlk.toNat
    pgsPerBlk := pgsPerBlk.toNat
    blksPerPl := blksPerPl.toNat
    plsPerLun := m.plnsPerLun
    lunsPerCh := m.lunsPerNandCh
    cellMode := m.cellMode
    writeEarlyCompletion := m.writeEarlyCompletion
    pg4kbRdLat := m.nand4kbReadLatency
    pgRdLat := m.nandReadLatency
    pgWrLat := m.nandProgLatency
    blkErLat := m.nandEraseLatency
    maxChXferSize := m.maxChXferSize
    fw4kbRdLat := m.fw4kbReadLatency
    fwRdLat := m.fwReadLatency
    fwWbufLat0 := m.fwWbufLatency0
    fwWbufLat1 := m.fwWbufLatency1
    fwChXferLat := m.fwChXferLatency
    chBandwidth := m.nandChannelBandwidth
    pcieBandwidth := m.pcieBandwidth
    pgsPerPl, pgsPerLun, pgsPerCh
    ttPgs := u64 (pgsPerCh * nchs)
    blksPerLun, ttLuns
    -- line is special
    blksPerLine := ttLuns
    pgsPerLine := u64 (ttLuns * ulong pgsPerBlk)
    ttLines := blksPerLun
    writeBufferSize := m.globalWbSize }

/-! ## Physical page addresses -/

/-- `INVALID_LPN`. -/
def INVALID_LPN : ℕ := 2 ^ 64 - 1

/-- `UNMAPPED_PPA`. -/
def UNMAPPED_PPA : BitVec 64 := BitVec.allOnes 64

/-- `struct ppa`: the bit fields, from the least significant one up. -/
structure Ppa where
  pg : BitVec 16
  blk : BitVec 16
  pl : BitVec 8
  lun : BitVec 8
  ch : BitVec 8
  rsv : BitVec 8
  deriving DecidableEq, Repr

/-- The 64-bit view of the union. -/
def Ppa.ppa (p : Ppa) : BitVec 64 :=
  p.rsv ++ p.ch ++ p.lun ++ p.pl ++ p.blk ++ p.pg

/-- Writing the 64-bit view. -/
def Ppa.ofBits (w : BitVec 64) : Ppa where
  pg := w.extractLsb' 0 16
  blk := w.extractLsb' 16 16
  pl := w.extractLsb' 32 8
  lun := w.extractLsb' 40 8
  ch := w.extractLsb' 48 8
  rsv := w.extractLsb' 56 8

/-- `ppa.ppa = 0` followed by stores to the five fields; each store keeps the
    bits that fit the field. -/
def Ppa.store (ch lun pl blk pg : ℕ) : Ppa where
  pg := .ofNat 16 pg
  blk := .ofNat 16 blk
  pl := .ofNat 8 pl
  lun := .ofNat 8 lun
  ch := .ofNat 8 ch
  rsv := 0

/-- The value of the unmapped entry. -/
def Ppa.unmapped : Ppa := .ofBits UNMAPPED_PPA

/-- `mapped_ppa`. -/
def mappedPpa (p : Ppa) : Bool := p.ppa != UNMAPPED_PPA

/-- `h.blk_in_ssd`: block, plane, LUN and channel as one field. -/
def Ppa.blkInSsd (p : Ppa) : BitVec 40 := p.ch ++ p.lun ++ p.pl ++ p.blk

variable (sp : SsdParams)

/-- The page index `ppa2pgidx` computes. -/
def Ppa.pgidx (p : Ppa) : ℕ :=
  u64 (p.ch.toNat * sp.pgsPerCh + p.lun.toNat * sp.pgsPerLun + p.pl.toNat * sp.pgsPerPl +
    p.blk.toNat * sp.pgsPerBlk + p.pg.toNat)

/-- `ppa2pgidx`. -/
def ppa2pgidx (p : Ppa) : Except Fault ℕ := do
  nvmevAssert (p.pgidx sp < sp.ttPgs) .ppa2pgidx
  pure (p.pgidx sp)

/-- `valid_ppa`: the fields are coordinates of the geometry. -/
def validPpa (p : Ppa) : Bool :=
  p.ch.toNat < sp.nchs && p.lun.toNat < sp.lunsPerCh && p.pl.toNat < sp.plsPerLun &&
    p.blk.toNat < sp.blksPerPl && p.pg.toNat < sp.pgsPerBlk

/-- `valid_lpn`. -/
def validLpn (lpn : ℕ) : Prop := lpn < sp.ttPgs

instance (lpn : ℕ) : Decidable (validLpn sp lpn) := inferInstanceAs (Decidable (_ < _))

/-- `last_pg_in_wordline`. -/
def lastPgInWordline (p : Ppa) : Bool :=
  p.pg.toNat % sp.pgsPerOneshotpg == sp.pgsPerOneshotpg - 1

end WaitGc

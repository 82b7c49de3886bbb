/-
  WAITGC verification — writing and reading zones (`zns_read_write.c`).

  A write is admitted or refused in one step (`znsWriteAdmit`, `zrwaAdmit`): the
  checks in the order of the source, and the `switch` on the zone's state, which
  may open the zone before it refuses.  Then the write pointer moves and the
  write is timed.

  The loops go over flash pages; each turn covers at least one page.
-/
import WaitGc.Ftl.Commands
import WaitGc.Zns.State

namespace WaitGc

open Outcome Function

variable (c : ZnsCfg)

/-- `__check_boundary_error`: whether the blocks lie in one zone.  `nr_lba` has
    32 bits. -/
def checkBoundaryError (slba nrLba : ℕ) : Bool :=
  lbaToZone c slba = lbaToZone c (sub64 (u64 (slba + u32 nrLba)) 1)

/-- The state a zone enters when its write pointer reaches the end. -/
def ZnsFtl.fill (s : ZnsFtl) (zid : ℕ) : ZnsFtl :=
  ((s.releaseZoneResource .openZone).releaseZoneResource .activeZone).changeZoneState zid .full

/-- `__increase_write_ptr`.  `nr_lba` has 32 bits. -/
def increaseWritePtr (s : ZnsFtl) (zid nrLba : ℕ) : ZnsFtl :=
  let z := s.zoneDescs zid
  let wp := u64 (z.wp + u32 nrLba)
  let s := s.setZone zid { z with wp }
  if wp = u64 (zoneToSlba c zid + z.zoneCapacity) then s.fill zid
  else if u64 (zoneToSlba c zid + z.zoneCapacity) < wp then
    { s with boundaryErrors := s.boundaryErrors + 1 }
  else s

/-- `__lpn_to_ppa` -/
def lpnToPpa (lpn : ℕ) : Ppa :=
  let zone := lpnToZone c lpn
  let off := sub64 lpn (zoneToSlpn c zone)
  let sdie := u32 (zone * c.zp.diesPerZone % c.sp.ttLuns)
  let die := u32 (sdie + off / c.sp.pgsPerOneshotpg % c.zp.diesPerZone)
  .store (dieToChannel c die) (dieToLun c die) 0 0 (off % c.sp.pgsPerOneshotpg)

/-! ## Timing of a write -/

/-- What the loops over the flash pages change. -/
structure FlashJob where
  timing : Timing
  pending : List ZnsOp
  nsecsLatest : ℕ

/-- "Aggregate write io in flash page": program one, and schedule the release of
    `bufs` bytes of `buf`. -/
def programFlashPage (sqid xferCompleted bufs : ℕ) (buf : ZnsBuffer) (ppa : Ppa) (j : FlashJob) :
    FlashJob :=
  let (completed, timing) := ssdAdvanceNand c.sp 0 j.timing
    ⟨.write, c.sp.pgsPerOneshotpg * c.sp.pgsz, xferCompleted, false, ppa⟩
  { timing
    pending := j.pending ++ [⟨sqid, completed, buf, bufs⟩]
    nsecsLatest := max completed j.nsecsLatest }

/-- The loop of `__zns_write`, with at most `fuel` turns. -/
def writeFlashPages (sqid xferCompleted elpn zoneElpn : ℕ) (buf : ZnsBuffer) :
    ℕ → ℕ → FlashJob → FlashJob
  | 0, _, j => j
  | fuel + 1, lpn, j =>
    if lpn ≤ elpn then
      let ppa := lpnToPpa c lpn
      let pgOff := ppa.pg.toNat % c.sp.pgsPerOneshotpg
      let pgs := min (elpn - lpn + 1) (c.sp.pgsPerOneshotpg - pgOff)
      let unalignedSpace := c.zp.zoneSize % (c.sp.pgsPerOneshotpg * c.sp.pgsz)
      let bufs := if lpn + pgs - 1 = zoneElpn ∧ 0 < unalignedSpace then unalignedSpace
        else c.sp.pgsPerOneshotpg * c.sp.pgsz
      let j := if pgOff + pgs = c.sp.pgsPerOneshotpg ∨ lpn + pgs - 1 = zoneElpn then
          programFlashPage c sqid xferCompleted bufs buf ppa j
        else j
      writeFlashPages sqid xferCompleted elpn zoneElpn buf fuel (lpn + pgs) j
    else j

/-- The loop of `__zns_write_zrwa` over the pages that leave the random write
    area. -/
def flushFlashPages (sqid xferCompleted : ℕ) (buf : ZnsBuffer) : ℕ → ℕ → ℕ → FlashJob → FlashJob
  | 0, _, _, j => j
  | fuel + 1, lpn, remaining, j =>
    if 0 < remaining then
      let ppa := lpnToPpa c lpn
      let pgOff := ppa.pg.toNat % c.sp.pgsPerOneshotpg
      let pgs := min remaining (c.sp.pgsPerOneshotpg - pgOff)
      let j := if pgOff + pgs = c.sp.pgsPerOneshotpg then
          programFlashPage c sqid xferCompleted (c.sp.pgsPerOneshotpg * c.sp.pgsz) buf ppa j
        else j
      flushFlashPages sqid xferCompleted buf fuel (lpn + pgs) (remaining - pgs) j
    else j

/-! ## Results -/

/-- `struct nvmev_result` -/
structure ZnsResult where
  status : ZnsStatus
  result : ℕ
  nsecsTarget : ℕ
  deriving DecidableEq, Repr

/-- The end of a write: `out`. -/
def writeResult (rw : RwCommand) (status : ZnsStatus) (result nsecsLatest nsecsXferCompleted : ℕ) :
    ZnsResult where
  status := status
  result := result
  nsecsTarget := if rw.fua || !c.sp.writeEarlyCompletion then nsecsLatest else nsecsXferCompleted

/-- The outcome of a command: the result (`none` if the handler returns `false`),
    the `slba` the submission entry holds afterwards, and the namespace. -/
structure ZnsOutcome where
  ret : Option ZnsResult
  slba : ℕ
  ftl : ZnsFtl

/-! ## Writes outside a random write area -/

/-- The checks of `__zns_write`, and its `switch`. -/
def znsWriteAdmit (s : ZnsFtl) (zid slba nrLba : ℕ) : ZnsStatus × ZnsFtl :=
  let z := s.zoneDescs zid
  if lbaToByte nrLba % c.writeUnitSize ≠ 0 then (.invalidWrite, s)
  else if checkBoundaryError c slba nrLba = false then (.errBoundary, s)
  else if slba ≠ z.wp then (.invalidWrite, s)
  else match z.state with
    | .empty =>
      if slba ≠ z.zslba then (.invalidWrite, s)
      else if s.isZoneResourceFull .activeZone then (.noActiveZone, s)
      else if s.isZoneResourceFull .openZone then (.noOpenZone, s)
      else openImpl (s.acquireZoneResource .activeZone).2 zid
    | .closed => openImpl s zid
    | .openedImpl | .openedExpl => (.success, s)
    | .full => (.errFull, s)
    | .readOnly => (.errReadOnly, s)
    | .offline => (.errOffline, s)
where
  /-- The case of a closed zone, which that of an empty one runs into. -/
  openImpl (s : ZnsFtl) (zid : ℕ) : ZnsStatus × ZnsFtl :=
    match s.acquireZoneResource .openZone with
    | (false, s) => (.noOpenZone, s)
    | (true, s) => (.success, s.changeZoneState zid .openedImpl)

/-- The timing of an admitted write. -/
def znsWriteTiming (s : ZnsFtl) (sqid nsecsStart zid slba nrLba : ℕ) (buf : ZnsBuffer) :
    ℕ × FlashJob :=
  let slpn := lbaToLpn c slba
  let elpn := lbaToLpn c (sub64 (u64 (slba + nrLba)) 1)
  let (xferCompleted, timing) := ssdAdvanceWriteBuffer c.sp s.timing nsecsStart (lbaToByte nrLba)
  (xferCompleted, writeFlashPages c sqid xferCompleted elpn (zoneToElpn c zid) buf
    (elpn + 1 - slpn) slpn ⟨timing, s.pending, xferCompleted⟩)

/-- `__zns_write`; `append` if the opcode is `nvme_cmd_zone_append`. -/
def znsWriteSeq (s : ZnsFtl) (sqid nsecsStart : ℕ) (append : Bool) (rw : RwCommand) :
    Except ZnsFault ZnsOutcome := do
  let nrLba := rw.nrLba
  let zid := lbaToZone c rw.slba.toNat
  let slba := if append then (s.zoneDescs zid).wp else rw.slba.toNat
  let result := if append then slba else 0
  let buf := if c.zp.zoneWbSize ≠ 0 then .zone zid else .ssd
  let (allocated, wbuf) ← liftZns (bufferAllocate (s.buffers buf) (lbaToByte nrLba))
  let s := s.setBuffer buf wbuf
  if allocated < lbaToByte nrLba then pure ⟨none, slba, s⟩
  else
    let (status, s) := znsWriteAdmit c s zid slba nrLba
    if status = .success then
      let s := increaseWritePtr c s zid nrLba
      let (xferCompleted, j) := znsWriteTiming c s sqid nsecsStart zid slba nrLba buf
      pure ⟨some (writeResult c rw .success result j.nsecsLatest xferCompleted), slba,
        { s with timing := j.timing, pending := j.pending }⟩
    else pure ⟨some (writeResult c rw status result nsecsStart nsecsStart), slba, s⟩

/-! ## Writes to a random write area -/

/-- `buffer_allocate(&zrwa_buffer[zid], size)`. -/
def zrwaAllocate (s : ZnsFtl) (zid size : ℕ) : Except ZnsFault (ℕ × ZnsFtl) := do
  require (c.zp.zrwaBufferSize ≠ 0) .nullPointer
  let (allocated, buf) ← liftZns (bufferAllocate (s.buffers (.zrwa zid)) size)
  pure (allocated, s.setBuffer (.zrwa zid) buf)

/-- `zrwa_impl_start`, `zrwa_impl_end`; `2 * lbas_per_zrwa` has 32 bits. -/
def zrwaImplStart (wp : ℕ) : ℕ := u64 (wp + c.zp.lbasPerZrwa)

def zrwaImplEnd (wp : ℕ) : ℕ := sub64 (u64 (wp + u32 (2 * c.zp.lbasPerZrwa))) 1

/-- The checks of `__zns_write_zrwa`, and its `switch`. -/
def zrwaAdmit (s : ZnsFtl) (zid slba nrLba : ℕ) : Except ZnsFault (ZnsStatus × ZnsFtl) :=
  let z := s.zoneDescs zid
  let elba := sub64 (u64 (slba + nrLba)) 1
  if lbaToByte nrLba % c.writeUnitSize ≠ 0 then pure (.invalidWrite, s)
  else if checkBoundaryError c slba nrLba = false then pure (.errBoundary, s)
  else if slba < z.wp ∨ zrwaImplEnd c z.wp < elba then pure (.invalidWrite, s)
  else match z.state with
    | .closed | .empty =>
      match s.acquireZoneResource .openZone with
      | (false, s) => pure (.noOpenZone, s)
      | (true, s) => do
        let (allocated, s) ← zrwaAllocate c s zid c.zp.zrwaSize
        require (allocated ≠ 0) .zrwaAssert
        pure (.success, s.changeZoneState zid .openedImpl)
    | .openedImpl | .openedExpl => pure (.success, s)
    | .full => pure (.errFull, s)
    | .readOnly => pure (.errReadOnly, s)
    | .offline => pure (.errOffline, s)

/-- `nr_lbas_flush`: how far the write pushes the write pointer. -/
def nrLbasFlush (zid wp elba : ℕ) : Except ZnsFault ℕ :=
  if zrwaImplStart c wp ≤ elba then do
    require (c.zp.lbasPerZrwafg ≠ 0) .divideByZero
    pure (u64 (divRoundUp (sub64 elba (zrwaImplStart c wp) + 1) c.zp.lbasPerZrwafg *
      c.zp.lbasPerZrwafg))
  else if elba = zoneToElba c zid then pure (u64 (sub64 elba wp + 1))
  else pure 0

/-- `__zns_write_zrwa` -/
def znsWriteZrwa (s : ZnsFtl) (sqid nsecsStart : ℕ) (rw : RwCommand) :
    Except ZnsFault ZnsOutcome := do
  let slba := rw.slba.toNat
  let nrLba := rw.nrLba
  let elba := sub64 (u64 (slba + nrLba)) 1
  let zid := lbaToZone c slba
  let prevWp := (s.zoneDescs zid).wp
  let (status, s) ← zrwaAdmit c s zid slba nrLba
  if status = .success then
    let flush ← nrLbasFlush c zid prevWp elba
    let (allocated, s) ← if 0 < flush then zrwaAllocate c s zid (lbaToByte flush) else pure (1, s)
    if allocated = 0 then pure ⟨none, slba, s⟩
    else
      let s := if 0 < flush then increaseWritePtr c s zid flush else s
      let (xferCompleted, timing) := ssdAdvanceWriteBuffer c.sp s.timing nsecsStart (lbaToByte nrLba)
      let pages := flush / c.sp.secsPerPg
      let j := flushFlashPages c sqid xferCompleted (.zrwa zid) pages (lbaToLpn c prevWp) pages
        ⟨timing, s.pending, xferCompleted⟩
      pure ⟨some (writeResult c rw .success 0 j.nsecsLatest xferCompleted), slba,
        { s with timing := j.timing, pending := j.pending }⟩
  else pure ⟨some (writeResult c rw status 0 nsecsStart nsecsStart), slba, s⟩

/-- `zns_write` -/
def znsWrite (s : ZnsFtl) (sqid nsecsStart : ℕ) (append : Bool) (rw : RwCommand) :
    Except ZnsFault ZnsOutcome :=
  let zid := lpnToZone c (lbaToLpn c rw.slba.toNat)
  if (s.zoneDescs zid).zrwav = false then znsWriteSeq c s sqid nsecsStart append rw
  else znsWriteZrwa c s sqid nsecsStart rw

/-! ## Reads -/

/-- The loop of `zns_read`. -/
def readFlashPages (stime elpn : ℕ) : ℕ → ℕ → ℕ × Timing → ℕ × Timing
  | 0, _, j => j
  | fuel + 1, lpn, j =>
    if lpn ≤ elpn then
      let ppa := lpnToPpa c lpn
      let pgOff := ppa.pg.toNat % c.sp.pgsPerFlashpg
      let pgs := min (elpn - lpn + 1) (c.sp.pgsPerFlashpg - pgOff)
      let (completed, timing) := ssdAdvanceNand c.sp 0 j.2 ⟨.read, pgs * c.sp.pgsz, stime, false, ppa⟩
      readFlashPages stime elpn fuel (lpn + pgs) (max completed j.1, timing)
    else j

/-- `zns_read` -/
def znsRead (s : ZnsFtl) (nsecsStart : ℕ) (rw : RwCommand) : ZnsResult × ZnsFtl :=
  let slba := rw.slba.toNat
  let nrLba := rw.nrLba
  let slpn := lbaToLpn c slba
  let elpn := lbaToLpn c (sub64 (u64 (slba + nrLba)) 1)
  let zid := lpnToZone c slpn
  let status := if (s.zoneDescs zid).state = .offline then .errOffline
    else if checkBoundaryError c slba nrLba = false then .errBoundary
    else .success
  let stime := u64 (nsecsStart + if lbaToByte nrLba ≤ 4096 then c.sp.fw4kbRdLat else c.sp.fwRdLat)
  let nand := readFlashPages c stime elpn (elpn + 1 - slpn) slpn (stime, s.timing)
  let pcie := ssdAdvancePcie nand.2 nand.1 (nrLba * LBA_SIZE)
  (⟨status, 0, max pcie.1 nand.1⟩, { s with timing := pcie.2 })

/-- `zns_flush` -/
def znsFlush (s : ZnsFtl) : ZnsResult × ZnsFtl :=
  let start := s.timing.readClock
  let idle := ssdNextIdleTime c.sp 0 start.2
  (⟨.success, 0, max start.1 idle.1⟩, { s with timing := idle.2 })

end WaitGc

/-
  WAITGC verification — zoned namespaces: zones, resources and initialisation
  (`zns_ftl.h`, `zns_ftl.c`).

  A zone has a descriptor; the namespace counts the open zones, the active
  zones and the zones with a random write area against `nr_zones`.  The storage
  behind the namespace is the array of its bytes.

  Two counters of the state are not the module's: how often a release found its
  counter at zero (there the counter wraps: `ASSERT` expands to nothing), and
  how often `Write Boundary error` was printed.
-/
import WaitGc.Timing

namespace WaitGc

open Outcome Function

/-! ## Configuration -/

/-- `struct znsparams`, the fields the commands read. -/
structure ZnsParams where
  nrZones : ℕ
  diesPerZone : ℕ
  zoneSize : ℕ
  zoneWbSize : ℕ
  zrwaSize : ℕ
  zrwaBufferSize : ℕ
  lbasPerZrwafg : ℕ
  lbasPerZrwa : ℕ

/-- What is fixed when a zoned namespace is initialised: pages of 4096 bytes, and
    zones of whole pages (`zns_init_params` asserts it).  `nr_zones` and
    `zone_size` have 32 bits. -/
structure ZnsCfg where
  sp : SsdParams
  writeUnitSize : ℕ
  zp : ZnsParams
  secsPerPg_eq : sp.secsPerPg = 8
  pgsz_eq : sp.pgsz = LBA_SIZE * 8
  zoneSize_pos : 0 < zp.zoneSize
  zoneSize_mod : zp.zoneSize % sp.pgsz = 0
  zoneSize_lt : zp.zoneSize < 2 ^ 32
  nrZones_lt : zp.nrZones < 2 ^ 32

/-! ## State -/

/-- `enum zone_state` -/
inductive ZoneState where
  | empty
  | openedImpl
  | openedExpl
  | closed
  | readOnly
  | full
  | offline
  deriving DecidableEq, Repr

/-- `struct zone_descriptor` -/
structure ZoneDescriptor where
  state : ZoneState
  zrwav : Bool
  zoneCapacity : ℕ
  zslba : ℕ
  wp : ℕ
  deriving DecidableEq, Repr

/-- `enum zone_resource_type` -/
inductive ZoneResourceType where
  | activeZone
  | openZone
  | zrwaZone
  deriving DecidableEq, Repr

/-- `struct zone_resource_info` -/
structure ZoneResourceInfo where
  acquiredCnt : ℕ
  totalCnt : ℕ
  deriving DecidableEq, Repr

/-- The write buffers. -/
inductive ZnsBuffer where
  /-- `ssd->write_buffer` -/
  | ssd
  /-- `zone_write_buffer[zid]` -/
  | zone (zid : ℕ)
  /-- `zrwa_buffer[zid]` -/
  | zrwa (zid : ℕ)
  deriving DecidableEq, Repr

/-- A call of `schedule_internal_operation`. -/
structure ZnsOp where
  sqid : ℕ
  nsecsTarget : ℕ
  writeBuffer : ZnsBuffer
  buffsToRelease : ℕ
  deriving DecidableEq, Repr

/-- `struct zns_ftl`, and what it points to. -/
structure ZnsFtl where
  zoneDescs : ℕ → ZoneDescriptor
  resInfos : ZoneResourceType → ZoneResourceInfo
  buffers : ZnsBuffer → Buffer
  storage : ℕ → ℕ
  timing : Timing
  pending : List ZnsOp
  underflows : ℕ
  boundaryErrors : ℕ

/-- The ways a command can stop the kernel. -/
inductive ZnsFault where
  /-- A fault in the functions shared with conventional namespaces. -/
  | shared (f : Fault)
  /-- `NVMEV_ASSERT(0)` in `__zns_write_zrwa`. -/
  | zrwaAssert
  /-- `zrwa_buffer` is used and was not allocated. -/
  | nullPointer
  /-- A division by zero. -/
  | divideByZero
  deriving DecidableEq, Repr

/-- A shared function. -/
def liftZns {α : Type} : Except Fault α → Except ZnsFault α
  | .ok a => .ok a
  | .error f => .error (.shared f)

/-- The status codes the handlers set. -/
inductive ZnsStatus where
  | success
  | invalidField
  | invalidZoneOperation
  | zrwaRsrcUnavail
  | errBoundary
  | errFull
  | errReadOnly
  | errOffline
  | invalidWrite
  | noActiveZone
  | noOpenZone
  | invalidTransition
  /-- `__zmgmt_send` returns an uninitialised variable on an unknown action. -/
  | indeterminate
  deriving DecidableEq, Repr

/-! ## Zones and addresses -/

variable (c : ZnsCfg)

def lbasPerZone : ℕ := c.zp.zoneSize / LBA_SIZE

def lpnToZone (lpn : ℕ) : ℕ := u32 (lpn / (c.zp.zoneSize / c.sp.pgsz))

def zoneToSlpn (zid : ℕ) : ℕ := u32 (zid * (c.zp.zoneSize / c.sp.pgsz))

def lbaToZone (lba : ℕ) : ℕ := u32 (lba / lbasPerZone c)

/-- The product is one of 32-bit values. -/
def zoneToSlba (zid : ℕ) : ℕ := u32 (zid * lbasPerZone c)

def zoneToElba (zid : ℕ) : ℕ := sub64 (zoneToSlba c (u32 (zid + 1))) 1

def zoneToElpn (zid : ℕ) : ℕ := zoneToElba c zid / c.sp.secsPerPg

def dieToChannel (die : ℕ) : ℕ := die % c.sp.nchs

def dieToLun (die : ℕ) : ℕ := die / c.sp.nchs

def lbaToLpn (lba : ℕ) : ℕ := lba / c.sp.secsPerPg

/-- `LBA_TO_BYTE` -/
def lbaToByte (lba : ℕ) : ℕ := u64 (lba <<< LBA_BITS)

/-! ## Resources -/

namespace ZnsFtl

def isZoneResourceAvail (s : ZnsFtl) (type : ZoneResourceType) : Bool :=
  (s.resInfos type).acquiredCnt < (s.resInfos type).totalCnt

def isZoneResourceFull (s : ZnsFtl) (type : ZoneResourceType) : Bool :=
  (s.resInfos type).acquiredCnt = (s.resInfos type).totalCnt

def setAcquired (s : ZnsFtl) (type : ZoneResourceType) (n : ℕ) : ZnsFtl :=
  { s with resInfos := update s.resInfos type { s.resInfos type with acquiredCnt := n } }

/-- `acquire_zone_resource`: whether it succeeded, and the new state. -/
def acquireZoneResource (s : ZnsFtl) (type : ZoneResourceType) : Bool × ZnsFtl :=
  if s.isZoneResourceAvail type then
    (true, s.setAcquired type (u32 ((s.resInfos type).acquiredCnt + 1)))
  else (false, s)

/-- `release_zone_resource` -/
def releaseZoneResource (s : ZnsFtl) (type : ZoneResourceType) : ZnsFtl :=
  let acquired := (s.resInfos type).acquiredCnt
  { s.setAcquired type (u32 (acquired + 2 ^ 32 - 1)) with
    underflows := if acquired = 0 then s.underflows + 1 else s.underflows }

def setZone (s : ZnsFtl) (zid : ℕ) (z : ZoneDescriptor) : ZnsFtl :=
  { s with zoneDescs := update s.zoneDescs zid z }

/-- `change_zone_state` -/
def changeZoneState (s : ZnsFtl) (zid : ℕ) (state : ZoneState) : ZnsFtl :=
  s.setZone zid { s.zoneDescs zid with state }

def setBuffer (s : ZnsFtl) (b : ZnsBuffer) (buf : Buffer) : ZnsFtl :=
  { s with buffers := update s.buffers b buf }

end ZnsFtl

/-! ## Initialisation -/

/-- `__init_descriptor`, for one zone.  The start of a zone is a running sum of 64
    bits. -/
def initDescriptor (zid : ℕ) : ZoneDescriptor where
  state := .empty
  zrwav := false
  zoneCapacity := lbasPerZone c
  zslba := u64 (zid * lbasPerZone c)
  wp := u64 (zid * lbasPerZone c)

/-- `zns_init_ftl` -/
def znsInitFtl (clock : ℕ → ℕ) (storage : ℕ → ℕ) : ZnsFtl where
  zoneDescs := initDescriptor c
  resInfos _ := ⟨0, c.zp.nrZones⟩
  buffers
    | .ssd => bufferInit c.sp.writeBufferSize
    | .zone _ => bufferInit c.zp.zoneWbSize
    | .zrwa _ => bufferInit c.zp.zrwaBufferSize
  storage := storage
  timing := .init c.sp clock
  pending := []
  underflows := 0
  boundaryErrors := 0

end WaitGc

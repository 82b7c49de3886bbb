/-
  WAITGC verification — the I/O-unit timing model (`simple_ftl.c`, and the same
  functions in `kv_ftl.c`).

  The device has `nr_io_units` units, and for each the time until which it is
  busy.  A command starts at the unit of its first block and takes the units
  round robin, one for every `io_unit_size` bytes.  A flush waits for all units.
-/
import WaitGc.Geometry
import Mathlib.Logic.Function.Iterate

namespace WaitGc

open Outcome Function

/-- The fields of `struct nvmev_config` the timing model reads.  All are unsigned 32-bit
    integers. -/
structure IoUnitConfig where
  nrIoUnits : ℕ
  ioUnitShift : ℕ
  readDelay : ℕ
  readTime : ℕ
  readTrailing : ℕ
  writeDelay : ℕ
  writeTime : ℕ
  writeTrailing : ℕ
  nrIoUnits_pos : 0 < nrIoUnits
  nrIoUnits_lt : nrIoUnits < 2 ^ 32
  ioUnitShift_ge : LBA_BITS ≤ ioUnitShift

/-- `delay`, `latency` and `trailing` of a command. -/
structure IoTimes where
  delay : ℕ
  latency : ℕ
  trailing : ℕ

def nvme_cmd_write : BitVec 32 := 0x01
def nvme_cmd_read : BitVec 32 := 0x02
def nvme_cmd_kv_store : BitVec 32 := 0x81
def nvme_cmd_kv_batch : BitVec 32 := 0x85
def nvme_cmd_kv_retrieve : BitVec 32 := 0x90

section
variable (cfg : IoUnitConfig)

def IoUnitConfig.writeTimes : IoTimes := ⟨cfg.writeDelay, cfg.writeTime, cfg.writeTrailing⟩

def IoUnitConfig.readTimes : IoTimes := ⟨cfg.readDelay, cfg.readTime, cfg.readTrailing⟩

/-- The opcodes in `simple_ftl.c`. -/
def simpleTimes (opcode : BitVec 32) : IoTimes :=
  if opcode = nvme_cmd_write then cfg.writeTimes
  else if opcode = nvme_cmd_read then cfg.readTimes
  else ⟨0, 0, 0⟩

/-- The opcodes in `kv_ftl.c`. -/
def kvTimes (opcode : BitVec 32) : IoTimes :=
  if opcode = nvme_cmd_write ∨ opcode = nvme_cmd_kv_store ∨ opcode = nvme_cmd_kv_batch then
    cfg.writeTimes
  else if opcode = nvme_cmd_read ∨ opcode = nvme_cmd_kv_retrieve then cfg.readTimes
  else ⟨0, 0, 0⟩

/-- `1 << io_unit_shift`; the processor takes the count modulo the width. -/
def ioUnitSize : ℕ := 2 ^ (cfg.ioUnitShift % 32)

/-- The unit of a block. -/
def ioUnitOf (lba : BitVec 64) : ℕ :=
  (lba.toNat >>> ((cfg.ioUnitShift - LBA_BITS) % 64)) % cfg.nrIoUnits

/-- What the loop of `__schedule_io_units` changes. -/
structure IoTurn where
  latest : ℕ
  ioUnitStat : ℕ → ℕ
  ioUnit : ℕ
  nrIoUnits : ℤ
  length : ℕ

/-- The body of the loop. -/
def IoTurn.next (times : IoTimes) (j : IoTurn) : IoTurn :=
  let latest := u64 (j.latest + times.latency)
  { latest
    ioUnitStat := update j.ioUnitStat j.ioUnit
      (if 0 < j.nrIoUnits then u64 (latest + times.trailing) else latest)
    ioUnit := if cfg.nrIoUnits ≤ u32 (j.ioUnit + 1) then 0 else u32 (j.ioUnit + 1)
    nrIoUnits := int32 (j.nrIoUnits - 1)
    length := j.length - min j.length (ioUnitSize cfg) }

/-- The loop, with at most `fuel` turns. -/
def IoTurn.loop (times : IoTimes) : ℕ → IoTurn → IoTurn
  | 0, j => j
  | fuel + 1, j =>
    let j := j.next cfg times
    if 0 < j.length then loop times fuel j else j

/-- The variables before the loop. -/
def IoTurn.first (times : IoTimes) (ioUnitStat : ℕ → ℕ) (lba : BitVec 64) (length : BitVec 32)
    (nsecsStart : BitVec 64) : IoTurn where
  latest := u64 (max nsecsStart.toNat (ioUnitStat (ioUnitOf cfg lba)) + times.delay)
  ioUnitStat := ioUnitStat
  ioUnit := ioUnitOf cfg lba
  nrIoUnits := int32 (min cfg.nrIoUnits
    (u32 (length.toNat + ioUnitSize cfg - 1) / ioUnitSize cfg) : ℕ)
  length := length.toNat

/-- `__schedule_io_units`: the time of completion, and `io_unit_stat`. -/
def scheduleIoUnits (times : IoTimes) (ioUnitStat : ℕ → ℕ) (lba : BitVec 64) (length : BitVec 32)
    (nsecsStart : BitVec 64) : ℕ × (ℕ → ℕ) :=
  let j := IoTurn.loop cfg times (length.toNat + 1)
    (.first cfg times ioUnitStat lba length nsecsStart)
  (j.latest, j.ioUnitStat)

/-- `__schedule_flush` -/
def scheduleFlush (ioUnitStat : ℕ → ℕ) : ℕ :=
  (List.range cfg.nrIoUnits).foldl (fun latest i => max latest (ioUnitStat i)) 0

end

/-! ## Runs -/

/-- A call of `__schedule_io_units`, of one module or the other. -/
structure IoCall where
  kv : Bool
  opcode : BitVec 32
  lba : BitVec 64
  length : BitVec 32
  nsecsStart : BitVec 64

def IoCall.times (cfg : IoUnitConfig) (e : IoCall) : IoTimes :=
  if e.kv then kvTimes cfg e.opcode else simpleTimes cfg e.opcode

/-- The busy times, and the completions that were returned. -/
structure UnitRun where
  ioUnitStat : ℕ → ℕ
  completed : List ℕ

/-- The machine; it cannot fail. -/
def ioUnits (cfg : IoUnitConfig) : Machine UnitRun IoCall Fault where
  step r e :=
    let (latest, ioUnitStat) := scheduleIoUnits cfg (e.times cfg) r.ioUnitStat e.lba e.length e.nsecsStart
    .ok ⟨ioUnitStat, latest :: r.completed⟩

end WaitGc

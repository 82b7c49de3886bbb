/-
  WAITGC verification — the I/O commands of a conventional namespace
  (`conv_ftl.c`, from `conv_init_namespace` and `conv_read` to
  `conv_proc_nvme_io_cmd`).

  * A `Dev` is a namespace: its FTL instances, the clocks and the write buffer
    they share, and the internal operations `conv_write` scheduled and no I/O
    worker performed yet.
  * `conv_write` is cut at the two places where the loop over the pages hands
    over: `convWriteStart` runs up to the loop, `convWritePage` is the body up
    to `consume_write_credit`, `convWriteRefill` is the call of
    `check_and_refill_write_credit`.
  * The host memory behind `prp1` of a deallocate command is part of the
    request.
-/
import WaitGc.Ftl.Gc

namespace WaitGc

open Outcome Function

/-! ## Requests and results -/

/-- `struct nvme_rw_command`. -/
structure RwCommand where
  slba : BitVec 64
  length : BitVec 16
  control : BitVec 16

/-- `struct nvme_dsm_range`. -/
structure DsmRange where
  nlb : BitVec 32
  slba : BitVec 64

/-- `struct nvme_dsm_cmd`, with the range list at `prp1`; `none` if it cannot be
    mapped. -/
structure DsmCommand where
  nr : BitVec 32
  attributes : BitVec 32
  dsmRanges : Option (ℕ → DsmRange)

/-- `struct nvme_command`, by opcode. -/
inductive NvmeCommand where
  | write (rw : RwCommand)
  | read (rw : RwCommand)
  | flush
  | dsm (dsm : DsmCommand)
  | other (opcode : BitVec 8)

/-- `struct nvmev_request`. -/
structure NvmevRequest where
  cmd : NvmeCommand
  nsecsStart : BitVec 64

/-- The status codes the handlers set. -/
inductive NvmeStatus where
  | success
  | internal
  deriving DecidableEq, Repr

/-- `struct nvmev_result`. -/
structure NvmevResult where
  status : NvmeStatus
  nsecsTarget : ℕ

/-- The number of blocks of a command; `length` is 0-based. -/
def RwCommand.nrLba (rw : RwCommand) : ℕ := rw.length.toNat + 1

/-- `LBA_TO_BYTE(nr_lba)`. -/
def RwCommand.bytes (rw : RwCommand) : ℕ := rw.nrLba <<< LBA_BITS

theorem RwCommand.nrLba_pos (rw : RwCommand) : 0 < rw.nrLba := Nat.succ_pos _

theorem RwCommand.nrLba_le (rw : RwCommand) : rw.nrLba ≤ 2 ^ 16 := rw.length.isLt

theorem RwCommand.bytes_eq (rw : RwCommand) : rw.bytes = rw.nrLba * 512 := Nat.shiftLeft_eq _ _

theorem RwCommand.bytes_le (rw : RwCommand) : rw.bytes ≤ 2 ^ 32 := by
  have := rw.nrLba_le
  rw [rw.bytes_eq]
  omega

/-- `control & NVME_RW_FUA`. -/
def RwCommand.fua (rw : RwCommand) : Bool := rw.control.getLsbD 14

/-- The first page of a range of blocks. -/
def startLpn (sp : SsdParams) (slba : BitVec 64) : ℕ := slba.toNat / sp.secsPerPg

/-- The last page of a range of `n` blocks, in 64-bit arithmetic. -/
def endLpn (sp : SsdParams) (slba : BitVec 64) (n : ℕ) : ℕ :=
  u64 (slba.toNat + n - 1) / sp.secsPerPg

/-- The values a `for (lpn = first; lpn <= last; lpn++)` loop takes. -/
def lpnRange (first last : ℕ) : List ℕ := List.range' first (last + 1 - first)

/-! ## Namespaces -/

/-- An internal operation of an I/O worker. -/
structure InternalOp where
  nsecsTarget : ℕ
  buffsToRelease : ℕ

/-- `struct nvmev_ns` of a conventional namespace. -/
structure Dev where
  ftls : ℕ → ConvFtl
  timing : Timing
  wbuf : Buffer
  pending : List InternalOp

variable (c : Cfg)

/-- `conv_init_namespace`, on the geometry `ssd_init_params` derived.  `junk` is
    what `kmalloc` left in the queue arrays; there is no instance from
    `nr_parts` on. -/
def convInitNamespace (junk : ℕ → ℕ → Slot) (clock : ℕ → ℕ) : Except Fault Dev := do
  let first ← convInitFtl c 0 (junk 0)
  let ftls ← (List.range c.nrParts).foldlM (fun ftls i => do
    let s ← convInitFtl c i (junk i)
    pure (update ftls i s)) (fun _ => first)
  pure ⟨ftls, .init c.sp clock, bufferInit c.sp.writeBufferSize, []⟩

/-- `ns->size`. -/
def nsSize (cp : ConvParams) (size : ℕ) : ℕ := u64 (size * 100) / cp.pbaPcent

/-- `conv_ftls[part] = s`. -/
def Dev.setFtl (d : Dev) (part : ℕ) (s : ConvFtl) : Dev := { d with ftls := update d.ftls part s }

/-! ## Read -/

/-- `is_same_flash_page`. -/
def isSameFlashPage (sp : SsdParams) (p q : Ppa) : Bool :=
  p.blkInSsd == q.blkInSsd && p.pg.toNat / sp.pgsPerFlashpg == q.pg.toNat / sp.pgsPerFlashpg

/-- The variables of the loops of `conv_read`. -/
structure ReadState where
  timing : Timing
  xferSize : ℕ
  prevPpa : Ppa
  nsecsLatest : ℕ

/-- Issue the aggregated read, if there is one. -/
def readIssue (part stime : ℕ) (r : ReadState) : ReadState :=
  if 0 < r.xferSize then
    let (nsecsCompleted, t) :=
      ssdAdvanceNand c.sp part r.timing ⟨.read, r.xferSize, stime, true, r.prevPpa⟩
    { r with timing := t, nsecsLatest := max nsecsCompleted r.nsecsLatest }
  else r

/-- The body of the loop of `conv_read` over the pages of one partition. -/
def readLpn (s : ConvFtl) (part stime : ℕ) (r : ReadState) (lpn : ℕ) : ReadState :=
  let curPpa := s.maptbl (lpn / c.nrParts)
  if !mappedPpa curPpa || !validPpa c.sp curPpa then r
  -- aggregate read io in same flash page
  else if mappedPpa r.prevPpa && isSameFlashPage c.sp curPpa r.prevPpa then
    { r with xferSize := r.xferSize + c.sp.pgsz }
  else { readIssue c part stime r with xferSize := c.sp.pgsz, prevPpa := curPpa }

/-- The body of the loop of `conv_read` over the partitions. -/
def readPart (d : Dev) (last stime : ℕ) (r : ReadState) (first : ℕ) : ReadState :=
  let part := first % c.nrParts
  let s := d.ftls part
  let lpns := List.range' first ((last - first) / c.nrParts + 1) c.nrParts
  readIssue c part stime (lpns.foldl (readLpn c s part stime)
    { r with xferSize := 0, prevPpa := s.maptbl (first / c.nrParts) })

/-- `conv_read`; `none` if it returns `false`. -/
def convRead (d : Dev) (rw : RwCommand) (nsecsStart : ℕ) : Option NvmevResult × Dev :=
  let first := startLpn c.sp rw.slba
  let last := endLpn c.sp rw.slba rw.nrLba
  if c.sp.ttPgs ≤ last / c.nrParts then (none, d)
  else
    let stime :=
      u64 (nsecsStart + if rw.bytes ≤ 4096 * c.nrParts then c.sp.fw4kbRdLat else c.sp.fwRdLat)
    let parts := (lpnRange first last).take c.nrParts
    let r := parts.foldl (readPart c d last stime) ⟨d.timing, 0, .unmapped, nsecsStart⟩
    (some ⟨.success, r.nsecsLatest⟩, { d with timing := r.timing })

/-! ## Write -/

/-- The variables of `conv_write` during its loop.  `refill` is set between
    `consume_write_credit` and `check_and_refill_write_credit`. -/
structure WriteJob where
  lpn : ℕ
  endLpn : ℕ
  nsecsLatest : ℕ
  nsecsXferCompleted : ℕ
  fua : Bool
  refill : Bool

/-- `conv_write`, up to the loop; no job if it returns `false`. -/
def convWriteStart (d : Dev) (rw : RwCommand) (nsecsStart : ℕ) :
    Except Fault (Option WriteJob × Dev) := do
  let last := endLpn c.sp rw.slba rw.nrLba
  if c.sp.ttPgs ≤ last / c.nrParts then pure (none, d)
  else
    let (allocatedBufSize, wbuf) ← bufferAllocate d.wbuf rw.bytes
    let d := { d with wbuf := wbuf }
    if allocatedBufSize < rw.bytes then pure (none, d)
    else
      let (nsecsLatest, t) := ssdAdvanceWriteBuffer c.sp d.timing nsecsStart rw.bytes
      pure (some ⟨startLpn c.sp rw.slba, last, nsecsLatest, nsecsLatest, rw.fua, false⟩,
        { d with timing := t })

/-- "update old page information first" of `conv_write`, and the same two
    statements of `conv_discard`. -/
def invalidateOldPage (s : ConvFtl) (p : Ppa) : Except Fault ConvFtl := do
  let s ← markPageInvalid c s p
  setRmapEnt c s INVALID_LPN p

/-- `host_write_pages++`. -/
def GcStats.countHost (st : GcStats) : GcStats :=
  { st with hostWritePages := st.hostWritePages + 1 }

/-- What `conv_write` does to the FTL of a page, up to
    `advance_write_pointer`: the new page and the FTL. -/
def convWriteFtl (s : ConvFtl) (localLpn nsecsLatest : ℕ) : Except Fault (Ppa × ConvFtl) := do
  let s := { s with curNsecs := nsecsLatest }
  -- check whether the given LPN has been written before
  let old := s.maptbl localLpn
  let s ← if mappedPpa old then invalidateOldPage c s old else pure s
  writeNewPage c s .userIo localLpn GcStats.countHost

/-- The body of the loop of `conv_write`, up to `consume_write_credit`. -/
def convWritePage (d : Dev) (job : WriteJob) : Except Fault (Dev × WriteJob) := do
  let part := job.lpn % c.nrParts
  let (p, s) ← convWriteFtl c (d.ftls part) (job.lpn / c.nrParts) job.nsecsLatest
  let d := d.setFtl part (consumeWriteCredit s)
  -- aggregate write io in flash page
  if lastPgInWordline c.sp p then
    let wordline := c.sp.pgsPerOneshotpg * c.sp.pgsz
    let (nsecsCompleted, t) :=
      ssdAdvanceNand c.sp part d.timing ⟨.write, wordline, job.nsecsXferCompleted, false, p⟩
    pure ({ d with timing := t, pending := d.pending ++ [⟨nsecsCompleted, wordline⟩] },
      { job with nsecsLatest := max nsecsCompleted job.nsecsLatest, refill := true })
  else pure (d, { job with refill := true })

/-- The end of the loop body of `conv_write`. -/
def convWriteRefill (d : Dev) (job : WriteJob) : Except Fault (Dev × WriteJob) := do
  let part := job.lpn % c.nrParts
  let (s, t) ← checkAndRefillWriteCredit c (d.ftls part) d.timing
  pure ({ d.setFtl part s with timing := t }, { job with lpn := job.lpn + 1, refill := false })

/-- The body of the loop of `conv_write`. -/
def convWriteLpn (st : Dev × WriteJob) : Except Fault (Dev × WriteJob) := do
  let r ← convWritePage c st.1 st.2
  convWriteRefill c r.1 r.2

/-- The result `conv_write` sets after its loop. -/
def convWriteResult (job : WriteJob) : NvmevResult :=
  ⟨.success,
    if job.fua ∨ c.sp.writeEarlyCompletion = false then job.nsecsLatest
    else job.nsecsXferCompleted⟩

/-- `conv_write`; no result if it returns `false`. -/
def convWrite (d : Dev) (rw : RwCommand) (nsecsStart : ℕ) :
    Except Fault (Option NvmevResult × Dev) := do
  match ← convWriteStart c d rw nsecsStart with
  | (none, d) => pure (none, d)
  | (some job, d) =>
    let (d, job) ← (lpnRange job.lpn job.endLpn).foldlM (fun st _ => convWriteLpn c st) (d, job)
    pure (some (convWriteResult c job), d)

/-! ## Discard -/

/-- What `conv_discard` does to the FTL of a page. -/
def discardFtl (s : ConvFtl) (localLpn nsecsStart : ℕ) : Except Fault ConvFtl := do
  let p := s.maptbl localLpn
  if !mappedPpa p || !validPpa c.sp p then pure s
  else
    let s ← invalidateOldPage c { s with curNsecs := nsecsStart } p
    pure { s with
      maptbl := update s.maptbl localLpn .unmapped
      dsmInvalidatedPages := s.dsmInvalidatedPages + 1 }

/-- The body of the loop of `conv_discard` over the pages of a range. -/
def discardLpn (nsecsStart : ℕ) (d : Dev) (lpn : ℕ) : Except Fault Dev := do
  let part := lpn % c.nrParts
  let s ← discardFtl c (d.ftls part) (lpn / c.nrParts) nsecsStart
  pure (d.setFtl part s)

/-- The pages of the `i`-th range of `conv_discard`; none if the range is empty
    or out of bounds. -/
def discardLpns (r : DsmRange) : List ℕ :=
  if r.nlb = 0 then []
  else
    let last := endLpn c.sp r.slba r.nlb.toNat
    if c.sp.ttPgs ≤ last / c.nrParts then [] else lpnRange (startLpn c.sp r.slba) last

/-- `conv_discard`. -/
def convDiscard (d : Dev) (dsm : DsmCommand) (nsecsStart : ℕ) : Except Fault (NvmevResult × Dev) :=
  -- without the AD bit the command is a hint
  if dsm.attributes.getLsbD 2 = false then .ok (⟨.success, nsecsStart⟩, d)
  else
    let nrRanges := dsm.nr.toNat % 256 + 1
    match dsm.dsmRanges with
    | none => .ok (⟨.internal, nsecsStart⟩, d)
    | some ranges => do
      let lpns := (List.range nrRanges).flatMap fun i => discardLpns c (ranges i)
      let d ← lpns.foldlM (discardLpn c nsecsStart) d
      pure (⟨.success, nsecsStart⟩, d)

/-! ## Flush -/

/-- The sum of a counter over the instances. -/
def Dev.sum (d : Dev) (f : ConvFtl → ℕ) : ℕ := ((List.range c.nrParts).map fun i => f (d.ftls i)).sum

/-- The numbers of the `[FLUSH-RESULT]` record. -/
structure FlushResult where
  wafX1000 : ℕ
  hostPages : ℕ
  gcCopied : ℕ
  gcCnt : ℕ
  victimVpcSum : ℕ
  avgVpcX1000 : ℕ
  diffGreedy : ℕ
  diffPctX1000 : ℕ
  avgAgeNs : ℕ
  avgAgeValueX1000 : ℕ
  avgScore : ℕ
  candidatesAvailableSum : ℕ
  candidateEvalCount : ℕ
  dsmInvalidated : ℕ
  isoSamples : ℕ
  isoCensored : ℕ

/-- The summary `conv_flush` prints. -/
def flushResult (d : Dev) : FlushResult :=
  let sum := d.sum c
  let host := sum (·.stats.hostWritePages)
  let gcValid := sum (·.stats.gcValidCopied)
  let gcCnt := sum (·.stats.gcCnt)
  let victimVpcSum := sum (·.stats.gcVictimVpcSum)
  let diffGreedy := sum (·.stats.gcDiffFromGreedy)
  { wafX1000 := if host ≠ 0 then (host + gcValid) * 1000 / host else 1000
    hostPages := host
    gcCopied := gcValid
    gcCnt := gcCnt
    victimVpcSum := victimVpcSum
    avgVpcX1000 := if gcCnt ≠ 0 then victimVpcSum * 1000 / gcCnt else 0
    diffGreedy := diffGreedy
    diffPctX1000 := if gcCnt ≠ 0 then diffGreedy * 100000 / gcCnt else 0
    avgAgeNs := if gcCnt ≠ 0 then sum (·.stats.gcSelectedAgeNsSum) / gcCnt else 0
    avgAgeValueX1000 :=
      if gcCnt ≠ 0 then sum (·.stats.gcSelectedAgeValueSum) * 1000 / gcCnt else 0
    avgScore := if gcCnt ≠ 0 then sum (·.stats.gcSelectedScoreSum) / gcCnt else 0
    candidatesAvailableSum := sum (·.stats.gcCandidatesAvailableSum)
    candidateEvalCount := sum (·.stats.gcCandidateEvalCount)
    dsmInvalidated := sum (·.dsmInvalidatedPages)
    isoSamples := sum (·.stats.isoSamplesCompleted)
    isoCensored := sum (·.stats.isoSamplesCensored) }

/-- `conv_flush`: the summary, the result and the clocks it read. -/
def convFlush (d : Dev) : FlushResult × NvmevResult × Dev :=
  let (start, t) := d.timing.readClock
  let (latest, t) := (List.range c.nrParts).foldl (fun (latest, t) i =>
    let (idle, t) := ssdNextIdleTime c.sp i t
    (max latest idle, t)) (start, t)
  (flushResult c d, ⟨.success, latest⟩, { d with timing := t })

/-! ## Dispatch -/

/-- `conv_proc_nvme_io_cmd`; no result if it returns `false`.  `ret` is the
    result the caller prepared. -/
def convProcNvmeIoCmd (d : Dev) (req : NvmevRequest) (ret : NvmevResult) :
    Except Fault (Option NvmevResult × Dev) :=
  match req.cmd with
  | .write rw => convWrite c d rw req.nsecsStart.toNat
  | .read rw => .ok (convRead c d rw req.nsecsStart.toNat)
  | .flush => let (_, ret, d) := convFlush c d; .ok (some ret, d)
  | .dsm dsm => do
    let (ret, d) ← convDiscard c d dsm req.nsecsStart.toNat
    pure (some ret, d)
  | .other _ => .ok (some ret, d)

end WaitGc

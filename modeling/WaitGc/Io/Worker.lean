/-
  WAITGC verification — the work queue of an I/O worker (`io.c`).

  The entries of a work queue stand in one array and are linked by their
  indices: the free entries from `free_seq`, the pending ones from `io_seq`,
  with `(unsigned int)-1` at the ends.  The dispatcher takes an entry from the
  free list, fills it and inserts it by its target time; the worker completes
  it; the dispatcher moves the completed entries at the head of the pending
  list to the end of the free list.

  Left out: the debug counter of `__reclaim_completed_reqs`, the time stamps that
  only `PERF_DEBUG` reads, and `io_worker_turn`, which nothing reads when the
  workers are chosen by queue.
-/
import WaitGc.Basic
import Mathlib.Logic.Function.Basic

namespace WaitGc

open Outcome Function

/-- `NR_MAX_PARALLEL_IO` -/
def nrMaxParallelIo : ℕ := 16384

/-- `-1` in an `unsigned int`. -/
def nil32 : ℕ := 2 ^ 32 - 1

/-- `struct nvmev_io_work` -/
structure IoWork where
  sqid : ℕ
  cqid : ℕ
  sqEntry : ℤ
  commandId : ℕ
  nsecsStart : ℕ
  nsecsTarget : ℕ
  nsecsEnqueue : ℕ
  isCopied : Bool
  isCompleted : Bool
  status : ℕ
  result0 : ℕ
  result1 : ℕ
  isInternal : Bool
  writeBuffer : ℕ
  buffsToRelease : ℕ
  next : ℕ
  prev : ℕ
  deriving DecidableEq, Repr

/-- The memory of a new queue (`kzalloc`). -/
def IoWork.zero : IoWork :=
  ⟨0, 0, 0, 0, 0, 0, 0, false, false, 0, 0, 0, false, 0, 0, 0, 0⟩

/-- `struct nvmev_io_worker` -/
structure IoWorker where
  workQueue : ℕ → IoWork
  freeSeq : ℕ
  freeSeqEnd : ℕ
  ioSeq : ℕ
  ioSeqEnd : ℕ
  latestNsecs : ℕ
  id : ℕ

namespace IoWorker

/-- Write an entry. -/
def set (w : IoWorker) (i : ℕ) (e : IoWork) : IoWorker :=
  { w with workQueue := update w.workQueue i e }

/-- `work_queue[i].next = v` -/
def setNext (w : IoWorker) (i v : ℕ) : IoWorker := w.set i { w.workQueue i with next := v }

/-- `work_queue[i].prev = v` -/
def setPrev (w : IoWorker) (i v : ℕ) : IoWorker := w.set i { w.workQueue i with prev := v }

/-- `NVMEV_IO_WORKER_INIT`, for one worker. -/
def init (id : ℕ) : IoWorker where
  workQueue i := { IoWork.zero with
    next := if i = nrMaxParallelIo - 1 then nil32 else i + 1
    prev := if i = 0 then nil32 else i - 1 }
  freeSeq := 0
  freeSeqEnd := nrMaxParallelIo - 1
  ioSeq := nil32
  ioSeqEnd := nil32
  latestNsecs := 0
  id := id

/-! ## Inserting an entry -/

/-- The loop of `__insert_req_sorted`: the last entry, from the tail on, that is
    past due or not later than the new one. -/
def findSlot (w : IoWorker) (nsecsTarget : ℕ) : ℕ → ℕ → ℕ
  | 0, curr => curr
  | n + 1, curr =>
    if curr = nil32 then curr
    else if (w.workQueue curr).nsecsTarget ≤ w.latestNsecs then curr
    else if (w.workQueue curr).nsecsTarget ≤ nsecsTarget then curr
    else findSlot w nsecsTarget n (w.workQueue curr).prev

/-- What `__insert_req_sorted` does once the slot is found. -/
def link (w : IoWorker) (entry curr : ℕ) : IoWorker :=
  if curr = nil32 then
    -- head inserted
    let w := w.setPrev w.ioSeq entry
    let w := w.setNext entry w.ioSeq
    { w with ioSeq := entry }
  else if (w.workQueue curr).next = nil32 then
    -- tail
    let w := w.setPrev entry curr
    let w := { w with ioSeqEnd := entry }
    w.setNext curr entry
  else
    -- in between
    let w := w.setPrev entry curr
    let w := w.setNext entry (w.workQueue curr).next
    let w := w.setPrev (w.workQueue entry).next entry
    w.setNext curr entry

/-- `__insert_req_sorted`.  The loop follows at most one link per entry. -/
def insertReqSorted (w : IoWorker) (entry nsecsTarget : ℕ) : IoWorker :=
  if w.ioSeq = nil32 then { w with ioSeq := entry, ioSeqEnd := entry }
  else w.link entry (w.findSlot nsecsTarget nrMaxParallelIo w.ioSeqEnd)

/-! ## Taking a free entry -/

/-- `__allocate_work_queue_entry`, for the worker of the queue: the index of the
    entry, unless it would be the last free one. -/
def allocateWorkQueueEntry (w : IoWorker) : Option (ℕ × IoWorker) :=
  if (w.workQueue w.freeSeq).next ≥ nrMaxParallelIo then none
  else some (w.freeSeq, { w with freeSeq := (w.workQueue w.freeSeq).next })

end IoWorker

/-- What a caller of `__enqueue_io_req` or `schedule_internal_operation` puts
    into an entry. -/
inductive IoJob where
  /-- The completion of a command: `sqid`, `cqid`, `sq_entry`, the command's
      `command_id`, `nsecs_start`, and `struct nvmev_result`. -/
  | io (sqid cqid : ℕ) (sqEntry : ℤ) (commandId nsecsStart nsecsTarget status result : ℕ)
  /-- A release of write-buffer slots. -/
  | internal (sqid nsecsTarget writeBuffer buffsToRelease : ℕ)
  deriving DecidableEq, Repr

namespace IoJob

def sqid : IoJob → ℕ
  | io sqid .. => sqid
  | internal sqid .. => sqid

def nsecsTarget : IoJob → ℕ
  | io _ _ _ _ _ nsecsTarget _ _ => nsecsTarget
  | internal _ nsecsTarget _ _ => nsecsTarget

/-- The fields the two callers write into the entry `w`, at local time `clock`. -/
def fill (w : IoWork) (clock : ℕ) : IoJob → IoWork
  | io sqid cqid sqEntry commandId nsecsStart nsecsTarget status result =>
    { w with
      sqid, cqid, sqEntry, commandId, nsecsStart
      nsecsEnqueue := clock
      nsecsTarget, status
      result0 := u32 result
      result1 := u32 (result / 2 ^ 32)
      isCompleted := false
      isCopied := false
      prev := nil32
      next := nil32
      isInternal := false }
  | internal sqid nsecsTarget writeBuffer buffsToRelease =>
    { w with
      sqid
      nsecsStart := clock
      nsecsEnqueue := clock
      nsecsTarget
      isCompleted := false
      isCopied := true
      prev := nil32
      next := nil32
      isInternal := true
      writeBuffer, buffsToRelease }

end IoJob

namespace IoWorker

/-- `__enqueue_io_req` and `schedule_internal_operation`, on the worker of the
    queue.  When no entry is to be had they return without a word. -/
def enqueue (w : IoWorker) (clock : ℕ) (job : IoJob) : IoWorker :=
  match w.allocateWorkQueueEntry with
  | none => w
  | some (entry, w) =>
    (w.set entry (job.fill (w.workQueue entry) clock)).insertReqSorted entry job.nsecsTarget

/-! ## Giving entries back -/

/-- The loop of `__reclaim_completed_reqs`: the last of the completed entries at
    the head of the list, if the first is one. -/
def lastCompleted (w : IoWorker) : ℕ → ℕ → ℕ → ℕ
  | 0, _, lastEntry => lastEntry
  | n + 1, curr, lastEntry =>
    if curr = nil32 then lastEntry
    else if (w.workQueue curr).isCompleted = true ∧ (w.workQueue curr).isCopied = true ∧
        (w.workQueue curr).nsecsTarget ≤ w.latestNsecs then
      lastCompleted w n (w.workQueue curr).next curr
    else lastEntry

/-- What it does with them. -/
def giveBack (w : IoWorker) (firstEntry lastEntry : ℕ) : IoWorker :=
  let w := { w with ioSeq := (w.workQueue lastEntry).next }
  let w := if (w.workQueue lastEntry).next ≠ nil32 then
      w.setPrev (w.workQueue lastEntry).next nil32 else w
  let w := w.setNext lastEntry nil32
  let w := w.setPrev firstEntry w.freeSeqEnd
  let w := w.setNext w.freeSeqEnd firstEntry
  { w with freeSeqEnd := lastEntry }

/-- `__reclaim_completed_reqs`, for one worker.  The loop follows at most one
    link per entry. -/
def reclaimCompletedReqs (w : IoWorker) : IoWorker :=
  let lastEntry := w.lastCompleted nrMaxParallelIo w.ioSeq nil32
  if lastEntry ≠ nil32 then w.giveBack w.ioSeq lastEntry else w

/-! ## The worker -/

/-- The worker reads the clock. -/
def tick (w : IoWorker) (currNsecs : ℕ) : IoWorker := { w with latestNsecs := currNsecs }

/-- The data of the entry `i` has been moved. -/
def copied (w : IoWorker) (i : ℕ) : IoWorker := w.set i { w.workQueue i with isCopied := true }

/-- The entry `i` is done with. -/
def completed (w : IoWorker) (i : ℕ) : IoWorker :=
  w.set i { w.workQueue i with isCompleted := true }

end IoWorker

/-! ## A work queue as a machine -/

/-- The events of a work queue: what the dispatcher does with it, and the moves of
    the worker. -/
inductive WorkEvent where
  | enqueue (clock : ℕ) (job : IoJob)
  | reclaim
  | tick (currNsecs : ℕ)
  | copied (i : ℕ)
  | completed (i : ℕ)

/-- A work queue, with the number of entries inserted so far and, for each
    entry, when it was. -/
structure WorkRun where
  worker : IoWorker
  count : ℕ
  stamp : ℕ → ℕ

/-- An insertion, noted. -/
def WorkRun.enqueue (s : WorkRun) (clock : ℕ) (job : IoJob) : WorkRun :=
  match s.worker.allocateWorkQueueEntry with
  | none => { s with worker := s.worker.enqueue clock job }
  | some (entry, _) => ⟨s.worker.enqueue clock job, s.count + 1, update s.stamp entry s.count⟩

/-- The machine. -/
def workQueue : Machine WorkRun WorkEvent Fault where
  step s
    | .enqueue clock job => .ok (s.enqueue clock job)
    | .reclaim => .ok { s with worker := s.worker.reclaimCompletedReqs }
    | .tick currNsecs => .ok { s with worker := s.worker.tick currNsecs }
    | .copied i => .ok { s with worker := s.worker.copied i }
    | .completed i => .ok { s with worker := s.worker.completed i }

end WaitGc

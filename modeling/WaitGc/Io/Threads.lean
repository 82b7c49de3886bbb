/-
  WAITGC verification — the dispatcher and the I/O workers as threads.

  The dispatcher and the workers share the work queues without a lock.  A step
  of the machine is one access of one of them to a queue: the dispatcher stores
  the fields of an entry one by one before it links the entry in, and stores
  the links one by one; a worker loads the fields of the entry under its cursor
  one by one.  Accesses are made in the order of the source, and a store is
  seen by all threads at once.  What only the dispatcher writes, the links, the
  ends of the lists and `nsecs_target`, it loads in the step that uses it.

  The cursor of a worker is its own.  It may stand on an entry that the
  dispatcher reclaims, takes from the free list again and fills.

  The machine notes the jobs that were handed over, and what the workers did:
  the fields they had loaded when they called `__fill_cq_result` or
  `buffer_release`.

  Left out: the data that a worker moves before it sets `is_copied`, and what
  the copy of a key-value namespace stores in `status` and `result0`.
-/
import WaitGc.Io.Pool

namespace WaitGc

open Outcome Function

/-! ## Stores and loads -/

/-- The fields of `struct nvmev_io_work`. -/
inductive Field where
  | sqid
  | cqid
  | sqEntry
  | commandId
  | nsecsStart
  | nsecsEnqueue
  | nsecsTarget
  | status
  | result0
  | result1
  | isCompleted
  | isCopied
  | prev
  | next
  | isInternal
  | writeBuffer
  | buffsToRelease
  deriving DecidableEq, Repr

/-- The field `f` of `x` is stored in `e`. -/
def Field.copy (f : Field) (x e : IoWork) : IoWork :=
  match f with
  | sqid => { e with sqid := x.sqid }
  | cqid => { e with cqid := x.cqid }
  | sqEntry => { e with sqEntry := x.sqEntry }
  | commandId => { e with commandId := x.commandId }
  | nsecsStart => { e with nsecsStart := x.nsecsStart }
  | nsecsEnqueue => { e with nsecsEnqueue := x.nsecsEnqueue }
  | nsecsTarget => { e with nsecsTarget := x.nsecsTarget }
  | status => { e with status := x.status }
  | result0 => { e with result0 := x.result0 }
  | result1 => { e with result1 := x.result1 }
  | isCompleted => { e with isCompleted := x.isCompleted }
  | isCopied => { e with isCopied := x.isCopied }
  | prev => { e with prev := x.prev }
  | next => { e with next := x.next }
  | isInternal => { e with isInternal := x.isInternal }
  | writeBuffer => { e with writeBuffer := x.writeBuffer }
  | buffsToRelease => { e with buffsToRelease := x.buffsToRelease }

/-- The fields that `__enqueue_io_req` and `schedule_internal_operation` store, in their
    order. -/
def IoJob.fields : IoJob → List Field
  | io .. => [.sqid, .cqid, .sqEntry, .commandId, .nsecsStart, .nsecsEnqueue, .nsecsTarget, .status,
      .result0, .result1, .isCompleted, .isCopied, .prev, .next, .isInternal]
  | internal .. => [.sqid, .nsecsEnqueue, .nsecsStart, .nsecsTarget, .isCompleted, .isCopied, .prev,
      .next, .isInternal, .writeBuffer, .buffsToRelease]

/-- What they store in them, at local time `clock`. -/
def IoJob.values (job : IoJob) (clock : ℕ) : IoWork := job.fill .zero clock

/-- A store to the links of a queue. -/
inductive LinkStore where
  | next (i v : ℕ)
  | prev (i v : ℕ)
  | ioSeq (v : ℕ)
  | ioSeqEnd (v : ℕ)
  | freeSeqEnd (v : ℕ)
  deriving DecidableEq, Repr

def LinkStore.apply (w : IoWorker) : LinkStore → IoWorker
  | next i v => w.setNext i v
  | prev i v => w.setPrev i v
  | ioSeq v => { w with ioSeq := v }
  | ioSeqEnd v => { w with ioSeqEnd := v }
  | freeSeqEnd v => { w with freeSeqEnd := v }

namespace IoWorker

/-- Some stores, one after the other. -/
def stores (w : IoWorker) (todo : List LinkStore) : IoWorker := todo.foldl LinkStore.apply w

/-- The stores of `__insert_req_sorted` when no entry is pending. -/
def firstStores (entry : ℕ) : List LinkStore := [.ioSeq entry, .ioSeqEnd entry]

/-- Its stores once the slot is found. -/
def linkStores (w : IoWorker) (entry curr : ℕ) : List LinkStore :=
  if curr = nil32 then
    -- head inserted
    [.prev w.ioSeq entry, .next entry w.ioSeq, .ioSeq entry]
  else if (w.workQueue curr).next = nil32 then
    -- tail
    [.prev entry curr, .ioSeqEnd entry, .next curr entry]
  else
    -- in between
    [.prev entry curr, .next entry (w.workQueue curr).next, .prev (w.workQueue curr).next entry,
      .next curr entry]

/-- The stores of `__reclaim_completed_reqs`, from `first_entry` to `last_entry`. -/
def giveBackStores (w : IoWorker) (firstEntry lastEntry : ℕ) : List LinkStore :=
  let next := (w.workQueue lastEntry).next
  .ioSeq next :: (if next ≠ nil32 then [.prev next nil32] else []) ++
    [.next lastEntry nil32, .prev firstEntry w.freeSeqEnd, .next w.freeSeqEnd firstEntry,
      .freeSeqEnd lastEntry]

end IoWorker

/-! ## The dispatcher -/

/-- What `__reclaim_completed_reqs` tests next of an entry. -/
inductive ReclaimCheck where
  | completed
  | copied
  | due
  deriving DecidableEq, Repr

/-- Where the dispatcher stands in a call. -/
inductive Task where
  /-- `__enqueue_io_req`, `schedule_internal_operation`: it has yet to store the fields `todo`. -/
  | fill (entry : ℕ) (job : IoJob) (clock : ℕ) (todo : List Field)
  /-- The loop of `__insert_req_sorted`. -/
  | scan (entry nsecsTarget curr : ℕ)
  /-- The stores of `__insert_req_sorted`. -/
  | link (entry : ℕ) (todo : List LinkStore)
  /-- The loop of `__reclaim_completed_reqs`. -/
  | look (firstEntry curr lastEntry : ℕ) (check : ReclaimCheck)
  /-- Its stores. -/
  | giveBack (todo : List LinkStore)
  deriving DecidableEq, Repr

/-- The next access of the dispatcher; `none` once it returns. -/
def Task.step (w : IoWorker) : Task → IoWorker × Option Task
  | fill entry job clock (f :: todo) =>
    (w.set entry (f.copy (job.values clock) (w.workQueue entry)), some (fill entry job clock todo))
  | fill entry job _ [] =>
    if w.ioSeq = nil32 then (w, some (link entry (IoWorker.firstStores entry)))
    else (w, some (scan entry job.nsecsTarget w.ioSeqEnd))
  | scan entry nsecsTarget curr =>
    if curr = nil32 then (w, some (link entry (w.linkStores entry curr)))
    else if (w.workQueue curr).nsecsTarget ≤ w.latestNsecs then
      (w, some (link entry (w.linkStores entry curr)))
    else if (w.workQueue curr).nsecsTarget ≤ nsecsTarget then
      (w, some (link entry (w.linkStores entry curr)))
    else (w, some (scan entry nsecsTarget (w.workQueue curr).prev))
  | link entry (st :: todo) => (st.apply w, some (link entry todo))
  | link _ [] => (w, none)
  | look firstEntry curr lastEntry check =>
    let stop := if lastEntry ≠ nil32 then some (giveBack (w.giveBackStores firstEntry lastEntry)) else none
    if curr = nil32 then (w, stop)
    else match check with
      | .completed =>
        if (w.workQueue curr).isCompleted = true then (w, some (look firstEntry curr lastEntry .copied))
        else (w, stop)
      | .copied =>
        if (w.workQueue curr).isCopied = true then (w, some (look firstEntry curr lastEntry .due))
        else (w, stop)
      | .due =>
        if (w.workQueue curr).nsecsTarget ≤ w.latestNsecs then
          (w, some (look firstEntry (w.workQueue curr).next curr .completed))
        else (w, stop)
  | giveBack (st :: todo) => (st.apply w, some (giveBack todo))
  | giveBack [] => (w, none)

/-! ## The workers -/

/-- Where a worker stands in its loop, by the access it makes next. -/
inductive WorkerPc where
  /-- `curr = worker->io_seq` -/
  | top
  /-- The test of the inner loop, and the store to `latest_nsecs`. -/
  | test
  | isCompleted
  | isCopied
  | setCopied
  | nsecsTarget
  | isInternal
  /-- The fields that `__fill_cq_result` and `buffer_release` are yet to load. -/
  | load (todo : List Field)
  | setCompleted
  /-- `curr = w->next` -/
  | next
  deriving DecidableEq, Repr

/-- A worker: its variables, and the fields it has loaded. -/
structure WorkerThread where
  pc : WorkerPc
  curr : ℕ
  currNsecs : ℕ
  seen : IoWork
  deriving DecidableEq, Repr

/-- What a worker loads of an entry that is due. -/
def loads (isInternal : Bool) : List Field :=
  if isInternal then [.writeBuffer, .buffsToRelease]
  else [.sqid, .cqid, .sqEntry, .commandId, .status, .result0, .result1]

/-- The next access of a worker; `currNsecs` is what its clock shows. -/
def WorkerThread.step (w : IoWorker) (th : WorkerThread) (currNsecs : ℕ) : IoWorker × WorkerThread :=
  let e := w.workQueue th.curr
  match th.pc with
  | .top => (w, { th with pc := .test, curr := w.ioSeq })
  | .test =>
    if th.curr = nil32 then (w, { th with pc := .top })
    else (w.tick currNsecs, { th with pc := .isCompleted, currNsecs })
  | .isCompleted => (w, { th with pc := if e.isCompleted = true then .next else .isCopied })
  | .isCopied => (w, { th with pc := if e.isCopied = false then .setCopied else .nsecsTarget })
  | .setCopied => (w.copied th.curr, { th with pc := .nsecsTarget })
  | .nsecsTarget =>
    (w, { th with
      pc := if e.nsecsTarget ≤ th.currNsecs then .isInternal else .next
      seen := Field.nsecsTarget.copy e th.seen })
  | .isInternal => (w, { th with pc := .load (loads e.isInternal), seen := Field.isInternal.copy e th.seen })
  | .load (f :: todo) => (w, { th with pc := .load todo, seen := f.copy e th.seen })
  | .load [] => (w, { th with pc := .setCompleted })
  | .setCompleted => (w.completed th.curr, { th with pc := .next })
  | .next => (w, { th with pc := .test, curr := e.next })

/-! ## All of them -/

/-- The queues, the call the dispatcher is in, the workers, and what happened so far: the jobs
    handed over, the number of the job in each entry, and what the workers are done with. -/
structure Threads where
  nrIoWorkers : ℕ
  ioWorkers : ℕ → IoWorker
  disp : Option (ℕ × Task)
  threads : ℕ → WorkerThread
  jobs : List IoJob
  tag : ℕ × ℕ → ℕ
  done : List (ℕ × IoWork)

namespace Threads

def init (nrIoWorkers : ℕ) : Threads where
  nrIoWorkers := nrIoWorkers
  ioWorkers := IoWorker.init
  disp := none
  threads _ := ⟨.top, nil32, 0, .zero⟩
  jobs := []
  tag _ := 0
  done := []

/-- The worker of a job. -/
def workerOf (s : Threads) (job : IoJob) : ℕ := getIoWorker s.nrIoWorkers job.sqid

/-- The dispatcher is in a call for the worker `wid`. -/
def task (s : Threads) (wid : ℕ) : Option Task :=
  match s.disp with
  | none => none
  | some (wid', task) => if wid' = wid then some task else none

/-- The dispatcher takes an entry for a job, `__allocate_work_queue_entry`.  The job counts as
    handed over if there is none: both callers return nothing, and `__nvmev_proc_io` returns
    `true` after the call. -/
def call (s : Threads) (clock : ℕ) (job : IoJob) : Threads :=
  let wid := s.workerOf job
  match (s.ioWorkers wid).allocateWorkQueueEntry with
  | none => { s with jobs := s.jobs ++ [job] }
  | some (entry, w) => { s with
      ioWorkers := update s.ioWorkers wid w
      disp := some (wid, .fill entry job clock job.fields) }

/-- A turn of the loop of `__reclaim_completed_reqs` begins. -/
def reclaim (s : Threads) (wid : ℕ) : Threads :=
  let first := (s.ioWorkers wid).ioSeq
  { s with disp := some (wid, .look first first nil32 .completed) }

/-- A job counts as handed over when its entry is filled. -/
def note (s : Threads) (wid : ℕ) : Task → Threads
  | .fill entry job _ [_] => { s with
      jobs := s.jobs ++ [job]
      tag := update s.tag (wid, entry) s.jobs.length }
  | _ => s

/-- The next access of the dispatcher. -/
def access (s : Threads) : Threads :=
  match s.disp with
  | none => s
  | some (wid, task) =>
    let r := task.step (s.ioWorkers wid)
    { s.note wid task with
      ioWorkers := update s.ioWorkers wid r.1
      disp := r.2.map (wid, ·) }

/-- The next access of a worker. -/
def turn (s : Threads) (wid currNsecs : ℕ) : Threads :=
  let th := s.threads wid
  let r := th.step (s.ioWorkers wid) currNsecs
  { s with
    ioWorkers := update s.ioWorkers wid r.1
    threads := update s.threads wid r.2
    done := if th.pc = .load [] then s.done ++ [(s.tag (wid, th.curr), th.seen)] else s.done }

end Threads

/-- The events of the machine. -/
inductive ThreadEvent where
  | call (clock : ℕ) (job : IoJob)
  | reclaim (wid : ℕ)
  | access
  | turn (wid currNsecs : ℕ)

/-- The machine.  The dispatcher begins a call when it is in none; workers that do not exist
    take no turns. -/
def threads : Machine Threads ThreadEvent Fault where
  step s
    | .call clock job => .ok (if s.disp.isNone then s.call clock job else s)
    | .reclaim wid => .ok (if s.disp.isNone ∧ wid < s.nrIoWorkers then s.reclaim wid else s)
    | .access => .ok s.access
    | .turn wid currNsecs => .ok (if wid < s.nrIoWorkers then s.turn wid currNsecs else s)

end WaitGc

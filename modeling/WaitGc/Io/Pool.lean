/-
  WAITGC verification — the I/O workers and the dispatcher that feeds them.

  The dispatcher enqueues the completions of the commands it accepted and the
  releases of the buffers they wrote, and reclaims entries; each worker walks
  its pending list with a cursor that it follows link by link, while the
  dispatcher changes the list under it.  A step of the machine is one call of
  `__enqueue_io_req` or `schedule_internal_operation`, one turn of the loop of
  `__reclaim_completed_reqs`, or one move of a worker: it starts over at the
  head, handles the entry under the cursor, or follows its link.

  So a worker makes no access in the middle of a call, nor the dispatcher in the
  middle of a move.  The code makes the stores of a call one by one: `Io/Threads`
  is the same in single accesses, and a call that no worker disturbs is a step of
  this machine (`call_undisturbed`, `reclaim_undisturbed`).

  The machine notes what was handed to the queues, and what the workers did:
  the entries they called `__fill_cq_result` and `buffer_release` with.
-/
import WaitGc.Io.Worker

namespace WaitGc

open Outcome Function

/-- The workers, their cursors, and what happened so far: the jobs handed over,
    the number of the job in each entry, and the entries done with. -/
structure Pool where
  nrIoWorkers : ℕ
  ioWorkers : ℕ → IoWorker
  curr : ℕ → ℕ
  jobs : List IoJob
  tag : ℕ × ℕ → ℕ
  done : List (ℕ × IoWork)

/-- `__get_io_worker`: the workers are chosen by queue.  Queues are numbered
    from 1. -/
def getIoWorker (nrIoWorkers sqid : ℕ) : ℕ := (sqid - 1) % nrIoWorkers

namespace Pool

/-- A new pool. -/
def init (nrIoWorkers : ℕ) : Pool where
  nrIoWorkers := nrIoWorkers
  ioWorkers := IoWorker.init
  curr _ := nil32
  jobs := []
  tag _ := 0
  done := []

/-- The worker of a job. -/
def workerOf (s : Pool) (job : IoJob) : ℕ := getIoWorker s.nrIoWorkers job.sqid

def setWorker (s : Pool) (wid : ℕ) (w : IoWorker) : Pool :=
  { s with ioWorkers := update s.ioWorkers wid w }

/-- `__enqueue_io_req`, `schedule_internal_operation`.  The job counts as handed
    over whether or not there was an entry for it: both return nothing, and
    `__nvmev_proc_io` returns `true` after the call. -/
def enqueue (s : Pool) (clock : ℕ) (job : IoJob) : Pool :=
  let wid := s.workerOf job
  let w := s.ioWorkers wid
  { s.setWorker wid (w.enqueue clock job) with
    jobs := s.jobs ++ [job]
    tag := match w.allocateWorkQueueEntry with
      | none => s.tag
      | some (entry, _) => update s.tag (wid, entry) s.jobs.length }

/-- The body of the loop of `nvmev_io_worker`, before it follows the link: the
    entry under the cursor is copied and, when it is due, done with. -/
def visit (s : Pool) (wid currNsecs : ℕ) : Pool :=
  let i := s.curr wid
  if i = nil32 then s
  else
    let w := (s.ioWorkers wid).tick currNsecs
    if (w.workQueue i).isCompleted = true then s.setWorker wid w
    else
      let w := if (w.workQueue i).isCopied = false then w.copied i else w
      if (w.workQueue i).nsecsTarget ≤ currNsecs then
        { s.setWorker wid (w.completed i) with
          done := s.done ++ [(s.tag (wid, i), w.workQueue i)] }
      else s.setWorker wid w

end Pool

/-- The events of the machine. -/
inductive PoolEvent where
  | enqueue (clock : ℕ) (job : IoJob)
  | reclaim (wid : ℕ)
  | start (wid : ℕ)
  | visit (wid currNsecs : ℕ)
  | advance (wid : ℕ)

/-- A move of the worker `wid`; workers that do not exist make none. -/
def Pool.act (s : Pool) (wid : ℕ) (s' : Pool) : Pool := if wid < s.nrIoWorkers then s' else s

/-- The machine. -/
def pool : Machine Pool PoolEvent Fault where
  step s
    | .enqueue clock job => .ok (s.enqueue clock job)
    | .reclaim wid => .ok (s.act wid (s.setWorker wid (s.ioWorkers wid).reclaimCompletedReqs))
    | .start wid => .ok (s.act wid { s with curr := update s.curr wid (s.ioWorkers wid).ioSeq })
    | .visit wid currNsecs => .ok (s.act wid (s.visit wid currNsecs))
    | .advance wid => .ok (s.act wid { s with
        curr := update s.curr wid (if s.curr wid = nil32 then nil32
          else ((s.ioWorkers wid).workQueue (s.curr wid)).next) })

end WaitGc

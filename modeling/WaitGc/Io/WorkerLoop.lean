/-
  WAITGC verification — the loop of an I/O worker (`nvmev_io_worker`).

  A worker passes over its pending list again and again.  One step of the machine is
  one call of the dispatcher, or one move of a worker at the place in its loop where
  it stands; between any two of them the others may move, but not in the middle of
  one (`Io/Pool`).

  Left out: the sleep of a worker.  The interrupts that it sends after a pass are in
  `Io/Interrupts`.
-/
import WaitGc.Io.Pool

namespace WaitGc

open Outcome Function

/-- Where a worker stands: before a pass, at the test of its inner loop, or before
    `curr = w->next`. -/
inductive LoopPc where
  | top
  | test
  | link
  deriving DecidableEq, Repr

/-- The pool, where its workers stand, and the passes they have completed. -/
structure WorkerLoops where
  pool : Pool
  pc : ℕ → LoopPc
  passes : ℕ → ℕ

namespace WorkerLoops

/-- A new pool. -/
def init (nrIoWorkers : ℕ) : WorkerLoops := ⟨Pool.init nrIoWorkers, fun _ => .top, fun _ => 0⟩

/-- The next move of a worker; `currNsecs` is what its clock shows. -/
def turn (s : WorkerLoops) (wid currNsecs : ℕ) : WorkerLoops :=
  match s.pc wid with
  | .top =>
    { s with
      pool := { s.pool with curr := update s.pool.curr wid (s.pool.ioWorkers wid).ioSeq }
      pc := update s.pc wid .test }
  | .test =>
    if s.pool.curr wid = nil32 then
      { s with pc := update s.pc wid .top, passes := update s.passes wid (s.passes wid + 1) }
    else { s with pool := s.pool.visit wid currNsecs, pc := update s.pc wid .link }
  | .link =>
    { s with
      pool := { s.pool with
        curr := update s.pool.curr wid ((s.pool.ioWorkers wid).workQueue (s.pool.curr wid)).next }
      pc := update s.pc wid .test }

end WorkerLoops

/-- The events of the machine. -/
inductive LoopEvent where
  | enqueue (clock : ℕ) (job : IoJob)
  | reclaim (wid : ℕ)
  | turn (wid currNsecs : ℕ)

/-- The machine; workers that do not exist make no moves. -/
def workerLoops : Machine WorkerLoops LoopEvent Fault where
  step s
    | .enqueue clock job => .ok { s with pool := s.pool.enqueue clock job }
    | .reclaim wid => .ok { s with
        pool := s.pool.act wid (s.pool.setWorker wid (s.pool.ioWorkers wid).reclaimCompletedReqs) }
    | .turn wid currNsecs => .ok (if wid < s.pool.nrIoWorkers then s.turn wid currNsecs else s)

end WaitGc

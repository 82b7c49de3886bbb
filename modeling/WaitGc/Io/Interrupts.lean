/-
  WAITGC verification — the interrupts of the completion queues (the end of the loop of
  `nvmev_io_worker`).

  Whoever posts a completion sets `interrupt_ready` of the queue.  After each pass over its
  work queue, a worker looks at the completion queues it is responsible for, and raises
  the interrupt of those that are ready.  One step of the machine is an event of the
  completion queues, or one access of a worker to what it shares: a completion may be
  posted between the worker's test of `interrupt_ready` and the assignment that clears
  it.

  Left out: the interrupt vector, and which of the interrupt lines it is.
-/
import WaitGc.Io.Completion
import WaitGc.Io.Pool

namespace WaitGc

open Outcome Function

/-- Where a worker stands: in a pass over its work queue, or at the queue `qidx` of the loop
    after it: before the tests, with the `irq_lock`, after it found `interrupt_ready` set,
    after it cleared it, or before it gives the lock back. -/
inductive IrqPc where
  | pass
  | look (qidx : ℕ)
  | locked (qidx : ℕ)
  | ready (qidx : ℕ)
  | cleared (qidx : ℕ)
  | unlock (qidx : ℕ)
  deriving DecidableEq, Repr

/-- The completion queues and the workers, and what happened so far: the passes of each
    worker, and for each interrupt of a queue the number of completions that had been
    posted to it. -/
structure IrqLoops where
  queues : Completion
  irqEnabled : ℕ → Bool
  irqLock : ℕ → Bool
  nrIoWorkers : ℕ
  nrCq : ℕ
  pc : ℕ → IrqPc
  passes : ℕ → ℕ
  signals : ℕ → List ℕ

/-- `cq->interrupt_ready` -/
def Completion.ready (s : Completion) (cqid : ℕ) : Bool := (s.cqes cqid).elim false (·.interruptReady)

/-- `cq->interrupt_ready = false` -/
def Completion.clear (s : Completion) (cqid : ℕ) : Completion :=
  { s with cqes := update s.cqes cqid ((s.cqes cqid).map fun cq => { cq with interruptReady := false }) }

namespace IrqLoops

def goto (s : IrqLoops) (wid : ℕ) (pc : IrqPc) : IrqLoops := { s with pc := update s.pc wid pc }

/-- The next move of a worker. -/
def turn (s : IrqLoops) (wid : ℕ) : IrqLoops :=
  match s.pc wid with
  | .pass => s.goto wid (.look 1)
  | .look qidx =>
    if s.nrCq < qidx then { s.goto wid .pass with passes := update s.passes wid (s.passes wid + 1) }
    else if wid ≠ getIoWorker s.nrIoWorkers qidx then s.goto wid (.look (qidx + 1))
    else if (s.queues.cqes qidx).isNone ∨ s.irqEnabled qidx = false then s.goto wid (.look (qidx + 1))
    -- `mutex_trylock`
    else if s.irqLock qidx = true then s.goto wid (.look (qidx + 1))
    else { s.goto wid (.locked qidx) with irqLock := update s.irqLock qidx true }
  | .locked qidx => s.goto wid (if s.queues.ready qidx = true then .ready qidx else .unlock qidx)
  | .ready qidx => { s.goto wid (.cleared qidx) with queues := s.queues.clear qidx }
  | .cleared qidx =>
    { s.goto wid (.unlock qidx) with
      signals := update s.signals qidx (s.signals qidx ++ [(s.queues.posted qidx).length]) }
  | .unlock qidx => { s.goto wid (.look (qidx + 1)) with irqLock := update s.irqLock qidx false }

end IrqLoops

/-- The events of the machine. -/
inductive IrqEvent where
  | queue (e : CqEvent)
  | turn (wid : ℕ)

/-- The machine; workers that do not exist make no moves. -/
def irqLoops : Machine IrqLoops IrqEvent Fault where
  step s
    | .queue e => (completion.step s.queues e).map fun queues => { s with queues := queues }
    | .turn wid => .ok (if wid < s.nrIoWorkers then s.turn wid else s)

end WaitGc

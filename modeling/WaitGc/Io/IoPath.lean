/-
  WAITGC verification — the path of an I/O command (`__nvmev_proc_io`), from the
  submission queue it is put into to the host that reads its completion.

  The machine runs the dispatcher (`Io/Dispatcher`), the pool of workers (`Io/Pool`) and
  the completion queues (`Io/Completion`) on one device: a step of it is a step of one of
  them, and hands over what the next one needs.  As in `Io/Pool`, a worker makes no
  access in the middle of a call of the dispatcher.

  * The host writes commands into the entries after its tail, and the doorbell.
  * The dispatcher asks the namespace about an entry; when it accepts, the
    `command_id` in the entry goes to a worker with the result.  In between, the
    namespace schedules internal operations.
  * A worker that is done with a command posts its completion.

  The machine notes the commands of each queue, what they were sent to, and which
  command each job is for.
-/
import WaitGc.Io.Completion
import WaitGc.Io.Pool

namespace WaitGc

open Outcome Function

/-- What the namespace answers about an entry it accepts (`struct nvmev_result`), with the
    clocks that `__nvmev_proc_io` and `__enqueue_io_req` read, and the size of the
    command. -/
structure IoAnswer where
  ioSize : ℕ
  clock : ℕ
  nsecsStart : ℕ
  nsecsTarget : ℕ
  status : ℕ
  result : ℕ

/-- The queues, the call of `nvmev_proc_io_sq` that the dispatcher is in, the workers,
    and the `command_id`s in the memory of the submission queues.  A command is
    named by its queue and its number in it. -/
structure IoPath extends Completion where
  round : Option SqRound
  accepted : ℕ → List ℤ
  pool : Pool
  sqMem : ℕ → ℤ → ℕ
  commands : ℕ → List ℕ
  sent : ℕ → List (ℕ × ℕ)
  origin : List (Option (ℕ × ℕ))

/-- The events of the machine. -/
inductive PathEvent where
  /-- The host puts commands into a submission queue, and rings its doorbell. -/
  | submit (qid : ℕ) (commandIds : List ℕ)
  | poll (qid : ℕ)
  | internal (clock sqid nsecsTarget writeBuffer buffsToRelease : ℕ)
  | handle (answer : Option IoAnswer)
  | reclaim (wid : ℕ)
  | start (wid : ℕ)
  | visit (wid currNsecs : ℕ)
  | advance (wid : ℕ)
  | read (cqid : ℕ)
  | ring (cqid n : ℕ)
  | pollCq (cqid : ℕ)

namespace IoPath

/-- The dispatcher's part. -/
def dispatch (s : IoPath) : Dispatch := ⟨⟨s.sqes, s.dbs, s.oldDbs, s.round⟩, s.submitted, s.accepted⟩

def withDispatch (s : IoPath) (d : Dispatch) : IoPath :=
  { s with
    sqes := d.dev.sqes
    dbs := d.dev.dbs
    oldDbs := d.dev.oldDbs
    round := d.dev.round
    submitted := d.posted
    accepted := d.accepted }

def withCompletion (s : IoPath) (c : Completion) : IoPath := { s with toCompletion := c }

/-! ## The host -/

/-- The tail of the queue, once the commands are in it. -/
def tail (s : IoPath) (qid : ℕ) (commandIds : List ℕ) : ℤ :=
  match s.sqes qid with
  | none => s.dbs (sqDbsIdx qid)
  | some sq => (s.dbs (sqDbsIdx qid) + commandIds.length) % sq.queueSize

/-- The host writes the entries of the commands. -/
def store (s : IoPath) (qid : ℕ) (commandIds : List ℕ) : IoPath :=
  match s.sqes qid with
  | none => s
  | some sq =>
    { s with
      sqMem := update s.sqMem qid fun entry =>
        (commandIds[((entry - s.dbs (sqDbsIdx qid)) % sq.queueSize).toNat]?).getD (s.sqMem qid entry)
      commands := update s.commands qid (s.commands qid ++ commandIds)
      sent := update s.sent sq.cqid (s.sent sq.cqid ++
        (List.range commandIds.length).map fun i => (qid, (s.commands qid).length + i)) }

/-! ## The dispatcher -/

/-- What `__nvmev_proc_io` does once the namespace has accepted the entry. -/
def procIo (s : IoPath) (answer : Option IoAnswer) : IoPath :=
  match answer, s.round with
  | some a, some r =>
    match s.sqes r.sqid with
    | none => s
    | some sq =>
      { s with
        pool := s.pool.enqueue a.clock (.io r.sqid sq.cqid r.sqEntry (s.sqMem r.sqid r.sqEntry)
          a.nsecsStart a.nsecsTarget a.status a.result)
        origin := s.origin ++ [some (r.sqid, (s.accepted r.sqid).length)] }
  | _, _ => s

/-- `schedule_internal_operation` -/
def scheduleInternal (s : IoPath) (clock : ℕ) (job : IoJob) : IoPath :=
  { s with pool := s.pool.enqueue clock job, origin := s.origin ++ [none] }

/-! ## The workers -/

/-- The commands that a worker completes in a step of the pool. -/
def filled (p p' : Pool) : List IoWork :=
  ((p'.done.drop p.done.length).map (·.2)).filter fun w => !w.isInternal

/-- A worker moves, and posts what it completes. -/
def move (s : IoPath) (e : PoolEvent) : Except Fault IoPath := do
  let p ← WaitGc.pool.step s.pool e
  let c ← (filled s.pool p).foldlM Completion.post s.toCompletion
  pure { s.withCompletion c with pool := p }

end IoPath

/-- The machine. -/
def ioPath : Machine IoPath PathEvent Fault where
  step s
    | .submit qid commandIds => (dispatcher.step s.dispatch (.ring qid (s.tail qid commandIds))).map
        (s.store qid commandIds).withDispatch
    | .poll qid => (dispatcher.step s.dispatch (.poll qid)).map s.withDispatch
    | .internal clock sqid nsecsTarget writeBuffer buffsToRelease =>
      .ok (s.scheduleInternal clock (.internal sqid nsecsTarget writeBuffer buffsToRelease))
    | .handle answer => (dispatcher.step s.dispatch (.handle (answer.map (·.ioSize)))).map
        (s.procIo answer).withDispatch
    | .reclaim wid => s.move (.reclaim wid)
    | .start wid => s.move (.start wid)
    | .visit wid currNsecs => s.move (.visit wid currNsecs)
    | .advance wid => s.move (.advance wid)
    | .read cqid => (completion.step s.toCompletion (.read cqid)).map s.withCompletion
    | .ring cqid n => (completion.step s.toCompletion (.ring cqid n)).map s.withCompletion
    | .pollCq cqid => (completion.step s.toCompletion (.poll cqid)).map s.withCompletion

end WaitGc

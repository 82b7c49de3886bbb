/-
  WAITGC verification — completion queues (`__fill_cq_result`,
  `nvmev_proc_io_cq`) and the host that reads them.

  A worker posts an entry at the head of the ring and tags it with the phase;
  nothing in it looks at `cq_tail`, which the dispatcher keeps up to date from
  the host's doorbell.  The host reads the entries at its own head while their
  phase bit is its own, and writes the doorbell.

  The ring is the memory of the queue, one entry for each index.
-/
import WaitGc.Io.Dispatcher
import WaitGc.Io.Worker

namespace WaitGc

open Outcome Function

/-- `struct nvme_completion` -/
structure NvmeCompletion where
  result0 : ℕ
  result1 : ℕ
  sqHead : ℕ
  sqId : ℕ
  commandId : ℕ
  status : ℕ
  deriving DecidableEq, Repr

/-- The phase tag of an entry: bit 0 of its status. -/
def NvmeCompletion.phase (cqe : NvmeCompletion) : Bool := cqe.status.testBit 0

/-- A 16-bit unsigned value. -/
def u16 (x : ℕ) : ℕ := x % 2 ^ 16

/-- `struct nvmev_completion_queue`, and its ring. -/
structure CompletionQueue where
  queueSize : ℤ
  phase : Bool
  cqHead : ℤ
  cqTail : ℤ
  interruptReady : Bool
  cq : ℤ → NvmeCompletion

/-- What `__nvmev_admin_create_cq` sets up, over the memory `cq` of the host. -/
def CompletionQueue.create (qsize : ℕ) (cq : ℤ → NvmeCompletion) : CompletionQueue where
  queueSize := qsize + 1
  phase := true
  cqHead := 0
  cqTail := -1
  interruptReady := false
  cq := cq

/-- The entry that reports `w`, with the phase tag `phase`. -/
def IoWork.cqe (w : IoWork) (phase : Bool) : NvmeCompletion where
  result0 := w.result0
  result1 := w.result1
  sqHead := (w.sqEntry % 2 ^ 16).toNat
  sqId := u16 w.sqid
  commandId := u16 w.commandId
  status := u16 (phase.toNat ||| u32 (w.status <<< 1))

/-- `__fill_cq_result` -/
def fillCqResult (cq : CompletionQueue) (w : IoWork) : CompletionQueue :=
  { cq with
    cq := update cq.cq cq.cqHead (w.cqe cq.phase)
    cqHead := if cq.cqHead + 1 = cq.queueSize then 0 else cq.cqHead + 1
    phase := if cq.cqHead + 1 = cq.queueSize then !cq.phase else cq.phase
    interruptReady := true }

/-- The entries between two values of the doorbell: the loop of
    `nvmev_proc_io_cq` runs `i` from the old value to the new one, and over the
    end of the ring. -/
def cqSpan (cq : CompletionQueue) (newDb oldDb : ℤ) : List ℤ :=
  if oldDb ≤ newDb then (List.range (newDb - oldDb).toNat).map (oldDb + ·)
  else (List.range (cq.queueSize - oldDb).toNat).map (oldDb + ·) ++
    (List.range newDb.toNat).map (↑)

/-- `nvmev_proc_io_cq` -/
def nvmevProcIoCq (sqes : ℕ → Option SubmissionQueue) (cq : CompletionQueue) (newDb oldDb : ℤ) :
    (ℕ → Option SubmissionQueue) × CompletionQueue :=
  ((cqSpan cq newDb oldDb).foldl (fun sqes i =>
      update sqes (cq.cq i).sqId ((sqes (cq.cq i).sqId).map fun sq =>
        { sq with stat := { sq.stat with nrInFlight := u32 (sq.stat.nrInFlight + 2 ^ 32 - 1) } })) sqes,
    { cq with cqTail := if newDb = -1 then cq.queueSize - 1 else newDb - 1 })

/-- `dbs_idx` of a completion queue. -/
def cqDbsIdx (qid : ℕ) : ℕ := qid * 2 + 1

/-- The host's side of a completion queue: where it reads, the phase tag it
    expects, and what it read. -/
structure CqReader where
  head : ℤ
  phase : Bool
  read : List NvmeCompletion

/-- The queues, the doorbell registers of the completion queues with what the
    dispatcher keeps of them, and the host; and what happened so far: how many
    commands the host put into each submission queue and how many of them were
    completed, the entries posted to each completion queue, and how many of
    them the host's doorbell has passed. -/
structure Completion where
  sqes : ℕ → Option SubmissionQueue
  cqes : ℕ → Option CompletionQueue
  dbs : ℕ → ℤ
  oldDbs : ℕ → ℤ
  host : ℕ → CqReader
  submitted : ℕ → ℕ
  completed : ℕ → ℕ
  posted : ℕ → List NvmeCompletion
  passed : ℕ → ℕ

/-- The events of the machine. -/
inductive CqEvent where
  /-- The host puts a command into a submission queue. -/
  | submit (sqid : ℕ)
  /-- A worker posts the completion of a command. -/
  | post (w : IoWork)
  /-- The host looks at the entry at its head. -/
  | read (cqid : ℕ)
  /-- The host writes the doorbell: it is done with the first `n` entries. -/
  | ring (cqid n : ℕ)
  /-- The dispatcher looks at the doorbell. -/
  | poll (cqid : ℕ)

namespace Completion

def post (s : Completion) (w : IoWork) : Except Fault Completion :=
  match s.cqes w.cqid with
  | none => .error .wildPointer
  | some cq => .ok { s with
      cqes := update s.cqes w.cqid (some (fillCqResult cq w))
      completed := update s.completed w.sqid (s.completed w.sqid + 1)
      posted := update s.posted w.cqid (s.posted w.cqid ++ [w.cqe cq.phase]) }

def read (s : Completion) (cqid : ℕ) : Completion :=
  match s.cqes cqid with
  | none => s
  | some cq =>
    let r := s.host cqid
    if (cq.cq r.head).phase = r.phase then { s with
      host := update s.host cqid
        ⟨if r.head + 1 = cq.queueSize then 0 else r.head + 1,
          if r.head + 1 = cq.queueSize then !r.phase else r.phase, r.read ++ [cq.cq r.head]⟩ }
    else s

def ring (s : Completion) (cqid n : ℕ) : Completion :=
  match s.cqes cqid with
  | none => s
  | some cq => { s with
      dbs := update s.dbs (cqDbsIdx cqid) (n % cq.queueSize)
      passed := update s.passed cqid n }

/-- An iteration of the completion-queue loop of `nvmev_proc_dbs`. -/
def poll (s : Completion) (cqid : ℕ) : Completion :=
  match s.cqes cqid with
  | none => s
  | some cq =>
    let newDb := s.dbs (cqDbsIdx cqid)
    let oldDb := s.oldDbs (cqDbsIdx cqid)
    if newDb ≠ oldDb then { s with
      sqes := (nvmevProcIoCq s.sqes cq newDb oldDb).1
      cqes := update s.cqes cqid (some (nvmevProcIoCq s.sqes cq newDb oldDb).2)
      oldDbs := update s.oldDbs (cqDbsIdx cqid) newDb }
    else s

end Completion

/-- The machine. -/
def completion : Machine Completion CqEvent Fault where
  step s
    | .submit sqid => .ok { s with submitted := update s.submitted sqid (s.submitted sqid + 1) }
    | .post w => s.post w
    | .read cqid => .ok (s.read cqid)
    | .ring cqid n => .ok (s.ring cqid n)
    | .poll cqid => .ok (s.poll cqid)

end WaitGc

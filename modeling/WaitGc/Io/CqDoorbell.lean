/-
  WAITGC verification — the loop of `nvmev_proc_io_cq`, turn by turn.

  The host writes the doorbell; `nvmev_proc_dbs` reads the register into an
  `int` and hands it over as it is.
-/
import WaitGc.Io.Completion

namespace WaitGc

open Function

/-- `nr_in_flight--` of the submission queue that the entry `i` names, if there is one. -/
def CompletionQueue.visit (cq : CompletionQueue) (sqes : ℕ → Option SubmissionQueue) (i : ℤ) :
    ℕ → Option SubmissionQueue :=
  update sqes (cq.cq i).sqId ((sqes (cq.cq i).sqId).map fun sq =>
    { sq with stat := { sq.stat with nrInFlight := u32 (sq.stat.nrInFlight + 2 ^ 32 - 1) } })

/-- The loop: its cursor, the submission queues, and the entries it visited. -/
structure CqLoop where
  i : ℤ
  sqes : ℕ → Option SubmissionQueue
  visited : List ℤ

/-- A turn.  At the end of the ring `continue` steps the cursor from `-1`. -/
def CqLoop.turn (cq : CompletionQueue) (l : CqLoop) : CqLoop :=
  if cq.queueSize ≤ l.i then { l with i := -1 + 1 }
  else ⟨l.i + 1, cq.visit l.sqes l.i, l.visited ++ [l.i]⟩

/-- The loop up to `new_db`, if it ends within `fuel` turns. -/
def CqLoop.run (cq : CompletionQueue) (newDb : ℤ) : ℕ → CqLoop → Option CqLoop
  | 0, l => if l.i = newDb then some l else none
  | fuel + 1, l => if l.i = newDb then some l else run cq newDb fuel (l.turn cq)

/-- `new_db`: the register as an `int`. -/
def doorbellValue (register : BitVec 32) : ℤ := register.toInt

end WaitGc

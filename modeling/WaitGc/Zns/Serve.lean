/-
  WAITGC verification — the commands of a zoned namespace between the dispatcher
  and the I/O workers (`__nvmev_proc_io`, `__enqueue_io_req`, `nvmev_io_worker`).

  The handler decides the status; the entry carries it to a worker, which
  copies the data of every entry and then posts the status.  A command that
  finds no free entry is never completed.

  The workers take the entries in any order: their queues are sorted by target
  times, and each worker has one of its own.
-/
import WaitGc.Io.Copy
import WaitGc.Io.Worker
import WaitGc.Zns.Namespace

namespace WaitGc

open Outcome Function

variable (c : ZnsCfg)

/-- A command that was handled and waits for a worker: the command, with the `slba`
    its submission entry holds, the status, and the host's side of the transfer. -/
structure ZnsEntry where
  cmd : ZnsCommand
  slba : ℕ
  status : ZnsStatus
  host : HostData

/-- `__do_perform_io` on the storage.  A read writes the host's memory, and the other
    commands move no data. -/
def ZnsEntry.performIo (e : ZnsEntry) (storage : ℕ → ℕ) : ℕ → ℕ :=
  match e.cmd with
  | .write rw | .append rw => e.host.write e.slba rw.bytes storage
  | .read _ | .flush | .mgmtSend _ | .other _ => storage

/-- `__nvmev_proc_io`, and `__enqueue_io_req` on a worker with the queue `w`. -/
def znsEnqueue (s : ZnsFtl) (w : IoWorker) (req : ZnsRequest) (host : HostData) :
    Except ZnsFault (Option ZnsEntry × ZnsFtl) := do
  let o ← znsProcNvmeIoCmd c s req
  match o.ret, w.allocateWorkQueueEntry with
  | some ret, some _ => pure (some ⟨req.cmd, o.slba, ret.status, host⟩, o.ftl)
  | _, _ => pure (none, o.ftl)

/-- A worker performs an entry. -/
def ZnsEntry.perform (e : ZnsEntry) (s : ZnsFtl) : ZnsFtl := { s with storage := e.performIo s.storage }

/-- A command is handled, and its entry is performed. -/
def znsServe (s : ZnsFtl) (w : IoWorker) (req : ZnsRequest) (host : HostData) : Except ZnsFault ZnsFtl :=
  (znsEnqueue c s w req host).map fun a => a.1.elim a.2 fun e => e.perform a.2

/-- A namespace, and the entries that wait for a worker. -/
structure ZnsServer where
  ftl : ZnsFtl
  entries : List ZnsEntry

/-- What happens: a command is handled, a worker performs the `i`-th entry, or it
    performs the `i`-th internal operation. -/
inductive ServeEvent where
  | command (req : ZnsRequest) (w : IoWorker) (host : HostData)
  | perform (i : ℕ)
  | fire (i : ℕ)

/-- The machine. -/
def znsServer : Machine ZnsServer ServeEvent ZnsFault where
  step v
    | .command req w host =>
      (znsEnqueue c v.ftl w req host).map fun a => ⟨a.2, v.entries ++ a.1.toList⟩
    | .perform i => .ok (match v.entries[i]? with
      | none => v
      | some e => ⟨e.perform v.ftl, v.entries.eraseIdx i⟩)
    | .fire i => .ok ⟨v.ftl.fire i, v.entries⟩

end WaitGc

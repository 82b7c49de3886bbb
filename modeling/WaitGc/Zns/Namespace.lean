/-
  WAITGC verification — the commands of a zoned namespace
  (`zns_proc_nvme_io_cmd`), and the namespace as a machine.

  An event is a command handed to the namespace, or an internal operation an
  I/O worker performs.  A command whose handler returns `false` has only taken
  part of what a write buffer had left, which is nothing.
-/
import WaitGc.Zns.Mgmt
import WaitGc.Zns.Write

namespace WaitGc

open Outcome Function

variable (c : ZnsCfg)

/-- `struct nvme_command`, by opcode.  `zns_zmgmt_recv` fills a report and changes no
    zone; it is among the others. -/
inductive ZnsCommand where
  | write (rw : RwCommand)
  | append (rw : RwCommand)
  | read (rw : RwCommand)
  | flush
  | mgmtSend (cmd : ZmgmtSendCommand)
  | other (opcode : BitVec 8)

/-- `struct nvmev_request`. -/
structure ZnsRequest where
  cmd : ZnsCommand
  sqId : ℕ
  nsecsStart : BitVec 64

/-- The `slba` of a command, or 0. -/
def ZnsCommand.slba : ZnsCommand → BitVec 64
  | .write rw | .append rw | .read rw => rw.slba
  | .mgmtSend cmd => cmd.slba
  | .flush | .other _ => 0

/-- `zns_proc_nvme_io_cmd`.  The dispatcher prepares a result with status
    `NVME_SC_SUCCESS` and target `nsecs_start`. -/
def znsProcNvmeIoCmd (s : ZnsFtl) (req : ZnsRequest) : Except ZnsFault ZnsOutcome :=
  let start := req.nsecsStart.toNat
  let slba := req.cmd.slba.toNat
  match req.cmd with
  | .write rw => znsWrite c s req.sqId start false rw
  | .append rw => znsWrite c s req.sqId start true rw
  | .read rw => let r := znsRead c s start rw; .ok ⟨some r.1, slba, r.2⟩
  | .flush => let r := znsFlush c s; .ok ⟨some r.1, slba, r.2⟩
  | .mgmtSend cmd => do
    let (status, s) ← znsZmgmtSend c s cmd
    pure ⟨some ⟨status, 0, start⟩, slba, s⟩
  | .other _ => .ok ⟨some ⟨.success, 0, start⟩, slba, s⟩

/-- An I/O worker performs the `i`-th internal operation (`buffer_release`). -/
def ZnsFtl.fire (s : ZnsFtl) (i : ℕ) : ZnsFtl :=
  match s.pending[i]? with
  | none => s
  | some op =>
    { s.setBuffer op.writeBuffer (bufferRelease (s.buffers op.writeBuffer) op.buffsToRelease) with
      pending := s.pending.eraseIdx i }

/-- The events of the machine. -/
inductive ZnsEvent where
  | command (req : ZnsRequest)
  | fire (i : ℕ)

/-- The machine. -/
def znsMachine : Machine ZnsFtl ZnsEvent ZnsFault where
  step s
    | .command req => (znsProcNvmeIoCmd c s req).map ZnsOutcome.ftl
    | .fire i => .ok (s.fire i)

/-- The zone a command is addressed to exists. -/
def ZnsCommand.Addressed : ZnsCommand → Prop
  | .write rw | .append rw | .read rw => lbaToZone c rw.slba.toNat < c.zp.nrZones
  | .mgmtSend cmd => cmd.selectAll = true ∨ lbaToZone c cmd.slba.toNat < c.zp.nrZones
  | .flush | .other _ => True

end WaitGc

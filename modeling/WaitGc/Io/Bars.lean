/-
  WAITGC verification — the controller registers (`pci.c`, `nvmev_proc_bars`).

  The host writes the registers of the BAR in any order.  The dispatcher compares
  each of them with the value it saw last and handles one difference at a look:
  first AQA, then ASQ and ACQ, and CC at the end.

  An event of the machine is a write of the host, a look of the dispatcher, or
  the admin commands it serves in between (`nvmev_proc_dbs`), which move the
  head of the completion ring and its phase.  A look is one step: writes fall
  between the looks, and one that lands inside `nvmev_proc_bars` is not covered.
-/
import WaitGc.Basic
import Mathlib.Logic.Function.Basic

namespace WaitGc

open Outcome Function

/-- `struct nvme_ctrl_regs`: the registers that the host writes. -/
structure CtrlRegs where
  aqa : BitVec 32
  asq : BitVec 64
  acq : BitVec 64
  cc : BitVec 32
  deriving DecidableEq

namespace CtrlRegs
variable (r : CtrlRegs)

/-- `aqa.asqs` -/
def asqs : ℕ := r.aqa.toNat % 2 ^ 12

/-- `aqa.acqs` -/
def acqs : ℕ := r.aqa.toNat / 2 ^ 16 % 2 ^ 12

/-- `cc.en` -/
def en : Bool := r.cc.getLsbD 0

/-- `cc.shn` -/
def shn : ℕ := r.cc.toNat / 2 ^ 14 % 2 ^ 2

end CtrlRegs

/-- `struct nvmev_admin_queue`; the two rings are arrays of page frames. -/
structure NvmevAdminQueue where
  phase : Bool
  sqDepth : ℕ
  cqDepth : ℕ
  cqHead : ℕ
  nvmeSq : Option (List ℕ)
  nvmeCq : Option (List ℕ)
  deriving DecidableEq

/-- A queue from `kzalloc`. -/
def NvmevAdminQueue.zero : NvmevAdminQueue := ⟨false, 0, 0, 0, none, none⟩

/-- `sizeof(struct nvme_command)` -/
def COMMAND_SIZE : ℕ := 64

/-- `sizeof(struct nvme_completion)` -/
def COMPLETION_SIZE : ℕ := 16

/-- `num_pages` of a ring. -/
def numPages (depth entrySize : ℕ) : ℕ := divRoundUp (depth * entrySize) 4096

/-- The pages of a ring that starts at `base`. -/
def ringPages (base : BitVec 64) (depth entrySize : ℕ) : List ℕ :=
  (List.range (numPages depth entrySize)).map fun i => base.toNat / 4096 + i

/-- The address of entry `i` of a ring (`sq_entry`, `cq_entry`); none past the pages. -/
def entryAddr (pages : List ℕ) (entrySize i : ℕ) : Option ℕ :=
  pages[i / (4096 / entrySize)]?.map fun page => page * 4096 + i % (4096 / entrySize) * entrySize

/-- `struct nvmev_dev`: what `nvmev_proc_bars` uses of it.  Of `csts` it writes `rdy` and
    `shst`. -/
structure Bars where
  bar : CtrlRegs
  oldBar : CtrlRegs
  rdy : Bool
  shst : ℕ
  adminQ : Option NvmevAdminQueue
  dbs : ℕ → ℤ
  oldDbs : ℕ → ℤ

/-- The registers after `__init_nvme_ctrl_regs` and `__create_pci_bus`. -/
def Bars.boot : Bars := ⟨⟨0, 0, 0, 0⟩, ⟨0, 0, 0, 0⟩, false, 0, none, fun _ => 0, fun _ => 0⟩

/-- `nvmev_vdev->admin_q` is dereferenced while it is `NULL`. -/
inductive BarFault where
  | nullAdminQueue
  deriving DecidableEq, Repr

namespace Bars
variable (s : Bars)

/-- `dbs[i] = old_dbs[i] = 0` -/
def clearDb (i : ℕ) : Bars := { s with dbs := update s.dbs i 0, oldDbs := update s.oldDbs i 0 }

/-- The branch for AQA. -/
def takeAqa : Bars :=
  let queue := s.adminQ.getD .zero
  ({ s with
    oldBar := { s.oldBar with aqa := s.bar.aqa }
    adminQ := some { queue with
      cqHead := 0
      phase := true
      sqDepth := s.bar.asqs + 1
      cqDepth := s.bar.acqs + 1 } }.clearDb 0).clearDb 1

/-- The branch for ASQ; without a queue it is retried at the next look. -/
def takeAsq : Bars :=
  match s.adminQ with
  | none => s
  | some queue =>
    { s with
      oldBar := { s.oldBar with asq := s.bar.asq }
      adminQ := some { queue with
        sqDepth := s.bar.asqs + 1
        nvmeSq := some (ringPages s.bar.asq (s.bar.asqs + 1) COMMAND_SIZE) } }.clearDb 0

/-- The branch for ACQ. -/
def takeAcq : Bars :=
  match s.adminQ with
  | none => s
  | some queue =>
    { s with
      oldBar := { s.oldBar with acq := s.bar.acq }
      adminQ := some { queue with
        cqDepth := s.bar.acqs + 1
        cqHead := 0
        phase := true
        nvmeCq := some (ringPages s.bar.acq (s.bar.acqs + 1) COMPLETION_SIZE) } }.clearDb 1

/-- The branch for CC: enable or disable, then the shutdown notification. -/
def takeCc : Except BarFault Bars := do
  let s := { s with rdy := if s.bar.en then s.adminQ.isSome || s.rdy else false }
  let s ←
    if s.bar.shn = 1 then
      match s.adminQ with
      | none => .error .nullAdminQueue
      | some queue =>
        .ok (({ s with shst := 2, adminQ := some { queue with cqHead := 0 } }.clearDb 0).clearDb 1)
    else .ok s
  .ok { s with oldBar := { s.oldBar with cc := s.bar.cc } }

/-- `nvmev_proc_bars`; `true` if an event is processed. -/
def nvmevProcBars : Except BarFault (Bool × Bars) :=
  if s.oldBar.aqa ≠ s.bar.aqa then .ok (true, s.takeAqa)
  else if s.oldBar.asq ≠ s.bar.asq then .ok (true, s.takeAsq)
  else if s.oldBar.acq ≠ s.bar.acq then .ok (true, s.takeAcq)
  else if s.oldBar.cc ≠ s.bar.cc then s.takeCc.map fun s => (true, s)
  else .ok (false, s)

end Bars

/-- What happens to the registers. -/
inductive BarEvent where
  | writeAqa (v : BitVec 32)
  | writeAsq (v : BitVec 64)
  | writeAcq (v : BitVec 64)
  | writeCc (v : BitVec 32)
  | ring (i : ℕ) (v : ℤ)
  | look
  | serve (cqHead : ℕ) (phase : Bool)

/-- The admin commands that `nvmev_proc_dbs` serves: both doorbells are seen, and the
    completions moved the head and the phase of the ring. -/
def Bars.serve (s : Bars) (cqHead : ℕ) (phase : Bool) : Bars :=
  match s.adminQ with
  | none => s
  | some queue =>
    { s with
      oldDbs := update (update s.oldDbs 0 (s.dbs 0)) 1 (s.dbs 1)
      adminQ := some { queue with cqHead := cqHead, phase := phase } }

/-- The host and the dispatcher at the registers. -/
def bars : Machine Bars BarEvent BarFault where
  step s
    | .writeAqa v => .ok { s with bar := { s.bar with aqa := v } }
    | .writeAsq v => .ok { s with bar := { s.bar with asq := v } }
    | .writeAcq v => .ok { s with bar := { s.bar with acq := v } }
    | .writeCc v => .ok { s with bar := { s.bar with cc := v } }
    | .ring i v => .ok { s with dbs := update s.dbs i v }
    | .look => s.nvmevProcBars.map Prod.snd
    | .serve cqHead phase => .ok (s.serve cqHead phase)

end WaitGc

/-
  WAITGC verification — the device as a machine.

  The dispatcher handles one command at a time; the I/O workers perform the
  internal operations it scheduled, in any order and at any moment.  An event
  of the machine is a command handed to the dispatcher, one move of the
  dispatcher inside `conv_write`, or one internal operation.  An event that
  cannot happen in a state leaves it as it is.

  `run_dispatch`: the moves of the machine for a command add up to
  `conv_proc_nvme_io_cmd`.
-/
import WaitGc.Ftl.Commands

namespace WaitGc

open Outcome Function

/-- The namespace, and the write command the dispatcher is in. -/
structure Device where
  dev : Dev
  job : Option WriteJob

/-- The events of the machine. -/
inductive Event where
  | dispatch (req : NvmevRequest)
  | resume
  | fire (i : ℕ)

variable (c : Cfg)

/-- A command is handed to the dispatcher. -/
def dispatch (d : Device) (req : NvmevRequest) : Except Fault Device :=
  match d.job with
  | some _ => .ok d
  | none =>
    match req.cmd with
    | .write rw => (convWriteStart c d.dev rw req.nsecsStart.toNat).map fun r => ⟨r.2, r.1⟩
    | .read rw => .ok ⟨(convRead c d.dev rw req.nsecsStart.toNat).2, none⟩
    | .flush => .ok ⟨(convFlush c d.dev).2.2, none⟩
    | .dsm dsm => (convDiscard c d.dev dsm req.nsecsStart.toNat).map fun r => ⟨r.2, none⟩
    | .other _ => .ok d

/-- The dispatcher moves on inside `conv_write`: one page, the credits after
    it, or the end of the loop. -/
def resume (d : Device) : Except Fault Device :=
  match d.job with
  | none => .ok d
  | some job =>
    if job.refill then (convWriteRefill c d.dev job).map fun r => ⟨r.1, some r.2⟩
    else if job.lpn ≤ job.endLpn then (convWritePage c d.dev job).map fun r => ⟨r.1, some r.2⟩
    else .ok ⟨d.dev, none⟩

/-- An I/O worker performs the `i`-th internal operation (`buffer_release`). -/
def fire (d : Device) (i : ℕ) : Device :=
  match d.dev.pending[i]? with
  | none => d
  | some op =>
    { d with dev := { d.dev with
      wbuf := bufferRelease d.dev.wbuf op.buffsToRelease
      pending := d.dev.pending.eraseIdx i } }

/-- The machine. -/
def device : Machine Device Event Fault where
  step d
    | .dispatch req => dispatch c d req
    | .resume => resume c d
    | .fire i => .ok (fire d i)

/-- The partition `do_gc` is called on in the next step, if it is. -/
def gcCall (d : Device) : Event → Option ℕ
  | .resume => do
    let job ← d.job
    let part := job.lpn % c.nrParts
    if job.refill ∧ GcDue c (d.dev.ftls part) then some part else none
  | _ => none

/-- The device is in the state `d` after some run from its initialisation. -/
def Reachable (d : Device) : Prop :=
  ∃ junk clock dev es, convInitNamespace c junk clock = .ok dev ∧
    (device c).run ⟨dev, none⟩ es = .ok d

/-! ## The machine runs the commands -/

variable {c}

private theorem run_resume_idle (d : Dev) (n : ℕ) :
    (device c).run ⟨d, none⟩ (List.replicate n .resume) = .ok ⟨d, none⟩ := by
  induction n with
  | zero => rfl
  | succ n ih => rw [List.replicate_succ, Machine.run_cons]; exact ih

private theorem convWritePage_refill {d d' : Dev} {job job' : WriteJob}
    (h : convWritePage c d job = .ok (d', job')) :
    job'.refill = true ∧ job'.lpn = job.lpn ∧ job'.endLpn = job.endLpn := by
  obtain ⟨⟨p, s⟩, -, h⟩ := bind_eq_ok h
  dsimp only at h
  split_ifs at h <;> cases h <;> exact ⟨rfl, rfl, rfl⟩

private theorem convWriteRefill_next {d d' : Dev} {job job' : WriteJob}
    (h : convWriteRefill c d job = .ok (d', job')) :
    job'.refill = false ∧ job'.lpn = job.lpn + 1 ∧ job'.endLpn = job.endLpn := by
  obtain ⟨⟨s, t⟩, -, h⟩ := bind_eq_ok h
  cases h
  exact ⟨rfl, rfl, rfl⟩

/-- The two moves of the dispatcher for a page are one iteration of the loop of
    `conv_write`. -/
private theorem run_resume_page (d : Dev) (job : WriteJob) (es : List Event)
    (hr : job.refill = false) (hl : job.lpn ≤ job.endLpn) :
    (device c).run ⟨d, some job⟩ (.resume :: .resume :: es) =
      convWriteLpn c (d, job) >>= fun st => (device c).run ⟨st.1, some st.2⟩ es := by
  have hpage : (device c).step ⟨d, some job⟩ .resume =
      (convWritePage c d job).map fun r => ⟨r.1, some r.2⟩ := by
    simp only [device, resume, hr, hl, Bool.false_eq_true, if_true, if_false]
  rw [Machine.run_cons, hpage, convWriteLpn]
  cases hp : convWritePage c d job with
  | error e => rfl
  | ok r =>
    have hrefill : (device c).step ⟨r.1, some r.2⟩ .resume =
        (convWriteRefill c r.1 r.2).map fun r => ⟨r.1, some r.2⟩ := by
      simp only [device, resume, (convWritePage_refill hp).1, if_true]
    simp only [Except.map, ok_bind]
    rw [Machine.run_cons, hrefill]
    cases convWriteRefill c r.1 r.2 <;> rfl

/-- The moves of the dispatcher inside `conv_write` are its loop. -/
private theorem run_resume_job (k n : ℕ) (d : Dev) (job : WriteJob) (hr : job.refill = false)
    (hk : k = job.endLpn + 1 - job.lpn) (hn : 2 * k + 1 ≤ n) :
    (device c).run ⟨d, some job⟩ (List.replicate n .resume) =
      ((lpnRange job.lpn job.endLpn).foldlM (fun st _ => convWriteLpn c st) (d, job)).map
        fun st => ⟨st.1, none⟩ := by
  induction k generalizing n d job with
  | zero =>
    obtain ⟨n, rfl⟩ : ∃ m, n = m + 1 := ⟨n - 1, by omega⟩
    have hl : ¬ job.lpn ≤ job.endLpn := by omega
    rw [List.replicate_succ, Machine.run_cons]
    simp only [device, resume, hr, hl, Bool.false_eq_true, if_false, ok_bind, lpnRange, ← hk,
      List.range'_zero, List.foldlM_nil]
    exact run_resume_idle d n
  | succ k ih =>
    obtain ⟨n, rfl⟩ : ∃ m, n = m + 2 := ⟨n - 2, by omega⟩
    have hl : job.lpn ≤ job.endLpn := by omega
    rw [List.replicate_succ, List.replicate_succ, run_resume_page d job _ hr hl, lpnRange, ← hk,
      List.range'_succ, List.foldlM_cons]
    cases hp : convWriteLpn c (d, job) with
    | error e => rfl
    | ok st =>
      obtain ⟨⟨d₁, job₁⟩, hpage, hrefill⟩ := bind_eq_ok hp
      obtain ⟨-, hl₁, he₁⟩ := convWritePage_refill hpage
      obtain ⟨hr₂, hl₂, he₂⟩ := convWriteRefill_next hrefill
      have hlpn : st.2.lpn = job.lpn + 1 := by rw [hl₂, hl₁]
      have hend : st.2.endLpn = job.endLpn := by rw [he₂, he₁]
      have h := ih n st.1 st.2 hr₂ (by omega) (by omega)
      rw [hlpn, hend, lpnRange, show job.endLpn + 1 - (job.lpn + 1) = k by omega] at h
      exact h

private theorem convWriteStart_refill {d d' : Dev} {rw : RwCommand} {nsecsStart : ℕ} {job : WriteJob}
    (h : convWriteStart c d rw nsecsStart = .ok (some job, d')) : job.refill = false := by
  unfold convWriteStart at h
  dsimp only at h
  split_ifs at h
  · cases h
  · obtain ⟨⟨size, wbuf⟩, -, h⟩ := bind_eq_ok h
    dsimp only at h
    split_ifs at h <;> cases h
    rfl

/-- **The machine runs `conv_proc_nvme_io_cmd`**: a command handed to an idle
    dispatcher, followed by enough of its moves, ends as the handler does. -/
theorem run_dispatch (d : Dev) (req : NvmevRequest) (ret : NvmevResult) :
    ∃ n, (device c).run ⟨d, none⟩ (.dispatch req :: List.replicate n .resume) =
      (convProcNvmeIoCmd c d req ret).map fun r => ⟨r.2, none⟩ := by
  have hone (r : Except Fault Device) (h : dispatch c ⟨d, none⟩ req = r) :
      (device c).run ⟨d, none⟩ (.dispatch req :: List.replicate 0 .resume) = r := by
    rw [Machine.run_cons]
    change (dispatch c ⟨d, none⟩ req >>= fun s => .ok s) = r
    rw [h]
    cases r <;> rfl
  unfold convProcNvmeIoCmd
  cases hreq : req.cmd with
  | write rw =>
    cases hs : convWriteStart c d rw req.nsecsStart.toNat with
    | error e => exact ⟨0, hone _ (by simp only [dispatch, hreq, convWrite, hs]; rfl)⟩
    | ok r =>
      obtain ⟨_ | job, d₁⟩ := r
      · exact ⟨0, hone _ (by simp only [dispatch, hreq, convWrite, hs]; rfl)⟩
      · refine ⟨2 * (job.endLpn + 1 - job.lpn) + 1, ?_⟩
        have hstart : (device c).step ⟨d, none⟩ (.dispatch req) = .ok ⟨d₁, some job⟩ := by
          simp only [device, dispatch, hreq, hs]; rfl
        rw [Machine.run_cons, hstart, ok_bind,
          run_resume_job _ _ d₁ job (convWriteStart_refill hs) rfl le_rfl]
        simp only [convWrite, hs, ok_bind]
        cases (lpnRange job.lpn job.endLpn).foldlM (fun st _ => convWriteLpn c st) (d₁, job) <;> rfl
  | read rw => exact ⟨0, hone _ (by simp only [dispatch, hreq]; rfl)⟩
  | flush => exact ⟨0, hone _ (by simp only [dispatch, hreq]; rfl)⟩
  | dsm dsm =>
    refine ⟨0, hone _ ?_⟩
    simp only [dispatch, hreq]
    cases convDiscard c d dsm req.nsecsStart.toNat <;> rfl
  | other opcode => exact ⟨0, hone _ (by simp only [dispatch, hreq]; rfl)⟩

end WaitGc

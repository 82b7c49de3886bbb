/-
  WAITGC verification — submission queues and their doorbells
  (`nvmev_proc_dbs`, `nvmev_proc_io_sq`).

  The host writes a doorbell register at any moment.  The dispatcher compares
  it with the value it saw last, latches both, and hands the entries between
  them to the handler until it refuses one.  The moves of the dispatcher are
  the events of `dispatcher`: a look at the doorbell of a queue (`poll`) and
  one call of the handler (`handle`); `run_procIoSq` says that they add up to
  `nvmev_proc_io_sq`.

  The indices are C `int`s; the registers hold values far below `2 ^ 31`.
-/
import WaitGc.Basic
import Mathlib.Logic.Function.Basic

namespace WaitGc

open Outcome Function

/-- `struct nvmev_sq_stat` -/
structure SqStat where
  nrDispatched : ℕ
  nrDispatch : ℕ
  nrInFlight : ℕ
  maxNrInFlight : ℕ
  totalIo : ℕ
  deriving DecidableEq, Repr

/-- `struct nvmev_submission_queue`: what the dispatcher uses of it. -/
structure SubmissionQueue where
  cqid : ℕ
  queueSize : ℤ
  stat : SqStat
  deriving DecidableEq, Repr

/-- The arguments and local variables of `nvmev_proc_io_sq`. -/
structure SqRound where
  sqid : ℕ
  oldDb : ℤ
  numProc : ℤ
  seq : ℤ
  sqEntry : ℤ
  deriving DecidableEq, Repr

/-- The head of `nvmev_proc_io_sq`. -/
def SubmissionQueue.enter (sq : SubmissionQueue) (sqid : ℕ) (newDb oldDb : ℤ) : SqRound where
  sqid := sqid
  oldDb := oldDb
  numProc := if newDb - oldDb < 0 then newDb - oldDb + sq.queueSize else newDb - oldDb
  seq := 0
  sqEntry := oldDb

/-- The body of its loop, after the handler took an entry. -/
def SubmissionQueue.took (sq : SubmissionQueue) (r : SqRound) (ioSize : ℕ) :
    SubmissionQueue × SqRound :=
  ({ sq with stat := { sq.stat with
      nrDispatched := u32 (sq.stat.nrDispatched + 1)
      nrInFlight := u32 (sq.stat.nrInFlight + 1)
      totalIo := u64 (sq.stat.totalIo + ioSize) } },
    { r with
      seq := r.seq + 1
      sqEntry := if r.sqEntry + 1 = sq.queueSize then 0 else r.sqEntry + 1 })

/-- What follows the loop: the statistics, and `latest_db`. -/
def SubmissionQueue.leave (sq : SubmissionQueue) (r : SqRound) : SubmissionQueue × ℤ :=
  ({ sq with stat := { sq.stat with
      nrDispatch := u32 (sq.stat.nrDispatch + 1)
      maxNrInFlight := u32 (max (int32 sq.stat.maxNrInFlight) (int32 sq.stat.nrInFlight) % 2 ^ 32).toNat } },
    (r.oldDb + r.seq).tmod sq.queueSize)

/-- `handle sqid sq_entry`: the handler takes the entry and reports its size
    (`io_size`), or refuses it (`none`). -/
abbrev Handler (σ : Type) := ℕ → ℤ → σ → Option ℕ × σ

/-- The loop of `nvmev_proc_io_sq`, with `n` iterations left. -/
def SubmissionQueue.loop {σ : Type} (handle : Handler σ) :
    ℕ → SubmissionQueue → SqRound → σ → (SubmissionQueue × SqRound) × σ
  | 0, sq, r, w => ((sq, r), w)
  | n + 1, sq, r, w =>
    match handle r.sqid r.sqEntry w with
    | (none, w) => ((sq, r), w)
    | (some ioSize, w) => loop handle n (sq.took r ioSize).1 (sq.took r ioSize).2 w

/-- `nvmev_proc_io_sq`. -/
def nvmevProcIoSq {σ : Type} (handle : Handler σ) (sq : SubmissionQueue) (sqid : ℕ)
    (newDb oldDb : ℤ) (w : σ) : (SubmissionQueue × ℤ) × σ :=
  let r := sq.enter sqid newDb oldDb
  let out := sq.loop handle r.numProc.toNat r w
  (out.1.1.leave out.1.2, out.2)

/-- The doorbell registers, what the dispatcher keeps of them, and the call of
    `nvmev_proc_io_sq` it is in. -/
structure Dispatcher where
  sqes : ℕ → Option SubmissionQueue
  dbs : ℕ → ℤ
  oldDbs : ℕ → ℤ
  round : Option SqRound

/-- `dbs_idx` of a submission queue. -/
def sqDbsIdx (qid : ℕ) : ℕ := qid * 2

namespace Dispatcher

/-- The end of a round: `nvmev_proc_dbs` stores what `nvmev_proc_io_sq`
    returned. -/
def finish (d : Dispatcher) (sq : SubmissionQueue) (r : SqRound) : Dispatcher :=
  { d with
    sqes := update d.sqes r.sqid (some (sq.leave r).1)
    oldDbs := update d.oldDbs (sqDbsIdx r.sqid) (sq.leave r).2
    round := none }

/-- The test of the loop: another entry, or the end of the round. -/
def turn (d : Dispatcher) (sq : SubmissionQueue) (r : SqRound) : Dispatcher :=
  if r.seq < r.numProc then { d with sqes := update d.sqes r.sqid (some sq), round := some r }
  else d.finish sq r

/-- The host writes a doorbell register. -/
def ring (d : Dispatcher) (qid : ℕ) (v : ℤ) : Dispatcher :=
  { d with dbs := update d.dbs (sqDbsIdx qid) v }

/-- An iteration of the submission-queue loop of `nvmev_proc_dbs`, up to the
    first entry. -/
def poll (d : Dispatcher) (qid : ℕ) : Dispatcher :=
  match d.round, d.sqes qid with
  | none, some sq =>
    let newDb := d.dbs (sqDbsIdx qid)
    let oldDb := d.oldDbs (sqDbsIdx qid)
    if newDb ≠ oldDb then d.turn sq (sq.enter qid newDb oldDb) else d
  | _, _ => d

/-- One call of the handler, and its answer. -/
def handle (d : Dispatcher) (answer : Option ℕ) : Dispatcher :=
  match d.round with
  | none => d
  | some r =>
    match d.sqes r.sqid, answer with
    | none, _ => d
    | some sq, none => d.finish sq r
    | some sq, some ioSize => d.turn (sq.took r ioSize).1 (sq.took r ioSize).2

/-- The entry the handler takes in the next step, if it takes one. -/
def accepts (d : Dispatcher) : Option ℕ → Option (ℕ × ℤ)
  | none => none
  | some _ => d.round.map fun r => (r.sqid, r.sqEntry)

end Dispatcher

/-- The events of the machine. -/
inductive DbEvent where
  | ring (qid : ℕ) (v : ℤ)
  | poll (qid : ℕ)
  | handle (answer : Option ℕ)

/-- A run of the dispatcher, with what happened so far: the number of entries
    the host posted to a queue and the entries the handler took from it. -/
structure Dispatch where
  dev : Dispatcher
  posted : ℕ → ℕ
  accepted : ℕ → List ℤ

namespace Dispatch

/-- The entries a doorbell value adds to a queue. -/
def added (s : Dispatch) (qid : ℕ) (v : ℤ) : ℕ :=
  match s.dev.sqes qid with
  | none => 0
  | some sq => ((v - s.dev.dbs (sqDbsIdx qid)) % sq.queueSize).toNat

/-- The handler's answer, noted. -/
def note (s : Dispatch) : Option (ℕ × ℤ) → ℕ → List ℤ
  | none => s.accepted
  | some (qid, entry) => update s.accepted qid (s.accepted qid ++ [entry])

end Dispatch

/-- The machine. -/
def dispatcher : Machine Dispatch DbEvent Fault where
  step s
    | .ring qid v => .ok
      { s with dev := s.dev.ring qid v, posted := update s.posted qid (s.posted qid + s.added qid v) }
    | .poll qid => .ok { s with dev := s.dev.poll qid }
    | .handle answer => .ok
      { s with dev := s.dev.handle answer, accepted := s.note (s.dev.accepts answer) }

/-! ## The machine runs `nvmev_proc_io_sq` -/

private theorem SubmissionQueue.loop_sqid {σ : Type} (handle : Handler σ) (n : ℕ) :
    ∀ (sq : SubmissionQueue) (r : SqRound) (w : σ), (sq.loop handle n r w).1.2.sqid = r.sqid := by
  induction n with
  | zero => intro sq r w; rfl
  | succ n ih =>
    intro sq r w
    rw [SubmissionQueue.loop]
    cases handle r.sqid r.sqEntry w with
    | mk answer w' =>
      cases answer with
      | none => rfl
      | some ioSize => exact ih _ _ _

private theorem run_handle {σ : Type} (handle : Handler σ) (n : ℕ) :
    ∀ (d : Dispatcher) (sq : SubmissionQueue) (r : SqRound) (w : σ) (s : Dispatch),
      s.dev = { d with sqes := update d.sqes r.sqid (some sq), round := some r } →
      r.numProc - r.seq = n + 1 →
      ∃ (answers : List (Option ℕ)) (s' : Dispatch), dispatcher.run s (answers.map .handle) = .ok s' ∧
        s'.dev = d.finish (sq.loop handle (n + 1) r w).1.1 (sq.loop handle (n + 1) r w).1.2 := by
  induction n with
  | zero =>
    intro d sq r w s hs hn
    cases hh : handle r.sqid r.sqEntry w with
    | mk answer w' =>
      refine ⟨[answer], _, rfl, ?_⟩
      cases answer with
      | none => simp [hs, Dispatcher.handle, Dispatcher.finish, SubmissionQueue.loop, hh]
      | some ioSize =>
        have hend : ¬ r.seq + 1 < r.numProc := by omega
        simp [hs, Dispatcher.handle, Dispatcher.turn, Dispatcher.finish, SubmissionQueue.loop, hh,
          SubmissionQueue.took, hend]
  | succ n ih =>
    intro d sq r w s hs hn
    cases hh : handle r.sqid r.sqEntry w with
    | mk answer w' =>
      cases answer with
      | none =>
        refine ⟨[none], _, rfl, ?_⟩
        simp [hs, Dispatcher.handle, Dispatcher.finish, SubmissionQueue.loop, hh]
      | some ioSize =>
        have hturn : r.seq + 1 < r.numProc := by omega
        obtain ⟨answers, s', hrun, hs'⟩ := ih d (sq.took r ioSize).1 (sq.took r ioSize).2 w'
          { s with
            dev := s.dev.handle (some ioSize), accepted := s.note (s.dev.accepts (some ioSize)) }
          (by simp [hs, Dispatcher.handle, Dispatcher.turn, SubmissionQueue.took, hturn])
          (by simp only [SubmissionQueue.took]; push_cast at hn; omega)
        refine ⟨some ioSize :: answers, s', ?_, ?_⟩
        · rw [List.map_cons, Machine.run_cons]; exact hrun
        · have hloop : sq.loop handle (n + 1 + 1) r w =
              SubmissionQueue.loop handle (n + 1) (sq.took r ioSize).1 (sq.took r ioSize).2 w' := by
            conv_lhs => rw [SubmissionQueue.loop, hh]
          rw [hs', hloop]

/-- **The machine runs `nvmev_proc_io_sq`**: a look at a doorbell that has moved, and
    the answers of the handler up to the end of the round, store what the function
    returns. -/
theorem run_procIoSq {σ : Type} (handle : Handler σ) (w : σ) {s : Dispatch} {qid : ℕ}
    {sq : SubmissionQueue} (hround : s.dev.round = none) (hsq : s.dev.sqes qid = some sq)
    (hdb : s.dev.dbs (sqDbsIdx qid) ≠ s.dev.oldDbs (sqDbsIdx qid)) :
    ∃ (answers : List (Option ℕ)) (s' : Dispatch),
      dispatcher.run s (.poll qid :: answers.map .handle) = .ok s' ∧
      let out := nvmevProcIoSq handle sq qid (s.dev.dbs (sqDbsIdx qid)) (s.dev.oldDbs (sqDbsIdx qid)) w
      s'.dev = { s.dev with
        sqes := update s.dev.sqes qid (some out.1.1)
        oldDbs := update s.dev.oldDbs (sqDbsIdx qid) out.1.2 } := by
  have hpoll : dispatcher.step s (.poll qid) = .ok { s with
      dev := s.dev.turn sq
        (sq.enter qid (s.dev.dbs (sqDbsIdx qid)) (s.dev.oldDbs (sqDbsIdx qid))) } := by
    simp [dispatcher, Dispatcher.poll, hround, hsq, hdb]
  generalize hr : sq.enter qid (s.dev.dbs (sqDbsIdx qid)) (s.dev.oldDbs (sqDbsIdx qid)) = r at hpoll
  have hqid : r.sqid = qid := by rw [← hr]; rfl
  have hseq : r.seq = 0 := by rw [← hr]; rfl
  by_cases hpos : 0 < r.numProc
  · obtain ⟨n, hn⟩ : ∃ n : ℕ, r.numProc.toNat = n + 1 := ⟨r.numProc.toNat - 1, by omega⟩
    obtain ⟨answers, s', hrun, hs'⟩ := run_handle handle n s.dev sq r w { s with dev := s.dev.turn sq r }
      (by simp [Dispatcher.turn, hseq, hpos]) (by omega)
    refine ⟨answers, s', ?_, ?_⟩
    · rw [Machine.run_cons, hpoll]; exact hrun
    · have hloop : (sq.loop handle (n + 1) r w).1.2.sqid = qid := by
        rw [SubmissionQueue.loop_sqid, hqid]
      simp [hs', nvmevProcIoSq, hr, hn, Dispatcher.finish, hround, hloop]
  · refine ⟨[], { s with dev := s.dev.turn sq r }, ?_, ?_⟩
    · rw [List.map_nil, Machine.run_cons, hpoll]; rfl
    · have hn : r.numProc.toNat = 0 := by omega
      simp [nvmevProcIoSq, hr, hn, SubmissionQueue.loop, Dispatcher.turn, Dispatcher.finish, hround,
        hseq, hpos, hqid]

end WaitGc

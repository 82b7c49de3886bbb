/-
  WAITGC verification — every I/O command is completed once.

  The parts of the path keep their own invariants; what they hand over is kept by
  `Accounts`: the jobs of the workers are the entries the dispatcher took and the
  internal operations, and the completions posted are those of the jobs that are
  done.  So a host needs to know no more than what it has read: if it keeps its
  queues from running full by that, `commands_reported_once` says that what it reads is
  the completion of each of its commands, once.

  Every job finds an entry (`PathRoom`), and a call of the dispatcher is one step.
-/
import WaitGc.Io.IoPath
import WaitGc.Theorems.Completion
import WaitGc.Theorems.Dispatch
import WaitGc.Proof.Pool

namespace WaitGc

open Outcome Function Ledger

/-! ## The host's view -/

/-- What the code never changes of a submission queue. -/
def SubmissionQueue.shape (sq : SubmissionQueue) : ℕ × ℤ := (sq.cqid, sq.queueSize)

namespace IoPath

/-- The job is for the command `c`: it has its entry and its `command_id`, and its
    completion goes to the completion queue of its queue. -/
def JobOf (s : IoPath) (c : ℕ × ℕ) (job : IoJob) : Prop :=
  ∃ sq entry commandId nsecsStart nsecsTarget status result, s.sqes c.1 = some sq ∧
    (s.accepted c.1)[c.2]? = some entry ∧ (s.commands c.1)[c.2]? = some commandId ∧
    job = .io c.1 sq.cqid entry commandId nsecsStart nsecsTarget status result

/-- The completion reports the command `c`, with the result that the namespace gave. -/
def Reports (s : IoPath) (c : ℕ × ℕ) (cqe : NvmeCompletion) : Prop :=
  ∃ (t : ℕ) (job : IoJob) (w : IoWork) (phase : Bool), s.origin[t]? = some (some c) ∧
    s.pool.jobs[t]? = some job ∧ s.JobOf c job ∧ job.CarriedBy w ∧ cqe = w.cqe phase

/-- The command whose completion goes to the queue `cqid`, of something that is done. -/
def reportOf (origin : List (Option (ℕ × ℕ))) (cqid : ℕ) (x : ℕ × IoWork) : Option (ℕ × ℕ) :=
  if x.2.isInternal = false ∧ x.2.cqid = cqid then (origin[x.1]?).join else none

/-- The commands that the completions of a queue report. -/
def reports (s : IoPath) (cqid : ℕ) : List (ℕ × ℕ) := s.pool.done.filterMap (reportOf s.origin cqid)

/-- A worker has yet to complete the command. -/
def Waits (s : IoPath) (c : ℕ × ℕ) : Prop :=
  ∃ p, s.pool.Holds p ∧ s.origin[s.pool.tag p]? = some (some c)

/-- Every command is completed once.  The commands that a queue's completions report are
    distinct commands that were sent to it and taken; those taken are reported
    or wait with a worker, and not both; and the host reads the completions in order. -/
structure Exact (s : IoPath) : Prop where
  reported : ∀ cqid, List.Forall₂ s.Reports (s.reports cqid) (s.posted cqid)
  nodup : ∀ cqid, (s.reports cqid).Nodup
  own : ∀ cqid, ∀ c ∈ s.reports cqid, c.2 < (s.accepted c.1).length ∧
    ∃ sq, s.sqes c.1 = some sq ∧ sq.cqid = cqid
  kept : ∀ qid k sq, s.sqes qid = some sq → k < (s.accepted qid).length →
    ((qid, k) ∈ s.reports sq.cqid ↔ ¬ s.Waits (qid, k))
  taken : ∀ qid sq, s.sqes qid = some sq → (s.accepted qid).length ≤ (s.commands qid).length
  read : ∀ cqid cq, s.cqes cqid = some cq → CqSafe cq (s.posted cqid) (s.host cqid) (s.passed cqid)

/-- The device was just set up: the queues are empty, and each submission queue has a
    completion queue. -/
structure Fresh (s : IoPath) (n : ℕ) : Prop where
  completion : s.toCompletion.Fresh
  idle : s.dispatch.dev.Idle
  wired : ∀ qid sq, s.sqes qid = some sq → qid < 2 ^ 16 ∧ ∃ cq, s.cqes sq.cqid = some cq
  pool : s.pool = Pool.init n
  accepted : ∀ qid, s.accepted qid = []
  commands : ∀ qid, s.commands qid = []
  sent : ∀ cqid, s.sent cqid = []
  origin : s.origin = []

end IoPath

/-- The host counts the completions it has read: it keeps an entry of each submission
    queue free, and sends no more to a completion queue than its ring holds; its other
    doorbell passes entries it has read. -/
def PathRule (s : IoPath) : PathEvent → Prop
  | .submit qid commandIds => ∀ sq ∈ s.sqes qid,
      (s.submitted qid : ℤ) + commandIds.length <
        ((s.host sq.cqid).read.countP fun cqe => cqe.sqId = qid : ℕ) + sq.queueSize ∧
      ∀ cq ∈ s.cqes sq.cqid,
        ((s.sent sq.cqid).length : ℤ) + commandIds.length ≤ s.passed sq.cqid + cq.queueSize
  | .ring cqid n => s.passed cqid ≤ n ∧ n ≤ (s.host cqid).read.length
  | _ => True

/-- Every job finds an entry of its worker. -/
def PathRoom (s : IoPath) : PathEvent → Prop
  | .internal clock sqid nsecsTarget writeBuffer buffsToRelease =>
    PoolRoom s.pool (.enqueue clock (.internal sqid nsecsTarget writeBuffer buffsToRelease))
  | .handle (some a) => ∀ r ∈ s.round, ∀ sq ∈ s.sqes r.sqid,
      PoolRoom s.pool (.enqueue a.clock (.io r.sqid sq.cqid r.sqEntry (s.sqMem r.sqid r.sqEntry)
        a.nsecsStart a.nsecsTarget a.status a.result))
  | _ => True

/-! ## The queues the device has -/

/-- The queues of a device: the shapes of its submission queues, and the sizes of its
    completion queues. -/
structure Wiring where
  sqs : ℕ → Option (ℕ × ℤ)
  cqs : ℕ → Option ℤ

/-- The queues of `s`. -/
def IoPath.wiring (s : IoPath) : Wiring where
  sqs qid := (s.sqes qid).map (·.shape)
  cqs cqid := (s.cqes cqid).map (·.queueSize)

variable {s s' : IoPath} {W : Wiring} {d : Dispatcher} {qid cqid n t k : ℕ} {c : ℕ × ℕ} {job : IoJob}

theorem IoPath.sqs_of_eq {sq : SubmissionQueue} (hs : s.wiring = W) (hsq : s.sqes qid = some sq) :
    W.sqs qid = some sq.shape := by
  rw [← hs]
  exact congrArg (Option.map _) hsq

/-- The shapes of the submission queues of a dispatcher. -/
def Dispatcher.shapes (d : Dispatcher) (qid : ℕ) : Option (ℕ × ℤ) := (d.sqes qid).map (·.shape)

namespace Dispatcher

theorem shapes_update {r : SqRound} {sq : SubmissionQueue} (hsq : d.shapes r.sqid = some sq.shape)
    (sq' : SubmissionQueue) (hshape : sq'.shape = sq.shape) (qid : ℕ) :
    (update d.sqes r.sqid (some sq') qid).map (·.shape) = d.shapes qid := by
  by_cases h : qid = r.sqid
  · subst h
    rw [update_self, hsq, Option.map_some, hshape]
  · rw [update_of_ne h]
    rfl

theorem shapes_turn {r : SqRound} {sq : SubmissionQueue} (hsq : d.shapes r.sqid = some sq.shape) :
    (d.turn sq r).shapes = d.shapes := by
  funext qid
  unfold turn
  split_ifs
  · exact shapes_update hsq _ rfl qid
  · exact shapes_update hsq (sq.leave r).1 rfl qid

theorem shapes_poll (qid : ℕ) : (d.poll qid).shapes = d.shapes := by
  unfold poll
  split
  · rename_i sq hround hsq
    dsimp only
    split_ifs
    · exact shapes_turn (congrArg (Option.map _) hsq)
    · rfl
  · rfl

theorem shapes_handle (answer : Option ℕ) : (d.handle answer).shapes = d.shapes := by
  unfold handle
  split
  · rfl
  · rename_i r hround
    split
    · rfl
    · rename_i sq hsq
      funext qid
      exact shapes_update (congrArg (Option.map _) hsq) (sq.leave r).1 rfl qid
    · rename_i sq ioSize hsq
      exact shapes_turn (congrArg (Option.map _) hsq)

/-- The dispatcher is inside a queue that exists. -/
def InQueue (d : Dispatcher) : Prop := ∀ r, d.round = some r → ∃ c, d.shapes r.sqid = some c

theorem InQueue.turn {r : SqRound} {sq : SubmissionQueue} (hsq : d.shapes r.sqid = some sq.shape) :
    (d.turn sq r).InQueue := by
  intro r' hr'
  rw [shapes_turn hsq]
  unfold Dispatcher.turn at hr'
  split_ifs at hr'
  · cases hr'
    exact ⟨_, hsq⟩
  · cases hr'

theorem InQueue.poll (h : d.InQueue) (qid : ℕ) : (d.poll qid).InQueue := by
  unfold Dispatcher.poll
  split
  · rename_i sq hround hsq
    dsimp only
    split_ifs
    · exact InQueue.turn (congrArg (Option.map _) hsq)
    · exact h
  · exact h

theorem InQueue.handle (h : d.InQueue) (answer : Option ℕ) : (d.handle answer).InQueue := by
  unfold Dispatcher.handle
  split
  · exact h
  · rename_i r hround
    split
    · exact h
    · intro r' hr'
      cases hr'
    · rename_i sq ioSize hsq
      exact InQueue.turn (congrArg (Option.map _) hsq)

end Dispatcher

/-! ## Submission queues and their memory -/

theorem SqInv.congr {s s' : Dispatch} {q o : ℕ} (h : SqInv s qid q o)
    (hacc : s'.accepted qid = s.accepted qid) (hposted : s'.posted qid = s.posted qid)
    (hshapes : s'.dev.shapes qid = s.dev.shapes qid)
    (hdbs : s'.dev.dbs (sqDbsIdx qid) = s.dev.dbs (sqDbsIdx qid))
    (hold : s'.dev.oldDbs (sqDbsIdx qid) = s.dev.oldDbs (sqDbsIdx qid))
    (hround : s'.dev.round = s.dev.round) : SqInv s' qid q o := by
  obtain ⟨haccepted, hle, hfree, ⟨sq, hsq, hsize⟩, hdoorbell, hbetween, hinside⟩ := h
  obtain ⟨sq', hsq', hshape⟩ := Option.map_eq_some_iff.1 (hshapes.trans (congrArg (Option.map _) hsq))
  refine ⟨by rwa [hacc], by rwa [hacc, hposted], by rwa [hacc, hposted],
    ⟨⟨sq', hsq', (congrArg Prod.snd hshape).trans hsize⟩, ?_, ?_, ?_⟩⟩
  · rwa [hdbs, hposted]
  · rwa [hround, hold, hacc]
  · rwa [hround, hacc, hposted]

/-- A submission queue is taken in order, and the entries that were not taken yet hold the
    commands of the host. -/
structure PathQueue (s : IoPath) (qid q o : ℕ) : Prop where
  inv : SqInv s.dispatch qid q o
  mem : ∀ k commandId, (s.accepted qid).length ≤ k → (s.commands qid)[k]? = some commandId →
    s.sqMem qid ((o + k) % q : ℕ) = commandId

namespace PathQueue

variable {q o : ℕ}

/-- The new commands do not overwrite those that wait. -/
theorem store {sq : SubmissionQueue} {commandIds : List ℕ} (h : PathQueue s qid q o) (hq : sq.queueSize = q)
    (hcount : (s.commands qid).length = s.submitted qid)
    (hroom : s.submitted qid + commandIds.length < (s.accepted qid).length + q) {commandId : ℕ}
    (hk : (s.accepted qid).length ≤ k) (hmem : (s.commands qid ++ commandIds)[k]? = some commandId) :
    (commandIds[((((o + k) % q : ℕ) - s.dbs (sqDbsIdx qid)) % sq.queueSize).toNat]?).getD
      (s.sqMem qid ((o + k) % q : ℕ)) = commandId := by
  have hdb : s.dbs (sqDbsIdx qid) = ((o + s.submitted qid) % q : ℕ) := h.inv.dev.doorbell
  have hslot : ((((o + k) % q : ℕ) : ℤ) - ((o + s.submitted qid) % q : ℕ)) % (q : ℤ) =
      ((k : ℤ) - s.submitted qid) % q := by
    rw [Int.natCast_mod, Int.natCast_mod, ← Int.sub_emod]
    congr 1
    push_cast
    omega
  have hposted : (s.accepted qid).length ≤ s.submitted qid := h.inv.posted
  rw [hq, hdb, hslot]
  have hlt := (List.getElem?_eq_some_iff.1 hmem).1
  rw [List.length_append] at hlt
  rcases Nat.lt_or_ge k (s.submitted qid) with hold | hnew
  · -- the distance from the tail to a waiting entry is at least the number of new ones
    have hdist : ((k : ℤ) - s.submitted qid) % q = k + q - s.submitted qid := by
      rw [← Int.add_emod_right, Int.emod_eq_of_lt] <;> omega
    rw [List.getElem?_append_left (by omega)] at hmem
    rw [hdist, List.getElem?_eq_none (by omega), Option.getD_none]
    exact h.mem k commandId hk hmem
  · have hdist : ((k : ℤ) - s.submitted qid) % q = (k - s.submitted qid : ℕ) := by
      rw [Int.emod_eq_of_lt] <;> omega
    rw [List.getElem?_append_right (by omega), hcount] at hmem
    rw [hdist, Int.toNat_natCast, hmem, Option.getD_some]

theorem same (h : PathQueue s qid q o) (hdispatch : s'.dispatch = s.dispatch)
    (hcommands : s'.commands = s.commands) (hmem : s'.sqMem = s.sqMem) : PathQueue s' qid q o := by
  have hacc : s'.accepted = s.accepted := congrArg Dispatch.accepted hdispatch
  refine ⟨hdispatch ▸ h.inv, ?_⟩
  rw [hacc, hcommands, hmem]
  exact h.mem

end PathQueue

/-! ## Commands, jobs and reports -/

theorem getElem?_of_prefix {α : Type*} {l l' : List α} {i : ℕ} {a : α} (h : l <+: l') (ha : l[i]? = some a) :
    l'[i]? = some a := by
  obtain ⟨m, rfl⟩ := h
  rw [List.getElem?_append_left (List.getElem?_eq_some_iff.1 ha).1]
  exact ha

/-- The device has gone on: its records have grown. -/
structure IoPath.Grows (s s' : IoPath) : Prop where
  sqs : s'.wiring.sqs = s.wiring.sqs
  accepted : ∀ qid, s.accepted qid <+: s'.accepted qid
  commands : ∀ qid, s.commands qid <+: s'.commands qid
  origin : s.origin <+: s'.origin
  jobs : s.pool.jobs <+: s'.pool.jobs

theorem IoPath.JobOf.grow (h : s.JobOf c job) (hg : s.Grows s') : s'.JobOf c job := by
  obtain ⟨sq, entry, commandId, nsecsStart, nsecsTarget, status, result, hsq, hentry, hid, rfl⟩ := h
  obtain ⟨sq', hsq', hshape⟩ := Option.map_eq_some_iff.1
    ((congrFun hg.sqs c.1).trans (congrArg (Option.map SubmissionQueue.shape) hsq))
  have hcqid : sq'.cqid = sq.cqid := congrArg Prod.fst hshape
  exact ⟨sq', entry, commandId, nsecsStart, nsecsTarget, status, result, hsq',
    getElem?_of_prefix (hg.accepted c.1) hentry, getElem?_of_prefix (hg.commands c.1) hid, by rw [hcqid]⟩

theorem IoPath.Reports.grow {cqe : NvmeCompletion} (h : s.Reports c cqe) (hg : s.Grows s') :
    s'.Reports c cqe := by
  obtain ⟨t, job, w, phase, ht, hjob, hof, hcarried, hcqe⟩ := h
  exact ⟨t, job, w, phase, getElem?_of_prefix hg.origin ht, getElem?_of_prefix hg.jobs hjob, hof.grow hg,
    hcarried, hcqe⟩

/-- The jobs of the workers are the entries that were taken, each once, and internal
    operations; the completions posted are those of the commands that are done. -/
structure Accounts (s : IoPath) : Prop where
  length : s.origin.length = s.pool.jobs.length
  command : ∀ (t : ℕ) (c : ℕ × ℕ), s.origin[t]? = some (some c) →
    ∃ job, s.pool.jobs[t]? = some job ∧ s.JobOf c job
  internal : ∀ t : ℕ, s.origin[t]? = some none → ∃ sqid nsecsTarget writeBuffer buffsToRelease,
    s.pool.jobs[t]? = some (.internal sqid nsecsTarget writeBuffer buffsToRelease)
  once : ∀ (t t' : ℕ) (c : ℕ × ℕ), s.origin[t]? = some (some c) → s.origin[t']? = some (some c) → t = t'
  every : ∀ qid k, k < (s.accepted qid).length → ∃ t : ℕ, s.origin[t]? = some (some (qid, k))
  reported : ∀ cqid, List.Forall₂ s.Reports (s.reports cqid) (s.posted cqid)

theorem PoolInv.settled {p : Pool} {w : IoWork} (h : PoolInv p) (hx : (t, w) ∈ p.done) :
    ∃ job, p.jobs[t]? = some job ∧ job.CarriedBy w ∧ notes p.done t = [(t, w)] := by
  have hlt := h.ledger.known _ hx
  have hmem : (t, w) ∈ notes p.done t := List.mem_filter.2 ⟨hx, by simp⟩
  refine ⟨_, List.getElem?_eq_getElem hlt, ?_⟩
  rcases h.ledger.kept t _ (List.getElem?_eq_getElem hlt) with ⟨a, ha, rfl⟩ | ⟨w', hnotes, hcarried⟩
  · rw [h.ledger.unsettled a ha] at hmem
    cases hmem
  · rw [hnotes, List.mem_singleton] at hmem
    obtain rfl := (Prod.mk.inj hmem).2
    exact ⟨hcarried, hnotes⟩

theorem PoolInv.done_nodup {p : Pool} (h : PoolInv p) : (p.done.map Prod.fst).Nodup := by
  refine List.nodup_iff_count_le_one.2 fun t => ?_
  have hcount : (p.done.map Prod.fst).count t = (notes p.done t).length := by
    rw [List.count, List.countP_map, List.countP_eq_length_filter]
    rfl
  rw [hcount]
  by_cases hnil : notes p.done t = []
  · rw [hnil]
    exact Nat.zero_le _
  · obtain ⟨⟨t', w⟩, hmem⟩ := List.exists_mem_of_ne_nil _ hnil
    obtain ⟨hx, ht⟩ := List.mem_filter.1 hmem
    obtain rfl : t' = t := of_decide_eq_true ht
    obtain ⟨job, -, -, hnotes⟩ := h.settled hx
    rw [hnotes]
    exact le_rfl

namespace Accounts

variable {x : ℕ × IoWork}

theorem reportOf_eq (hr : IoPath.reportOf s.origin cqid x = some c) :
    x.2.isInternal = false ∧ x.2.cqid = cqid ∧ s.origin[x.1]? = some (some c) := by
  unfold IoPath.reportOf at hr
  split_ifs at hr with hcase
  exact ⟨hcase.1, hcase.2, Option.join_eq_some_iff.1 hr⟩

theorem nodup (h : Accounts s) (hp : PoolInv s.pool) (cqid : ℕ) : (s.reports cqid).Nodup := by
  refine (List.pairwise_filterMap).2 ((List.pairwise_map.1 hp.done_nodup).imp ?_)
  rintro x x' hne c hc c' hc' rfl
  exact hne (h.once _ _ _ (reportOf_eq hc).2.2 (reportOf_eq hc').2.2)

theorem own (h : Accounts s) (hp : PoolInv s.pool) (hc : c ∈ s.reports cqid) :
    c.2 < (s.accepted c.1).length ∧ ∃ sq, s.sqes c.1 = some sq ∧ sq.cqid = cqid := by
  obtain ⟨⟨t, w⟩, hx, hr⟩ := List.mem_filterMap.1 hc
  obtain ⟨hint, hcq, ht⟩ := reportOf_eq hr
  obtain ⟨job, hjob, hof⟩ := h.command t c ht
  obtain ⟨job', hjob', hcarried, -⟩ := hp.settled hx
  obtain rfl : job = job' := Option.some.inj (hjob.symm.trans hjob')
  obtain ⟨sq, entry, commandId, nsecsStart, nsecsTarget, status, result, hsq, hentry, -, rfl⟩ := hof
  exact ⟨(List.getElem?_eq_some_iff.1 hentry).1, sq, hsq, hcarried.2.2.1.symm.trans hcq⟩

theorem reported_iff (h : Accounts s) (hp : PoolInv s.pool) {sq : SubmissionQueue} (hsq : s.sqes qid = some sq)
    (hk : k < (s.accepted qid).length) : (qid, k) ∈ s.reports sq.cqid ↔ ¬ s.Waits (qid, k) := by
  obtain ⟨t, ht⟩ := h.every qid k hk
  constructor
  · rintro hmem ⟨p, hheld, hp'⟩
    obtain ⟨⟨t', w⟩, hx, hr⟩ := List.mem_filterMap.1 hmem
    have hsame := h.once _ _ _ (reportOf_eq hr).2.2 hp'
    obtain ⟨job, -, -, hnotes⟩ := hp.settled hx
    have hnone := hp.ledger.unsettled p hheld
    rw [← hsame, hnotes] at hnone
    cases hnone
  · intro hwaits
    obtain ⟨job, hjob, hof⟩ := h.command t _ ht
    rcases hp.ledger.kept t job hjob with ⟨p, hheld, htag⟩ | ⟨w, hnotes, hcarried⟩
    · exact absurd ⟨p, hheld, by rw [htag]; exact ht⟩ hwaits
    · have hx : (t, w) ∈ s.pool.done := by
        have hmem : (t, w) ∈ notes s.pool.done t := hnotes ▸ List.mem_singleton_self _
        exact (List.mem_filter.1 hmem).1
      refine List.mem_filterMap.2 ⟨(t, w), hx, ?_⟩
      obtain ⟨sq', entry, commandId, nsecsStart, nsecsTarget, status, result, hsq', -, -, rfl⟩ := hof
      obtain rfl : sq = sq' := Option.some.inj (hsq.symm.trans hsq')
      rw [IoPath.reportOf, if_pos ⟨hcarried.1, hcarried.2.2.1⟩, ht]
      rfl

theorem reportOf_append (x : ℕ × IoWork) (origin more : List (Option (ℕ × ℕ))) (hlt : x.1 < origin.length)
    (cqid : ℕ) : IoPath.reportOf (origin ++ more) cqid x = IoPath.reportOf origin cqid x := by
  unfold IoPath.reportOf
  rw [List.getElem?_append_left hlt]

/-- A step that issues and settles nothing. -/
theorem keep (h : Accounts s) (hg : s.Grows s') (hacc : s'.accepted = s.accepted)
    (horigin : s'.origin = s.origin) (hjobs : s'.pool.jobs = s.pool.jobs)
    (hdone : s'.pool.done = s.pool.done) (hposted : s'.posted = s.posted) : Accounts s' where
  length := by rw [horigin, hjobs, h.length]
  command := by
    intro t c ht
    rw [horigin] at ht
    obtain ⟨job, hjob, hof⟩ := h.command t c ht
    exact ⟨job, hjobs ▸ hjob, hof.grow hg⟩
  internal := by rw [horigin, hjobs]; exact h.internal
  once := by rw [horigin]; exact h.once
  every := by rw [horigin, hacc]; exact h.every
  reported := by
    intro cqid
    rw [IoPath.reports, hdone, horigin, hposted]
    exact (h.reported cqid).imp fun _ _ hr => hr.grow hg

/-- A job is handed to a worker. -/
theorem issue {x : Option (ℕ × ℕ)} (h : Accounts s) (hp : PoolInv s.pool) (hg : s.Grows s')
    (horigin : s'.origin = s.origin ++ [x]) (hjobs : s'.pool.jobs = s.pool.jobs ++ [job])
    (hdone : s'.pool.done = s.pool.done) (hposted : s'.posted = s.posted)
    (hnew : ∀ c, x = some c → s'.JobOf c job ∧ (s.accepted c.1).length ≤ c.2)
    (hint : x = none → ∃ sqid nsecsTarget writeBuffer buffsToRelease,
      job = .internal sqid nsecsTarget writeBuffer buffsToRelease)
    (hevery : ∀ qid k, k < (s'.accepted qid).length → k < (s.accepted qid).length ∨ x = some (qid, k)) :
    Accounts s' := by
  have hlast : s'.pool.jobs[s.origin.length]? = some job := by
    rw [hjobs, h.length, List.getElem?_concat_length]
  have hat (t : ℕ) (y : Option (ℕ × ℕ)) (ht : s'.origin[t]? = some y) :
      s.origin[t]? = some y ∨ t = s.origin.length ∧ x = y := by
    rw [horigin] at ht
    rcases Nat.lt_trichotomy t s.origin.length with hlt | rfl | hgt
    · rw [List.getElem?_append_left hlt] at ht
      exact .inl ht
    · rw [List.getElem?_concat_length, Option.some.injEq] at ht
      exact .inr ⟨rfl, ht⟩
    · rw [List.getElem?_eq_none (by rw [List.length_append, List.length_singleton]; omega)] at ht
      cases ht
  -- the new command was not taken before
  have hfresh (t : ℕ) (c : ℕ × ℕ) (hx : x = some c) : s.origin[t]? ≠ some (some c) := by
    intro ht
    obtain ⟨job', -, sq, entry, -, -, -, -, -, -, hentry, -⟩ := h.command t c ht
    have hlt := (List.getElem?_eq_some_iff.1 hentry).1
    exact absurd (hnew c hx).2 (Nat.not_le_of_lt hlt)
  refine ⟨?_, ?_, ?_, ?_, ?_, ?_⟩
  · rw [horigin, hjobs, List.length_append, List.length_append, h.length]
    rfl
  · intro t c ht
    rcases hat t _ ht with ht | ⟨rfl, hx⟩
    · obtain ⟨job', hjob, hof⟩ := h.command t c ht
      exact ⟨job', getElem?_of_prefix hg.jobs hjob, hof.grow hg⟩
    · exact ⟨job, hlast, (hnew c hx).1⟩
  · intro t ht
    rcases hat t _ ht with ht | ⟨rfl, hx⟩
    · obtain ⟨sqid, nsecsTarget, writeBuffer, buffsToRelease, hjob⟩ := h.internal t ht
      exact ⟨sqid, nsecsTarget, writeBuffer, buffsToRelease, getElem?_of_prefix hg.jobs hjob⟩
    · obtain ⟨sqid, nsecsTarget, writeBuffer, buffsToRelease, rfl⟩ := hint hx
      exact ⟨sqid, nsecsTarget, writeBuffer, buffsToRelease, hlast⟩
  · intro t t' c ht ht'
    rcases hat t _ ht with ht | ⟨rfl, hx⟩
    · rcases hat t' _ ht' with ht' | ⟨rfl, hx⟩
      · exact h.once t t' c ht ht'
      · exact absurd ht (hfresh t c hx)
    · rcases hat t' _ ht' with ht' | ⟨rfl, -⟩
      · exact absurd ht' (hfresh t' c hx)
      · rfl
  · intro qid k hk
    rcases hevery qid k hk with hk | rfl
    · obtain ⟨t, ht⟩ := h.every qid k hk
      exact ⟨t, getElem?_of_prefix hg.origin ht⟩
    · exact ⟨s.origin.length, by rw [horigin, List.getElem?_concat_length]⟩
  · intro cqid
    have hsame : s'.reports cqid = s.reports cqid := by
      rw [IoPath.reports, hdone, horigin]
      refine List.filterMap_congr fun y hy => reportOf_append y _ _ ?_ cqid
      rw [h.length]
      exact hp.ledger.known y hy
    rw [hsame, hposted]
    exact (h.reported cqid).imp fun _ _ hr => hr.grow hg

/-- What a job is for. -/
theorem origin_cases (h : Accounts s) (hjob : s.pool.jobs[t]? = some job) :
    (∃ c, s.origin[t]? = some (some c) ∧ s.JobOf c job) ∨ s.origin[t]? = some none ∧
      ∃ sqid nsecsTarget writeBuffer buffsToRelease,
        job = .internal sqid nsecsTarget writeBuffer buffsToRelease := by
  have hlt : t < s.origin.length := by
    rw [h.length]
    exact (List.getElem?_eq_some_iff.1 hjob).1
  cases hx : s.origin[t] with
  | none =>
    have ht : s.origin[t]? = some none := by rw [List.getElem?_eq_getElem hlt, hx]
    obtain ⟨sqid, nsecsTarget, writeBuffer, buffsToRelease, hjob'⟩ := h.internal t ht
    exact .inr ⟨ht, sqid, nsecsTarget, writeBuffer, buffsToRelease, Option.some.inj (hjob.symm.trans hjob')⟩
  | some c =>
    have ht : s.origin[t]? = some (some c) := by rw [List.getElem?_eq_getElem hlt, hx]
    obtain ⟨job', hjob', hof⟩ := h.command t c ht
    obtain rfl : job = job' := Option.some.inj (hjob.symm.trans hjob')
    exact .inl ⟨c, ht, hof⟩

/-- Something is done, and its completion is posted if it is a command's. -/
theorem settle {w : IoWork} (h : Accounts s) (hg : s.Grows s') (hacc : s'.accepted = s.accepted)
    (horigin : s'.origin = s.origin) (hjobs : s'.pool.jobs = s.pool.jobs)
    (hdone : s'.pool.done = s.pool.done ++ [(t, w)])
    (hjob : s.pool.jobs[t]? = some job) (hcarried : job.CarriedBy w)
    (hposted : (w.isInternal = true ∧ s'.posted = s.posted) ∨ (w.isInternal = false ∧ ∃ phase, s'.posted =
      update s.posted w.cqid (s.posted w.cqid ++ [w.cqe phase]))) : Accounts s' := by
  refine ⟨by rw [horigin, hjobs, h.length], ?_, ?_, ?_, ?_, ?_⟩
  · intro t' c ht
    rw [horigin] at ht
    obtain ⟨job', hjob', hof⟩ := h.command t' c ht
    exact ⟨job', hjobs ▸ hjob', hof.grow hg⟩
  · rw [horigin, hjobs]
    exact h.internal
  · rw [horigin]
    exact h.once
  · rw [horigin, hacc]
    exact h.every
  · intro cqid
    have hold := (h.reported cqid).imp fun c cqe (hr : s.Reports c cqe) => hr.grow hg
    have hreports : s'.reports cqid = s.reports cqid ++ (IoPath.reportOf s.origin cqid (t, w)).toList := by
      rw [IoPath.reports, hdone, horigin, List.filterMap_append]
      cases hr : IoPath.reportOf s.origin cqid (t, w) with
      | none => simp [hr, IoPath.reports]
      | some c => simp [hr, IoPath.reports]
    rcases hposted with ⟨hint, hsame⟩ | ⟨hio, phase, hpost⟩
    · have hnone : IoPath.reportOf s.origin cqid (t, w) = none := if_neg fun hc => by simp [hint] at hc
      rw [hreports, hsame, hnone, Option.toList_none, List.append_nil]
      exact hold
    · by_cases hcqid : w.cqid = cqid
      · subst hcqid
        rcases h.origin_cases hjob with ⟨c, ht, hof⟩ | ⟨-, sqid, nsecsTarget, writeBuffer, buffsToRelease, rfl⟩
        · have hsome : IoPath.reportOf s.origin w.cqid (t, w) = some c := by
            rw [IoPath.reportOf, if_pos ⟨hio, rfl⟩, ht]
            rfl
          rw [hreports, hpost, hsome, Option.toList_some, update_self]
          refine List.rel_append hold (.cons ?_ .nil)
          exact ⟨t, job, w, phase, horigin ▸ ht, hjobs ▸ hjob, hof.grow hg, hcarried, rfl⟩
        · rw [hcarried.1] at hio
          cases hio
      · have hnone : IoPath.reportOf s.origin cqid (t, w) = none := if_neg fun hc => hcqid hc.2
        rw [hreports, hpost, hnone, Option.toList_none, List.append_nil, update_of_ne (Ne.symm hcqid)]
        exact hold

end Accounts

/-! ## The invariant -/

/-- The invariant of the path, of `n` workers. -/
structure PathInv (W : Wiring) (n : ℕ) (s : IoPath) : Prop where
  wiring : s.wiring = W
  wired : ∀ qid c, W.sqs qid = some c → qid < 2 ^ 16 ∧ ∃ size, W.cqs c.1 = some size
  inQueue : s.dispatch.dev.InQueue
  count : ∀ qid, (s.commands qid).length = s.submitted qid
  queues : ∀ qid c, W.sqs qid = some c → ∃ o, PathQueue s qid c.2.toNat o
  pool : PoolInv s.pool
  nr : s.pool.nrIoWorkers = n
  cqs : CqsInv s.toCompletion
  accounts : Accounts s
  sent : ∀ qid k c, W.sqs qid = some c → k < s.submitted qid → (qid, k) ∈ s.sent c.1
  room : ∀ cqid size, W.cqs cqid = some size → ((s.sent cqid).length : ℤ) ≤ s.passed cqid + size

theorem countP_eq_of_forall₂ {α β : Type*} {R : α → β → Prop} {p : α → Bool} {q : β → Bool} {l : List α}
    {m : List β} (h : List.Forall₂ R l m) (hpq : ∀ a ∈ l, ∀ b, R a b → q b = p a) :
    m.countP q = l.countP p := by
  induction h with
  | nil => rfl
  | cons hab _ ih =>
    rw [List.countP_cons, List.countP_cons, hpq _ List.mem_cons_self _ hab,
      ih fun a ha => hpq a (List.mem_cons_of_mem _ ha)]

namespace PathInv

variable {sq : SubmissionQueue} {cq : CompletionQueue}

theorem exists_cq (h : PathInv W n s) (hsq : s.sqes qid = some sq) :
    qid < 2 ^ 16 ∧ ∃ cq, s.cqes sq.cqid = some cq := by
  obtain ⟨hlt, size, hsize⟩ := h.wired qid _ (IoPath.sqs_of_eq h.wiring hsq)
  rw [← h.wiring] at hsize
  obtain ⟨cq, hcq, -⟩ := Option.map_eq_some_iff.1 hsize
  exact ⟨hlt, cq, hcq⟩

theorem cqs_eq (h : PathInv W n s) (hcq : s.cqes cqid = some cq) : W.cqs cqid = some cq.queueSize := by
  rw [← h.wiring]
  exact congrArg (Option.map _) hcq

theorem reports_le (h : PathInv W n s) (qid cqid : ℕ) :
    (s.reports cqid).countP (fun c => c.1 = qid) ≤ (s.accepted qid).length := by
  rw [List.countP_eq_length_filter]
  have hnodup := (h.accounts.nodup h.pool cqid).filter fun c => decide (c.1 = qid)
  generalize hl : (s.reports cqid).filter (fun c => decide (c.1 = qid)) = l at hnodup ⊢
  have hl' : ∀ c ∈ l, c ∈ s.reports cqid ∧ c.1 = qid := by
    intro c hc
    rw [← hl] at hc
    obtain ⟨hmem, hqid⟩ := List.mem_filter.1 hc
    exact ⟨hmem, of_decide_eq_true hqid⟩
  have hmap : (l.map Prod.snd).Nodup := by
    refine (List.nodup_map_iff_inj_on hnodup).2 ?_
    intro c hc c' hc' heq
    exact Prod.ext ((hl' c hc).2.trans (hl' c' hc').2.symm) heq
  have hsub : l.map Prod.snd ⊆ List.range (s.accepted qid).length := by
    intro k hk
    obtain ⟨c, hc, rfl⟩ := List.mem_map.1 hk
    obtain ⟨hmem, rfl⟩ := hl' c hc
    exact List.mem_range.2 (h.accounts.own h.pool hmem).1
  simpa using (List.subperm_of_subset hmap hsub).length_le

/-- **What the host has read of a queue was taken from it**: by the completions it reads it
    never overestimates the free entries. -/
theorem read_le (h : PathInv W n s) (hsq : s.sqes qid = some sq) :
    (s.host sq.cqid).read.countP (fun cqe => cqe.sqId = qid) ≤ (s.accepted qid).length := by
  obtain ⟨-, cq, hcq⟩ := h.exists_cq hsq
  obtain ⟨q, hinv⟩ := h.cqs sq.cqid cq hcq
  have hread : (s.host sq.cqid).read.Sublist (s.posted sq.cqid) := hinv.safe.inOrder.sublist
  refine (hread.countP_le).trans ?_
  rw [countP_eq_of_forall₂ (h.accounts.reported sq.cqid) (p := fun c => decide (c.1 = qid))]
  · exact h.reports_le qid sq.cqid
  · rintro c hc cqe ⟨t, job, w, phase, -, -, ⟨sq', entry, commandId, nsecsStart, nsecsTarget, status, result,
      hsq', -, -, rfl⟩, hcarried, rfl⟩
    have hlt := (h.exists_cq hsq').1
    have hid : (w.cqe phase).sqId = c.1 := by
      change u16 w.sqid = c.1
      rw [hcarried.2.1]
      exact Nat.mod_eq_of_lt hlt
    rw [hid]

/-- **A command that a worker completes finds room** in the ring of its completion queue. -/
theorem post_room (h : PathInv W n s) (hcq : s.cqes cqid = some cq) (hsq : s.sqes qid = some sq)
    (hcqid : sq.cqid = cqid) (hk : k < (s.accepted qid).length) (hnew : (qid, k) ∉ s.reports cqid) :
    ((s.posted cqid).length : ℤ) < s.passed cqid + cq.queueSize := by
  have hsent (qid k : ℕ) (sq : SubmissionQueue) (hsq : s.sqes qid = some sq) (hcqid : sq.cqid = cqid)
      (hk : k < (s.accepted qid).length) : (qid, k) ∈ s.sent cqid := by
    have hW := IoPath.sqs_of_eq h.wiring hsq
    obtain ⟨o, hq⟩ := h.queues qid _ hW
    rw [← hcqid]
    exact h.sent qid k _ hW (hk.trans_le hq.inv.posted)
  have hsub : (qid, k) :: s.reports cqid ⊆ s.sent cqid := by
    intro c hc
    rcases List.mem_cons.1 hc with rfl | hc
    · exact hsent qid k sq hsq hcqid hk
    · obtain ⟨hlt, sq', hsq', hcqid'⟩ := h.accounts.own h.pool hc
      exact hsent c.1 c.2 sq' hsq' hcqid' hlt
  have hnodup : ((qid, k) :: s.reports cqid).Nodup := List.nodup_cons.2 ⟨hnew, h.accounts.nodup h.pool cqid⟩
  have hlen := (List.subperm_of_subset hnodup hsub).length_le
  rw [List.length_cons, (h.accounts.reported cqid).length_eq] at hlen
  have hroom := h.room cqid _ (h.cqs_eq hcq)
  omega

end PathInv

/-! ## The workers -/

/-- A move of a worker, or a reclaim. -/
def PoolMove : PoolEvent → Prop
  | .enqueue _ _ => False
  | _ => True

theorem Pool.visit_done (p : Pool) (wid currNsecs : ℕ) : (p.visit wid currNsecs).jobs = p.jobs ∧
    ((p.visit wid currNsecs).done = p.done ∨ ∃ x, (p.visit wid currNsecs).done = p.done ++ [x]) := by
  unfold Pool.visit
  dsimp only
  split_ifs
  · exact ⟨rfl, .inl rfl⟩
  · exact ⟨rfl, .inl rfl⟩
  all_goals first
    | exact ⟨rfl, .inl rfl⟩
    | exact ⟨rfl, .inr ⟨_, rfl⟩⟩

theorem pool_move (p : Pool) {e : PoolEvent} (he : PoolMove e) : ∃ p', pool.step p e = .ok p' ∧
    p'.jobs = p.jobs ∧ (p'.done = p.done ∨ ∃ x, p'.done = p.done ++ [x]) := by
  have hact (wid : ℕ) (p' : Pool) (h : p'.jobs = p.jobs ∧ (p'.done = p.done ∨ ∃ x, p'.done = p.done ++ [x])) :
      (p.act wid p').jobs = p.jobs ∧
        ((p.act wid p').done = p.done ∨ ∃ x, (p.act wid p').done = p.done ++ [x]) := by
    unfold Pool.act
    split_ifs
    · exact h
    · exact ⟨rfl, .inl rfl⟩
  cases e with
  | enqueue clock job => exact he.elim
  | reclaim wid => exact ⟨_, rfl, hact wid _ ⟨rfl, .inl rfl⟩⟩
  | start wid => exact ⟨_, rfl, hact wid _ ⟨rfl, .inl rfl⟩⟩
  | visit wid currNsecs => exact ⟨_, rfl, hact wid _ (p.visit_done wid currNsecs)⟩
  | advance wid => exact ⟨_, rfl, hact wid _ ⟨rfl, .inl rfl⟩⟩

/-- A move that settles nothing posts nothing. -/
theorem IoPath.filled_of_done_eq {p p' : Pool} (h : p'.done = p.done) : IoPath.filled p p' = [] := by
  rw [IoPath.filled, h, List.drop_length]
  rfl

theorem IoPath.filled_of_done_append {p p' : Pool} {x : ℕ × IoWork} (h : p'.done = p.done ++ [x]) :
    IoPath.filled p p' = if x.2.isInternal = true then [] else [x.2] := by
  rw [IoPath.filled, h, List.drop_left]
  cases hx : x.2.isInternal <;> simp [hx]

namespace PathInv

theorem wiring_post {cq : CompletionQueue} (hcq : s.cqes cqid = some cq) (cq' : CompletionQueue)
    (hsize : cq'.queueSize = cq.queueSize) (cqid' : ℕ) :
    (update s.cqes cqid (some cq') cqid').map (·.queueSize) = s.wiring.cqs cqid' := by
  by_cases h : cqid' = cqid
  · subst h
    rw [update_self, Option.map_some, hsize]
    exact (congrArg (Option.map CompletionQueue.queueSize) hcq).symm
  · rw [update_of_ne h]
    rfl

/-- **A worker moves**: the completion of a command finds its queue, and room in it. -/
theorem move (h : PathInv W n s) (hn : 0 < n) {e : PoolEvent} (he : PoolMove e) :
    Sat (fun _ => False) (PathInv W n) (s.move e) := by
  obtain ⟨p, hstep, hjobs, hdone⟩ := pool_move s.pool he
  obtain ⟨hpool, hnr⟩ : PoolInv p ∧ p.nrIoWorkers = n := by
    have hsat := poolInv_step n hn s.pool e ⟨h.pool, h.nr⟩ (by cases e <;> trivial)
    exact hsat.of_ok hstep
  unfold IoPath.move
  rw [hstep, ok_bind]
  have hquiet (hacc : Accounts { s with pool := p }) : PathInv W n { s with pool := p } :=
    ⟨h.wiring, h.wired, h.inQueue, h.count, fun qid c hc => (h.queues qid c hc).imp fun o hq => hq.same rfl rfl rfl,
      hpool, hnr, h.cqs, hacc, h.sent, h.room⟩
  have hgrows : s.Grows { s with pool := p } :=
    ⟨rfl, fun _ => List.prefix_rfl, fun _ => List.prefix_rfl, List.prefix_rfl, hjobs ▸ List.prefix_rfl⟩
  rcases hdone with hdone | ⟨⟨t, w⟩, hdone⟩
  · rw [IoPath.filled_of_done_eq hdone]
    exact hquiet (h.accounts.keep hgrows rfl rfl hjobs hdone rfl)
  · obtain ⟨job, hjob, hcarried, -⟩ := hpool.settled (hdone ▸ List.mem_append_right _ (List.mem_singleton_self _))
    rw [hjobs] at hjob
    rw [IoPath.filled_of_done_append hdone]
    split_ifs with hint
    · exact hquiet (h.accounts.settle hgrows rfl rfl hjobs hdone hjob hcarried (.inl ⟨hint, rfl⟩))
    · rcases h.accounts.origin_cases hjob with ⟨c, ht, hof⟩ | ⟨-, sqid, nsecsTarget, writeBuffer, buffs, rfl⟩
      swap
      · exact absurd hcarried.1 hint
      obtain ⟨sq, entry, commandId, nsecsStart, nsecsTarget, status, result, hsq, hentry, -, rfl⟩ := hof
      have hcqid : w.cqid = sq.cqid := hcarried.2.2.1
      obtain ⟨-, cq, hcq⟩ := h.exists_cq hsq
      -- the command was not reported before
      have hnew : c ∉ s.reports sq.cqid := by
        intro hmem
        obtain ⟨x, hx, hr⟩ := List.mem_filterMap.1 hmem
        have hsame := h.accounts.once _ _ _ (Accounts.reportOf_eq hr).2.2 ht
        have hnodup := hpool.done_nodup
        rw [hdone, List.map_append, List.nodup_append] at hnodup
        exact hnodup.2.2 x.1 (List.mem_map_of_mem hx) t (List.mem_singleton_self _) hsame
      have hroom := h.post_room hcq hsq rfl (List.getElem?_eq_some_iff.1 hentry).1 hnew
      rw [← hcqid] at hcq hroom
      have hcqs := cqsInv_post h.cqs (w := w) fun cq' hcq' => by
        obtain rfl := Option.some.inj (hcq.symm.trans hcq')
        exact hroom
      have hpost : s.toCompletion.post w = .ok { s.toCompletion with
          cqes := update s.cqes w.cqid (some (fillCqResult cq w))
          completed := update s.completed w.sqid (s.completed w.sqid + 1)
          posted := update s.posted w.cqid (s.posted w.cqid ++ [w.cqe cq.phase]) } := by
        rw [Completion.post, hcq]
      rw [hpost] at hcqs
      rw [List.foldlM_cons, hpost]
      have hwiring : (s.withCompletion { s.toCompletion with
          cqes := update s.cqes w.cqid (some (fillCqResult cq w)) }).wiring = W := by
        rw [← h.wiring]
        exact congrArg (Wiring.mk s.wiring.sqs) (funext fun cqid' => wiring_post hcq (fillCqResult cq w) rfl cqid')
      refine ⟨hwiring, h.wired, h.inQueue, h.count,
        fun qid c hc => (h.queues qid c hc).imp fun o hq => hq.same rfl rfl rfl, hpool, hnr, hcqs, ?_, h.sent, h.room⟩
      exact h.accounts.settle ⟨rfl, fun _ => List.prefix_rfl, fun _ => List.prefix_rfl, List.prefix_rfl,
        hjobs ▸ List.prefix_rfl⟩ rfl rfl hjobs hdone hjob hcarried
          (.inr ⟨Bool.eq_false_iff.2 hint, cq.phase, rfl⟩)

/-! ## The host and the completion queues -/

/-- A step of the completion queues. -/
theorem completed (h : PathInv W n s) {c : Completion}
    (hsqs : ∀ qid, (c.sqes qid).map (·.shape) = (s.sqes qid).map (·.shape))
    (hsizes : ∀ cqid, (c.cqes cqid).map (·.queueSize) = (s.cqes cqid).map (·.queueSize))
    (hdbs : ∀ qid, c.dbs (sqDbsIdx qid) = s.dbs (sqDbsIdx qid))
    (hold : ∀ qid, c.oldDbs (sqDbsIdx qid) = s.oldDbs (sqDbsIdx qid)) (hsubmitted : c.submitted = s.submitted)
    (hposted : c.posted = s.posted) (hcqs : CqsInv c) (hpassed : ∀ cqid, s.passed cqid ≤ c.passed cqid) :
    PathInv W n (s.withCompletion c) := by
  have hwiring : (s.withCompletion c).wiring = s.wiring := congrArg₂ Wiring.mk (funext hsqs) (funext hsizes)
  have hgrows : s.Grows (s.withCompletion c) :=
    ⟨congrArg Wiring.sqs hwiring, fun _ => List.prefix_rfl, fun _ => List.prefix_rfl, List.prefix_rfl,
      List.prefix_rfl⟩
  refine ⟨hwiring.trans h.wiring, h.wired, ?_, ?_, ?_, h.pool, h.nr, hcqs, ?_, ?_, ?_⟩
  · intro r hr
    obtain ⟨x, hx⟩ := h.inQueue r hr
    exact ⟨x, (hsqs r.sqid).trans hx⟩
  · intro qid
    exact (h.count qid).trans (congrFun hsubmitted qid).symm
  · intro qid x hx
    obtain ⟨o, hq⟩ := h.queues qid x hx
    exact ⟨o, hq.inv.congr rfl (congrFun hsubmitted qid) (hsqs qid) (hdbs qid) (hold qid) rfl, hq.mem⟩
  · exact h.accounts.keep hgrows rfl rfl rfl rfl hposted
  · intro qid k x hx hk
    refine h.sent qid k x hx ?_
    rw [← hsubmitted]
    exact hk
  · intro cqid size hsize
    have hroom := h.room cqid size hsize
    have hle := hpassed cqid
    change ((s.sent cqid).length : ℤ) ≤ c.passed cqid + size
    omega

theorem dbsIdx_ne (qid cqid : ℕ) : sqDbsIdx qid ≠ cqDbsIdx cqid := by
  unfold sqDbsIdx cqDbsIdx
  omega

theorem read (h : PathInv W n s) (cqid : ℕ) : PathInv W n (s.withCompletion (s.toCompletion.read cqid)) := by
  have hcqs := cqsInv_read h.cqs cqid
  unfold Completion.read at hcqs ⊢
  cases hcq : s.cqes cqid with
  | none => exact h
  | some cq =>
    simp only [hcq] at hcqs ⊢
    by_cases hready : (cq.cq (s.host cqid).head).phase = (s.host cqid).phase
    · rw [if_pos hready] at hcqs ⊢
      exact h.completed (fun _ => rfl) (fun _ => rfl) (fun _ => rfl) (fun _ => rfl) rfl rfl hcqs fun _ => le_rfl
    · rw [if_neg hready]
      exact h

theorem ring (h : PathInv W n s) {k : ℕ} (hrule : PathRule s (.ring cqid k)) :
    PathInv W n (s.withCompletion (s.toCompletion.ring cqid k)) := by
  have hcqs := cqsInv_ring h.cqs hrule
  unfold Completion.ring at hcqs ⊢
  cases hcq : s.cqes cqid with
  | none => exact h
  | some cq =>
    simp only [hcq] at hcqs
    refine h.completed (fun _ => rfl) (fun _ => rfl) (fun qid => update_of_ne (dbsIdx_ne qid cqid) ..)
      (fun _ => rfl) rfl rfl hcqs fun cqid' => ?_
    change s.passed cqid' ≤ update s.passed cqid k cqid'
    by_cases heq : cqid' = cqid
    · subst heq
      rw [update_self]
      exact hrule.1
    · rw [update_of_ne heq]

/-- Updates of other fields leave the shapes as they are. -/
theorem shape_foldl {f : SubmissionQueue → SubmissionQueue} (hf : ∀ sq, (f sq).shape = sq.shape) (g : ℤ → ℕ)
    (l : List ℤ) (sqes : ℕ → Option SubmissionQueue) (qid : ℕ) :
    ((l.foldl (fun sqes i => update sqes (g i) ((sqes (g i)).map f)) sqes) qid).map (·.shape) =
      (sqes qid).map (·.shape) := by
  induction l generalizing sqes with
  | nil => rfl
  | cons i l ih =>
    rw [List.foldl_cons, ih]
    by_cases heq : qid = g i
    · rw [heq, update_self, Option.map_map]
      exact congrArg (fun h => Option.map h (sqes (g i))) (funext hf)
    · rw [update_of_ne heq]

theorem pollCq (h : PathInv W n s) (cqid : ℕ) : PathInv W n (s.withCompletion (s.toCompletion.poll cqid)) := by
  have hcqs := cqsInv_poll h.cqs cqid
  unfold Completion.poll at hcqs ⊢
  cases hcq : s.cqes cqid with
  | none => exact h
  | some cq =>
    simp only [hcq] at hcqs ⊢
    by_cases hmoved : s.dbs (cqDbsIdx cqid) ≠ s.oldDbs (cqDbsIdx cqid)
    · rw [if_pos hmoved] at hcqs ⊢
      refine h.completed ?_ (wiring_post hcq _ rfl) (fun _ => rfl)
        (fun qid => update_of_ne (dbsIdx_ne qid cqid) ..) rfl rfl hcqs fun _ => le_rfl
      intro qid
      refine shape_foldl ?_ (fun i => (cq.cq i).sqId) _ s.sqes qid
      intro sq
      simp only [SubmissionQueue.shape]
    · rw [if_neg hmoved]
      exact h

/-! ## The dispatcher -/

theorem dispatched (h : PathInv W n s) {d : Dispatch} (hshapes : d.dev.shapes = s.dispatch.dev.shapes)
    (hin : d.dev.InQueue) (hposted : d.posted = s.submitted) (hacc : d.accepted = s.accepted)
    (hinv : ∀ qid q o, SqInv s.dispatch qid q o → SqInv d qid q o) : PathInv W n (s.withDispatch d) := by
  have hwiring : (s.withDispatch d).wiring = s.wiring := congrArg (fun sqs => Wiring.mk sqs s.wiring.cqs) hshapes
  have hgrows : s.Grows (s.withDispatch d) :=
    ⟨congrArg Wiring.sqs hwiring, fun qid => (congrFun hacc qid) ▸ List.prefix_rfl, fun _ => List.prefix_rfl,
      List.prefix_rfl, List.prefix_rfl⟩
  refine ⟨hwiring.trans h.wiring, h.wired, hin, ?_, ?_, h.pool, h.nr, h.cqs, ?_, ?_, h.room⟩
  · intro qid
    exact (h.count qid).trans (congrFun hposted qid).symm
  · intro qid c hc
    obtain ⟨o, hq⟩ := h.queues qid c hc
    refine ⟨o, hinv qid _ o hq.inv, ?_⟩
    rw [show (s.withDispatch d).accepted = s.accepted from hacc]
    exact hq.mem
  · exact h.accounts.keep hgrows hacc rfl rfl rfl rfl
  · intro qid k c hc hk
    refine h.sent qid k c hc ?_
    rw [← hposted]
    exact hk

theorem poll (h : PathInv W n s) (qid : ℕ) :
    PathInv W n (s.withDispatch { s.dispatch with dev := s.dispatch.dev.poll qid }) :=
  h.dispatched (Dispatcher.shapes_poll qid) (h.inQueue.poll qid) rfl rfl fun _ _ _ hq => hq.poll qid

theorem scheduled (h : PathInv W n s) (hn : 0 < n) (clock sqid nsecsTarget writeBuffer buffsToRelease : ℕ)
    (hroom : PathRoom s (.internal clock sqid nsecsTarget writeBuffer buffsToRelease)) :
    PathInv W n (s.scheduleInternal clock (.internal sqid nsecsTarget writeBuffer buffsToRelease)) := by
  have hpool := h.pool.enqueue (h.nr ▸ hn) clock _ hroom
  refine ⟨h.wiring, h.wired, h.inQueue, h.count, ?_, hpool, h.nr, h.cqs, ?_, h.sent, h.room⟩
  · intro qid c hc
    exact (h.queues qid c hc).imp fun o hq => hq.same rfl rfl rfl
  · refine h.accounts.issue h.pool ⟨rfl, fun _ => List.prefix_rfl, fun _ => List.prefix_rfl,
      List.prefix_append _ _, List.prefix_append _ _⟩ rfl rfl rfl rfl (fun c hc => nomatch hc)
      (fun _ => ⟨sqid, nsecsTarget, writeBuffer, buffsToRelease, rfl⟩) fun qid k hk => .inl hk

/-- The dispatcher takes an entry, and hands its command to a worker. -/
theorem take (h : PathInv W n s) (hn : 0 < n) {r : SqRound} (hround : s.round = some r) (a : IoAnswer)
    (hroom : PathRoom s (.handle (some a))) :
    PathInv W n ((s.procIo (some a)).withDispatch { s.dispatch with
      dev := s.dispatch.dev.handle (some a.ioSize)
      accepted := s.dispatch.note (s.dispatch.dev.accepts (some a.ioSize)) }) := by
  obtain ⟨c, hc⟩ := h.inQueue r hround
  obtain ⟨sq, hsq, rfl⟩ := Option.map_eq_some_iff.1 hc
  have hproc : s.procIo (some a) = { s with
      pool := s.pool.enqueue a.clock (.io r.sqid sq.cqid r.sqEntry (s.sqMem r.sqid r.sqEntry)
        a.nsecsStart a.nsecsTarget a.status a.result)
      origin := s.origin ++ [some (r.sqid, (s.accepted r.sqid).length)] } := by
    have hsq' : s.sqes r.sqid = some sq := hsq
    simp only [IoPath.procIo, hround, hsq']
  have hacc : s.dispatch.note (s.dispatch.dev.accepts (some a.ioSize)) =
      update s.accepted r.sqid (s.accepted r.sqid ++ [r.sqEntry]) := by
    have hround' : s.dispatch.dev.round = some r := hround
    simp only [Dispatcher.accepts, hround', Option.map_some, Dispatch.note]
    rfl
  have hpool := h.pool.enqueue (h.nr ▸ hn) a.clock _ (hroom r hround sq hsq)
  have hshapes : (s.dispatch.dev.handle (some a.ioSize)).shapes = s.dispatch.dev.shapes :=
    Dispatcher.shapes_handle _
  obtain ⟨o, hq⟩ := h.queues r.sqid _ (IoPath.sqs_of_eq h.wiring hsq)
  -- the entry holds the next command
  obtain ⟨hlt, hentry, -⟩ := hq.inv.inOrder.inside r hround rfl
  have hlt' : (s.accepted r.sqid).length < (s.commands r.sqid).length := by
    rw [h.count]
    exact hlt
  have hid : s.sqMem r.sqid r.sqEntry = (s.commands r.sqid)[(s.accepted r.sqid).length] := by
    rw [hentry]
    exact hq.mem _ _ le_rfl (List.getElem?_eq_getElem hlt')
  rw [hproc, hacc]
  have hinvs (qid : ℕ) (q o : ℕ) (hinv : SqInv s.dispatch qid q o) := hinv.handle (some a.ioSize)
  rw [hacc] at hinvs
  have hgrown (qid : ℕ) : s.accepted qid <+: update s.accepted r.sqid (s.accepted r.sqid ++ [r.sqEntry]) qid := by
    by_cases heq : qid = r.sqid
    · subst heq
      rw [update_self]
      exact List.prefix_append _ _
    · simp [update_of_ne heq]
  obtain ⟨sq', hsq', hshape⟩ := Option.map_eq_some_iff.1
    ((congrFun hshapes r.sqid).trans (congrArg (Option.map SubmissionQueue.shape) hsq))
  have hcqid : sq'.cqid = sq.cqid := congrArg Prod.fst hshape
  refine ⟨?_, h.wired, h.inQueue.handle _, h.count, ?_, hpool, h.nr, h.cqs, ?_, h.sent, h.room⟩
  · rw [← h.wiring]
    exact congrArg (fun sqs => Wiring.mk sqs s.wiring.cqs) hshapes
  · intro qid x hx
    obtain ⟨o, hq⟩ := h.queues qid x hx
    refine ⟨o, hinvs qid _ o hq.inv, fun k commandId hk hcommand => hq.mem k commandId ?_ hcommand⟩
    exact (hgrown qid).length_le.trans hk
  · refine h.accounts.issue h.pool ⟨hshapes, hgrown, fun _ => List.prefix_rfl, List.prefix_append _ _,
      List.prefix_append _ _⟩ rfl rfl rfl rfl ?_ (by rintro ⟨⟩) ?_
    · rintro c hx
      obtain rfl := Option.some.inj hx
      refine ⟨⟨sq', r.sqEntry, _, a.nsecsStart, a.nsecsTarget, a.status, a.result, hsq', ?_,
        List.getElem?_eq_getElem hlt', ?_⟩, le_rfl⟩
      · change (update s.accepted r.sqid (s.accepted r.sqid ++ [r.sqEntry]) r.sqid)[_]? = _
        rw [update_self, List.getElem?_concat_length]
      · rw [← hid, hcqid]
    · intro qid k hk
      change k < (update s.accepted r.sqid (s.accepted r.sqid ++ [r.sqEntry]) qid).length at hk
      by_cases heq : qid = r.sqid
      · subst heq
        rw [update_self, List.length_append, List.length_singleton] at hk
        rcases Nat.lt_succ_iff_lt_or_eq.1 hk with hk | rfl
        · exact .inl hk
        · exact .inr rfl
      · rw [update_of_ne heq] at hk
        exact .inl hk

theorem handle (h : PathInv W n s) (hn : 0 < n) (answer : Option IoAnswer) (hroom : PathRoom s (.handle answer)) :
    PathInv W n ((s.procIo answer).withDispatch { s.dispatch with
      dev := s.dispatch.dev.handle (answer.map (·.ioSize))
      accepted := s.dispatch.note (s.dispatch.dev.accepts (answer.map (·.ioSize))) }) := by
  have hnone (answer : Option ℕ) (hacc : s.dispatch.note (s.dispatch.dev.accepts answer) = s.accepted) :
      PathInv W n (s.withDispatch { s.dispatch with
        dev := s.dispatch.dev.handle answer
        accepted := s.dispatch.note (s.dispatch.dev.accepts answer) }) :=
    h.dispatched (Dispatcher.shapes_handle answer) (h.inQueue.handle answer) rfl hacc
      fun _ _ _ hq => hq.handle answer
  cases answer with
  | none => exact hnone none rfl
  | some a =>
    cases hround : s.round with
    | none =>
      have hproc : s.procIo (some a) = s := by simp only [IoPath.procIo, hround]
      have hround' : s.dispatch.dev.round = none := hround
      rw [hproc]
      exact hnone (some a.ioSize) (by simp only [Dispatcher.accepts, hround', Option.map_none]; rfl)
    | some r => exact h.take hn hround a hroom

/-! ## The host submits commands -/

/-- The host's rule, as the dispatcher needs it: by the completions it has read, the host
    keeps an entry free. -/
theorem hostRule (h : PathInv W n s) {sq : SubmissionQueue} {commandIds : List ℕ} {q o : ℕ}
    (hq : PathQueue s qid q o) (hsq : s.sqes qid = some sq) (hsize : sq.queueSize = q)
    (hrule : PathRule s (.submit qid commandIds)) :
    s.submitted qid + commandIds.length < (s.accepted qid).length + q ∧
      s.dispatch.added qid (s.tail qid commandIds) = commandIds.length ∧
      HostRule s.dispatch (.ring qid (s.tail qid commandIds)) := by
  have hroom : s.submitted qid + commandIds.length < (s.accepted qid).length + q := by
    have hfree := (hrule sq hsq).1
    have hread := h.read_le hsq
    omega
  have hposted : (s.accepted qid).length ≤ s.submitted qid := hq.inv.posted
  have htail : s.tail qid commandIds = (s.dbs (sqDbsIdx qid) + commandIds.length) % sq.queueSize := by
    simp only [IoPath.tail, hsq]
  have hadded : s.dispatch.added qid (s.tail qid commandIds) = commandIds.length := by
    have hsq' : s.dispatch.dev.sqes qid = some sq := hsq
    simp only [Dispatch.added, hsq', htail]
    change ((((s.dbs (sqDbsIdx qid) + commandIds.length) % sq.queueSize - s.dbs (sqDbsIdx qid)) %
      sq.queueSize).toNat) = commandIds.length
    rw [Int.emod_sub_emod, add_sub_cancel_left, hsize, Int.emod_eq_of_lt (by omega) (by omega), Int.toNat_natCast]
  refine ⟨hroom, hadded, ?_⟩
  intro sq' hsq'
  obtain rfl : sq = sq' := Option.some.inj (hsq.symm.trans hsq')
  have hpos : (0 : ℤ) < sq.queueSize := by omega
  rw [hadded, htail, hsize, Int.toNat_natCast, ← hsize]
  exact ⟨Int.emod_nonneg _ hpos.ne', Int.emod_lt_of_pos _ hpos, hroom⟩

/-- **The host submits commands.** -/
theorem submit (h : PathInv W n s) (commandIds : List ℕ) (hrule : PathRule s (.submit qid commandIds)) :
    PathInv W n ((s.store qid commandIds).withDispatch { s.dispatch with
      dev := s.dispatch.dev.ring qid (s.tail qid commandIds)
      posted := update s.submitted qid (s.submitted qid + s.dispatch.added qid (s.tail qid commandIds)) }) := by
  cases hsq : s.sqes qid with
  | none =>
    have hstate : (s.store qid commandIds).withDispatch { s.dispatch with
        dev := s.dispatch.dev.ring qid (s.tail qid commandIds)
        posted := update s.submitted qid (s.submitted qid + s.dispatch.added qid (s.tail qid commandIds)) } = s := by
      have hsq' : s.dispatch.dev.sqes qid = none := hsq
      have hadded : s.dispatch.added qid (s.tail qid commandIds) = 0 := by simp only [Dispatch.added, hsq']
      have htail : s.tail qid commandIds = s.dbs (sqDbsIdx qid) := by simp only [IoPath.tail, hsq]
      have hstore : s.store qid commandIds = s := by simp only [IoPath.store, hsq]
      rw [hstore, hadded, htail, Nat.add_zero, update_eq_self]
      simp only [IoPath.withDispatch, IoPath.dispatch, Dispatcher.ring, update_eq_self]
    rw [hstate]
    exact h
  | some sq =>
    have hW := IoPath.sqs_of_eq h.wiring hsq
    obtain ⟨o, hq⟩ := h.queues qid _ hW
    obtain ⟨sq', hsq', hsize⟩ := hq.inv.dev.size
    obtain rfl : sq = sq' := Option.some.inj (hsq.symm.trans hsq')
    obtain ⟨hroom, hadded, hhost⟩ := h.hostRule hq hsq hsize hrule
    have hstore : s.store qid commandIds = { s with
        sqMem := update s.sqMem qid fun entry =>
          (commandIds[((entry - s.dbs (sqDbsIdx qid)) % sq.queueSize).toNat]?).getD (s.sqMem qid entry)
        commands := update s.commands qid (s.commands qid ++ commandIds)
        sent := update s.sent sq.cqid (s.sent sq.cqid ++
          (List.range commandIds.length).map fun i => (qid, (s.commands qid).length + i)) } := by
      simp only [IoPath.store, hsq]
    have hinvs (qid' : ℕ) (q o : ℕ) (hinv : SqInv s.dispatch qid' q o) := hinv.ring hhost
    rw [hadded] at hinvs ⊢
    rw [hstore]
    refine ⟨h.wiring, h.wired, h.inQueue, ?_, ?_, h.pool, h.nr, h.cqs, ?_, ?_, ?_⟩
    · intro qid'
      change (update s.commands qid (s.commands qid ++ commandIds) qid').length =
        update s.submitted qid (s.submitted qid + commandIds.length) qid'
      by_cases heq : qid' = qid
      · subst heq
        rw [update_self, update_self, List.length_append, h.count]
      · rw [update_of_ne heq, update_of_ne heq]
        exact h.count qid'
    · intro qid' c hc
      by_cases heq : qid' = qid
      · subst heq
        obtain rfl : sq.shape = c := Option.some.inj (hW.symm.trans hc)
        refine ⟨o, hinvs qid' _ o hq.inv, fun k commandId hk hcommand => ?_⟩
        change (update s.commands qid' (s.commands qid' ++ commandIds) qid')[k]? = some commandId at hcommand
        change update s.sqMem qid' _ qid' _ = commandId
        rw [update_self] at hcommand ⊢
        exact hq.store hsize (h.count qid') hroom hk hcommand
      · obtain ⟨o', hq'⟩ := h.queues qid' c hc
        refine ⟨o', hinvs qid' _ o' hq'.inv, fun k commandId hk hcommand => ?_⟩
        change (update s.commands qid (s.commands qid ++ commandIds) qid')[k]? = some commandId at hcommand
        change update s.sqMem qid _ qid' _ = commandId
        rw [update_of_ne heq] at hcommand ⊢
        exact hq'.mem k commandId hk hcommand
    · refine h.accounts.keep ⟨rfl, fun _ => List.prefix_rfl, fun qid' => ?_, List.prefix_rfl, List.prefix_rfl⟩
        rfl rfl rfl rfl rfl
      change s.commands qid' <+: update s.commands qid (s.commands qid ++ commandIds) qid'
      by_cases heq : qid' = qid
      · subst heq
        rw [update_self]
        exact List.prefix_append _ _
      · simp [update_of_ne heq]
    · intro qid' k c hc hk
      change k < update s.submitted qid (s.submitted qid + commandIds.length) qid' at hk
      change (qid', k) ∈ update s.sent sq.cqid _ c.1
      have hold (hlt : k < s.submitted qid') : (qid', k) ∈ update s.sent sq.cqid (s.sent sq.cqid ++
          (List.range commandIds.length).map fun i => (qid, (s.commands qid).length + i)) c.1 := by
        have hmem := h.sent qid' k c hc hlt
        by_cases heq : c.1 = sq.cqid
        · rw [heq] at hmem ⊢
          rw [update_self]
          exact List.mem_append_left _ hmem
        · rw [update_of_ne heq]
          exact hmem
      by_cases heq : qid' = qid
      · subst heq
        rw [update_self] at hk
        rcases Nat.lt_or_ge k (s.submitted qid') with hlt | hge
        · exact hold hlt
        · obtain rfl : sq.shape = c := Option.some.inj (hW.symm.trans hc)
          change (qid', k) ∈ update s.sent sq.cqid _ sq.cqid
          rw [update_self, h.count]
          refine List.mem_append_right _ (List.mem_map.2 ⟨k - s.submitted qid', List.mem_range.2 (by omega), ?_⟩)
          rw [Nat.add_sub_cancel' hge]
      · rw [update_of_ne heq] at hk
        exact hold hk
    · intro cqid size hsize'
      change ((update s.sent sq.cqid _ cqid).length : ℤ) ≤ s.passed cqid + size
      by_cases heq : cqid = sq.cqid
      · subst heq
        obtain ⟨-, cq, hcq⟩ := h.exists_cq hsq
        obtain rfl := Option.some.inj ((h.cqs_eq hcq).symm.trans hsize')
        have hfits := (hrule sq hsq).2 cq hcq
        rw [update_self, List.length_append, List.length_map, List.length_range]
        push_cast
        exact hfits
      · rw [update_of_ne heq]
        exact h.room cqid size hsize'

end PathInv

/-! ## The theorem -/

theorem pathInv_step (hn : 0 < n) (s : IoPath) (e : PathEvent) (h : PathInv W n s)
    (hcond : PathRule s e ∧ PathRoom s e) : Sat (fun _ => False) (PathInv W n) (ioPath.step s e) := by
  obtain ⟨hrule, hroom⟩ := hcond
  cases e with
  | submit qid commandIds => exact h.submit commandIds hrule
  | poll qid => exact h.poll qid
  | internal clock sqid nsecsTarget writeBuffer buffsToRelease =>
    exact h.scheduled hn clock sqid nsecsTarget writeBuffer buffsToRelease hroom
  | handle answer => exact h.handle hn answer hroom
  | reclaim wid => exact h.move hn trivial
  | start wid => exact h.move hn trivial
  | visit wid currNsecs => exact h.move hn trivial
  | advance wid => exact h.move hn trivial
  | read cqid => exact h.read cqid
  | ring cqid n => exact h.ring hrule
  | pollCq cqid => exact h.pollCq cqid

theorem PathInv.exact (h : PathInv W n s) : s.Exact where
  reported := h.accounts.reported
  nodup := h.accounts.nodup h.pool
  own := fun _ _ hc => h.accounts.own h.pool hc
  kept := fun _ _ _ hsq hk => h.accounts.reported_iff h.pool hsq hk
  taken := fun qid _ hsq => by
    obtain ⟨o, hq⟩ := h.queues qid _ (IoPath.sqs_of_eq h.wiring hsq)
    rw [h.count]
    exact hq.inv.posted
  read := fun cqid cq hcq => by
    obtain ⟨q, hinv⟩ := h.cqs cqid cq hcq
    exact hinv.safe

theorem IoPath.Fresh.inv (h : s.Fresh n) : PathInv s.wiring n s := by
  have hdispatch : s.dispatch = Dispatch.start s.dispatch.dev :=
    congrArg₂ (Dispatch.mk s.dispatch.dev) (funext h.completion.submitted) (funext h.accepted)
  refine ⟨rfl, ?_, ?_, ?_, ?_, ?_, ?_, h.completion.inv, ?_, ?_, ?_⟩
  · intro qid c hc
    obtain ⟨sq, hsq, rfl⟩ := Option.map_eq_some_iff.1 hc
    obtain ⟨hlt, cq, hcq⟩ := h.wired qid sq hsq
    exact ⟨hlt, cq.queueSize, congrArg (Option.map _) hcq⟩
  · intro r hr
    rw [h.idle.round] at hr
    cases hr
  · intro qid
    rw [h.commands, h.completion.submitted]
    rfl
  · intro qid c hc
    obtain ⟨sq, hsq, rfl⟩ := Option.map_eq_some_iff.1 hc
    have hinv := h.idle.sqInv hsq
    rw [← hdispatch] at hinv
    refine ⟨_, hinv, fun k commandId _ hcommand => ?_⟩
    rw [h.commands] at hcommand
    cases hcommand
  · rw [h.pool]
    exact poolInv_init n
  · rw [h.pool]
    rfl
  · refine ⟨by rw [h.origin, h.pool]; rfl, ?_, ?_, ?_, ?_, ?_⟩
    · intro t c ht
      rw [h.origin] at ht
      cases ht
    · intro t ht
      rw [h.origin] at ht
      cases ht
    · intro t t' c ht
      rw [h.origin] at ht
      cases ht
    · intro qid k hk
      rw [h.accepted] at hk
      exact absurd hk (Nat.not_lt_zero k)
    · intro cqid
      rw [IoPath.reports, h.pool, h.completion.posted]
      exact .nil
  · intro qid k c _ hk
    rw [h.completion.submitted] at hk
    exact absurd hk (Nat.not_lt_zero k)
  · intro cqid size hsize
    obtain ⟨cq, hcq, rfl⟩ := Option.map_eq_some_iff.1 hsize
    obtain ⟨qsize, mem, rfl, -⟩ := h.completion.cqes cqid cq hcq
    rw [h.sent, h.completion.passed]
    simp only [CompletionQueue.create, List.length_nil]
    omega

instance pathRuleDecidable (s : IoPath) : ∀ e, Decidable (PathRule s e)
  | .submit qid commandIds => inferInstanceAs (Decidable (∀ sq ∈ s.sqes qid,
      (s.submitted qid : ℤ) + commandIds.length <
        ((s.host sq.cqid).read.countP fun cqe => cqe.sqId = qid : ℕ) + sq.queueSize ∧
      ∀ cq ∈ s.cqes sq.cqid,
        ((s.sent sq.cqid).length : ℤ) + commandIds.length ≤ s.passed sq.cqid + cq.queueSize))
  | .ring cqid n => inferInstanceAs (Decidable (s.passed cqid ≤ n ∧ n ≤ (s.host cqid).read.length))
  | .poll _ => .isTrue trivial
  | .internal .. => .isTrue trivial
  | .handle _ => .isTrue trivial
  | .reclaim _ => .isTrue trivial
  | .start _ => .isTrue trivial
  | .visit _ _ => .isTrue trivial
  | .advance _ => .isTrue trivial
  | .read _ => .isTrue trivial
  | .pollCq _ => .isTrue trivial

instance pathRoomDecidable (s : IoPath) : ∀ e, Decidable (PathRoom s e)
  | .internal clock sqid nsecsTarget writeBuffer buffsToRelease => inferInstanceAs (Decidable
      (PoolRoom s.pool (.enqueue clock (.internal sqid nsecsTarget writeBuffer buffsToRelease))))
  | .handle (some a) => inferInstanceAs (Decidable (∀ r ∈ s.round, ∀ sq ∈ s.sqes r.sqid,
      PoolRoom s.pool (.enqueue a.clock (.io r.sqid sq.cqid r.sqEntry (s.sqMem r.sqid r.sqEntry)
        a.nsecsStart a.nsecsTarget a.status a.result))))
  | .handle none => .isTrue trivial
  | .submit _ _ => .isTrue trivial
  | .ring _ _ => .isTrue trivial
  | .poll _ => .isTrue trivial
  | .reclaim _ => .isTrue trivial
  | .start _ => .isTrue trivial
  | .visit _ _ => .isTrue trivial
  | .advance _ => .isTrue trivial
  | .read _ => .isTrue trivial
  | .pollCq _ => .isTrue trivial

/-- Two submission queues of two entries, on one completion queue of two entries. -/
def twoQueues : IoPath where
  sqes sqid := if 1 ≤ sqid ∧ sqid ≤ 2 then some ⟨1, 2, ⟨0, 0, 0, 0, 0⟩⟩ else none
  cqes cqid := if cqid = 1 then some (.create 1 fun _ => ⟨0, 0, 0, 0, 0, 0⟩) else none
  dbs _ := 0
  oldDbs _ := 0
  host _ := ⟨0, true, []⟩
  submitted _ := 0
  completed _ := 0
  posted _ := []
  passed _ := 0
  round := none
  accepted _ := []
  pool := Pool.init 1
  sqMem _ _ := 0
  commands _ := []
  sent _ := []
  origin := []

theorem twoQueues_fresh : twoQueues.Fresh 1 := by
  have hsq (qid : ℕ) (sq : SubmissionQueue) (h : twoQueues.sqes qid = some sq) :
      qid ≤ 2 ∧ sq = ⟨1, 2, ⟨0, 0, 0, 0, 0⟩⟩ := by
    simp only [twoQueues] at h
    split_ifs at h with hid
    exact ⟨hid.2, (Option.some.inj h).symm⟩
  refine ⟨⟨?_, fun _ => rfl, fun _ => rfl, fun _ => rfl, fun _ => rfl, fun _ => rfl⟩, ⟨rfl, ?_, ?_⟩, ?_, rfl,
    fun _ => rfl, fun _ => rfl, fun _ => rfl, rfl⟩
  · intro cqid cq hcq
    simp only [twoQueues] at hcq
    split_ifs at hcq
    cases hcq
    exact ⟨1, _, rfl, fun _ => rfl⟩
  · intro qid sq h
    obtain ⟨-, rfl⟩ := hsq qid sq h
    decide
  · intro qid sq h
    obtain ⟨-, rfl⟩ := hsq qid sq h
    exact ⟨le_rfl, Int.natCast_pos.2 Nat.two_pos, rfl⟩
  · intro qid sq h
    obtain ⟨hle, rfl⟩ := hsq qid sq h
    exact ⟨by omega, _, rfl⟩

/-- A command of each queue: the first is refused once, and the second completed first. -/
def crossedRun : List PathEvent :=
  [.submit 1 [7], .submit 2 [8], .poll 1, .handle none, .poll 2, .handle (some ⟨512, 0, 0, 10, 0, 0⟩), .poll 1,
    .internal 0 1 15 0 4096, .handle (some ⟨512, 0, 0, 20, 0, 0⟩), .start 0, .visit 0 12, .read 1, .advance 0,
    .visit 0 30, .advance 0, .visit 0 30, .read 1, .ring 1 2, .pollCq 1, .reclaim 0, .submit 1 [9]]

end WaitGc

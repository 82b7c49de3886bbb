/-
  WAITGC verification — the jobs of the I/O workers, call by call.

  `PoolInv` holds along every run of the pool in which every job finds an entry:
  each job handed to the workers is either in an entry of a pending list that is
  not completed, or was done with exactly once.  The cursor of a worker can be
  left behind by the reclaimer, on an entry that is free again; `WorkerOk` says
  that such an entry is completed, so that the worker passes over it.

  Here a call of the dispatcher is one step; `Proof/Threads` takes it apart.
-/
import WaitGc.Lib.Ledger
import WaitGc.Io.Pool
import WaitGc.Proof.WorkQueue

namespace WaitGc

open Outcome Function Chain Ledger

variable {s s' : Pool} {w w' : IoWorker} {wid i e t : ℕ} {free fresh recycled io : List ℕ}

/-- The entry `i` is in the pending list. -/
def IoWorker.Pending (w : IoWorker) (i : ℕ) : Prop :=
  ∃ io, Linked (nexts w.workQueue) w.ioSeq io nil32 ∧ nil32 ∉ io ∧ i ∈ io

/-- The entry `i` is in the pending list, and not completed. -/
def IoWorker.Live (w : IoWorker) (i : ℕ) : Prop :=
  w.Pending i ∧ (w.workQueue i).isCompleted = false

/-- The entry `w` carries the job. -/
def IoJob.CarriedBy (w : IoWork) : IoJob → Prop
  | .io sqid cqid sqEntry commandId _ nsecsTarget status result =>
    w.isInternal = false ∧ w.sqid = sqid ∧ w.cqid = cqid ∧ w.sqEntry = sqEntry ∧
      w.commandId = commandId ∧ w.nsecsTarget = nsecsTarget ∧ w.status = status ∧
      w.result0 = u32 result ∧ w.result1 = u32 (result / 2 ^ 32)
  | .internal _ nsecsTarget writeBuffer buffsToRelease =>
    w.isInternal = true ∧ w.nsecsTarget = nsecsTarget ∧ w.writeBuffer = writeBuffer ∧
      w.buffsToRelease = buffsToRelease

namespace Pool

/-- The `i`-th entry of the worker `wid`. -/
def entry (s : Pool) (p : ℕ × ℕ) : IoWork := (s.ioWorkers p.1).workQueue p.2

/-- The worker has yet to complete the entry. -/
def Holds (s : Pool) (p : ℕ × ℕ) : Prop :=
  p.1 < s.nrIoWorkers ∧ (s.ioWorkers p.1).Live p.2

/-- The job `t` is pending and nothing was done for it, or it was done with exactly
    once. -/
def Served (s : Pool) (t : ℕ) (job : IoJob) : Prop :=
  (∃ p, s.Holds p ∧ s.tag p = t ∧ job.CarriedBy (s.entry p) ∧ notes s.done t = []) ∨
    ∃ w, notes s.done t = [(t, w)] ∧ job.CarriedBy w

end Pool

/-- The job finds an entry: it would not take the worker's last free one. -/
def PoolRoom (s : Pool) : PoolEvent → Prop
  | .enqueue _ job =>
    let w := s.ioWorkers (s.workerOf job)
    (w.workQueue w.freeSeq).next < nrMaxParallelIo
  | _ => True

instance (s : Pool) : ∀ e, Decidable (PoolRoom s e)
  | .enqueue _ job => inferInstanceAs (Decidable
      (((s.ioWorkers (s.workerOf job)).workQueue (s.ioWorkers (s.workerOf job)).freeSeq).next <
        nrMaxParallelIo))
  | .reclaim _ => .isTrue trivial
  | .start _ => .isTrue trivial
  | .visit _ _ => .isTrue trivial
  | .advance _ => .isTrue trivial

/-! ## One worker -/

theorem Queues.pending_iff (h : Queues w free io) : w.Pending i ↔ i ∈ io := by
  have hnil : nil32 ∉ io := fun hmem => h.ne_nil (.inr hmem) rfl
  constructor
  · rintro ⟨io', hio', hnil', hi⟩
    rwa [h.ioChain.unique hio' hnil hnil']
  · intro hi
    exact ⟨io, h.ioChain, hnil, hi⟩

/-- The free entries of a worker are those never used, and those recycled, which are
    completed; its cursor is at a pending or at a recycled one. -/
structure WorkerOk (w : IoWorker) (curr : ℕ) (fresh recycled io : List ℕ) : Prop where
  queues : Queues w (fresh ++ recycled) io
  spent : ∀ i ∈ recycled, (w.workQueue i).isCompleted = true
  cursor : curr = nil32 ∨ curr ∈ recycled ∨ curr ∈ io

variable {curr : ℕ}

theorem workerOk_init (id : ℕ) :
    WorkerOk (IoWorker.init id) nil32 (List.range nrMaxParallelIo) [] [] :=
  ⟨by simpa using queues_init id, by simp, .inl rfl⟩

namespace WorkerOk

/-- An entry that is not completed is in no one's way but the cursor's: it is
    pending, if the cursor is there. -/
theorem curr_mem (h : WorkerOk w curr fresh recycled io) (hnil : curr ≠ nil32)
    (hdone : (w.workQueue curr).isCompleted = false) : curr ∈ io := by
  rcases h.cursor with hc | hc | hc
  · exact absurd hc hnil
  · rw [h.spent curr hc] at hdone
    cases hdone
  · exact hc

theorem start (h : WorkerOk w curr fresh recycled io) : WorkerOk w w.ioSeq fresh recycled io := by
  refine ⟨h.queues, h.spent, ?_⟩
  cases io with
  | nil => exact .inl h.queues.ioChain
  | cons a io =>
    rw [h.queues.ioChain.head]
    simp

theorem advance (h : WorkerOk w curr fresh recycled io) (hnil : curr ≠ nil32) :
    WorkerOk w (w.workQueue curr).next fresh recycled io := by
  refine ⟨h.queues, h.spent, ?_⟩
  change nexts w.workQueue curr = _ ∨ nexts w.workQueue curr ∈ _ ∨ nexts w.workQueue curr ∈ _
  rcases h.cursor with hc | hc | hc
  · exact absurd hc hnil
  · obtain ⟨m, -, hrec⟩ := linked_append.1 h.queues.freeChain
    rcases hrec.next_of_mem hc with hmem | hend
    · exact .inr (.inl hmem)
    · exact .inl hend
  · rcases h.queues.ioChain.next_of_mem hc with hmem | hend
    · exact .inr (.inr hmem)
    · exact .inl hend

/-- Entries are reclaimed under the cursor. -/
theorem reclaim (h : WorkerOk w curr fresh recycled io) :
    ∃ done rest, io = done ++ rest ∧
      WorkerOk w.reclaimCompletedReqs curr fresh (recycled ++ done) rest ∧
      bodies w.reclaimCompletedReqs.workQueue = bodies w.workQueue ∧
      ∀ i ∈ done, (w.workQueue i).isCompleted = true := by
  obtain ⟨done, rest, rfl, hq, hbodies, -, hdone, -⟩ := h.queues.reclaim
  have hcompleted (i : ℕ) : (w.reclaimCompletedReqs.workQueue i).isCompleted =
      (w.workQueue i).isCompleted := by
    rw [← isCompleted_bodies, hbodies, isCompleted_bodies]
  refine ⟨done, rest, rfl, ⟨?_, ?_, ?_⟩, hbodies, fun i hi => (hdone i hi).1⟩
  · rwa [← List.append_assoc]
  · intro i hi
    rw [hcompleted]
    rcases List.mem_append.1 hi with hi | hi
    · exact h.spent i hi
    · exact (hdone i hi).1
  · rcases h.cursor with hc | hc | hc
    · exact .inl hc
    · exact .inr (.inl (List.mem_append_left _ hc))
    · rcases List.mem_append.1 hc with hc | hc
      · exact .inr (.inl (List.mem_append_right _ hc))
      · exact .inr (.inr hc)

/-- A job takes the first free entry, which may be the one under the cursor. -/
theorem enqueue (h : WorkerOk w curr fresh recycled io) (clock : ℕ) (job : IoJob)
    (hroom : (w.workQueue w.freeSeq).next < nrMaxParallelIo) :
    ∃ fresh recycled io', WorkerOk (w.enqueue clock job) curr fresh recycled io' ∧
      (∀ i, i ∈ io' ↔ i = w.freeSeq ∨ i ∈ io) ∧ w.freeSeq ∉ io ∧
      bodies (w.enqueue clock job).workQueue = update (bodies w.workQueue) w.freeSeq
        (job.fill (w.workQueue w.freeSeq) clock).body := by
  have hnd := h.queues.nodup
  obtain ⟨e, a, free, hfree⟩ : ∃ e a free, fresh ++ recycled = e :: a :: free := by
    cases hsplit : fresh ++ recycled with
    | nil => exact absurd hsplit h.queues.free_ne_nil.1
    | cons e free =>
      have hchain := h.queues.freeChain
      rw [hsplit] at hchain
      cases free with
      | nil =>
        have hnext : (w.workQueue w.freeSeq).next = nil32 := by
          rw [hchain.head]
          exact hchain.2
        rw [hnext] at hroom
        exact absurd hroom (by decide)
      | cons a free => exact ⟨e, a, free, rfl⟩
  have hq := h.queues
  rw [hfree] at hq hnd
  have he : w.freeSeq = e := hq.freeChain.head
  obtain ⟨pre, post, rfl, hq', hbodies, -, -, -⟩ := hq.enqueue clock job
  have hmem (i : ℕ) : i ∈ pre ++ e :: post ↔ i = e ∨ i ∈ pre ++ post := by
    simp only [List.mem_append, List.mem_cons]
    tauto
  have heio : e ∉ pre ++ post := fun hmem =>
    (List.nodup_cons.1 hnd).1 (List.mem_append_right _ hmem)
  have hcompleted {i : ℕ} (hi : i ∈ a :: free) (hdone : (w.workQueue i).isCompleted = true) :
      ((w.enqueue clock job).workQueue i).isCompleted = true := by
    have hne : i ≠ e := by
      rintro rfl
      exact (List.nodup_cons.1 hnd).1 (List.mem_append_left _ hi)
    rw [← isCompleted_bodies, hbodies, update_of_ne hne, isCompleted_bodies]
    exact hdone
  rw [he]
  cases fresh with
  | nil =>
    obtain rfl : recycled = e :: a :: free := hfree
    refine ⟨[], a :: free, _, ⟨hq', ?_, ?_⟩, hmem, heio, hbodies⟩
    · intro i hi
      exact hcompleted hi (h.spent i (List.mem_cons_of_mem _ hi))
    · simp only [hmem]
      rcases h.cursor with hc | hc | hc
      · exact .inl hc
      · rcases List.mem_cons.1 hc with hc | hc
        · exact .inr (.inr (.inl hc))
        · exact .inr (.inl hc)
      · exact .inr (.inr (.inr hc))
  | cons f fresh =>
    obtain ⟨rfl, hrest⟩ : f = e ∧ fresh ++ recycled = a :: free := List.cons.inj hfree
    refine ⟨fresh, recycled, _, ⟨?_, ?_, ?_⟩, hmem, heio, hbodies⟩
    · rw [hrest]
      exact hq'
    · intro i hi
      exact hcompleted (hrest ▸ List.mem_append_right _ hi) (h.spent i hi)
    · simp only [hmem]
      rcases h.cursor with hc | hc | hc
      · exact .inl hc
      · exact .inr (.inl hc)
      · exact .inr (.inr (.inr hc))

theorem tick (h : WorkerOk w curr fresh recycled io) (currNsecs : ℕ) :
    WorkerOk (w.tick currNsecs) curr fresh recycled io :=
  ⟨⟨⟨h.queues.freeChain, h.queues.freeEnd, h.queues.ioChain, h.queues.ioBack⟩, h.queues.perm⟩,
    h.spent, h.cursor⟩

theorem mark (h : WorkerOk w curr fresh recycled io) (hi : i ∈ io) {x : IoWork}
    (hnext : x.next = (w.workQueue i).next) (hprev : x.prev = (w.workQueue i).prev) :
    WorkerOk (w.set i x) curr fresh recycled io := by
  refine ⟨h.queues.mark hnext hprev, ?_, h.cursor⟩
  intro j hj
  have hne : j ≠ i := by
    rintro rfl
    exact h.queues.disjoint (List.mem_append_right _ hj) hi
  simp only [IoWorker.workQueue_set, update_of_ne hne]
  exact h.spent j hj

end WorkerOk

/-! ## All of them -/

theorem IoJob.carriedBy_body (job : IoJob) (w : IoWork) : job.CarriedBy w.body ↔ job.CarriedBy w := by
  cases job <;> rfl

theorem IoJob.carriedBy_fill (job : IoJob) (x : IoWork) (clock : ℕ) :
    job.CarriedBy (job.fill x clock) := by
  cases job <;> simp [IoJob.CarriedBy, IoJob.fill]

/-- The invariant of the pool. -/
structure PoolInv (s : Pool) : Prop where
  workers : ∀ wid < s.nrIoWorkers, ∃ fresh recycled io,
    WorkerOk (s.ioWorkers wid) (s.curr wid) fresh recycled io
  ledger : Balanced (fun w job => IoJob.CarriedBy w job) s.tag s.entry s.jobs s.done s.Holds

theorem poolInv_init (n : ℕ) : PoolInv (Pool.init n) where
  workers := fun wid _ => ⟨_, _, _, workerOk_init wid⟩
  ledger := by
    refine (Balanced.empty _ _ (Pool.init n).entry).congr ?_ fun _ _ h => h.elim
    rintro ⟨wid, i⟩
    constructor
    · rintro ⟨-, hpending, -⟩
      simp [Pool.init, (queues_init wid).pending_iff] at hpending
    · exact False.elim

theorem PoolInv.served (h : PoolInv s) {job : IoJob} (ht : s.jobs[t]? = some job) :
    s.Served t job := by
  rcases h.ledger.kept t job ht with ⟨p, hp, rfl⟩ | ⟨w, hw, hcarried⟩
  · obtain ⟨job', hjob', hcarried⟩ := h.ledger.held p hp
    obtain rfl : job' = job := Option.some.inj (hjob'.symm.trans ht)
    exact .inl ⟨p, hp, rfl, hcarried, h.ledger.unsettled p hp⟩
  · exact .inr ⟨w, hw, hcarried⟩

/-- A step that changes one worker. -/
structure Pool.Changes (s s' : Pool) (wid : ℕ) : Prop where
  nrIoWorkers : s'.nrIoWorkers = s.nrIoWorkers
  ioWorkers : ∀ wid' ≠ wid, s'.ioWorkers wid' = s.ioWorkers wid'
  curr : ∀ wid' ≠ wid, s'.curr wid' = s.curr wid'

namespace Pool.Changes

theorem workers (h : s.Changes s' wid) (hs : PoolInv s)
    (hworker : ∃ fresh recycled io, WorkerOk (s'.ioWorkers wid) (s'.curr wid) fresh recycled io) :
    ∀ wid' < s'.nrIoWorkers, ∃ fresh recycled io,
      WorkerOk (s'.ioWorkers wid') (s'.curr wid') fresh recycled io := by
  intro wid' hwid'
  by_cases heq : wid' = wid
  · rw [heq]
    exact hworker
  · rw [h.ioWorkers wid' heq, h.curr wid' heq]
    exact hs.workers wid' (h.nrIoWorkers ▸ hwid')

/-- The entries of the worker that the worker has yet to complete stay the same. -/
theorem holds (h : s.Changes s' wid)
    (hlive : ∀ i, (s'.ioWorkers wid).Live i ↔ (s.ioWorkers wid).Live i) (p : ℕ × ℕ) :
    s'.Holds p ↔ s.Holds p := by
  unfold Pool.Holds
  rw [h.nrIoWorkers]
  by_cases heq : p.1 = wid
  · rw [heq, hlive]
  · rw [h.ioWorkers _ heq]

/-- So do the jobs they carry. -/
theorem carried (h : s.Changes s' wid)
    (hlive : ∀ i (job : IoJob), (s.ioWorkers wid).Live i → job.CarriedBy ((s.ioWorkers wid).workQueue i) →
      job.CarriedBy ((s'.ioWorkers wid).workQueue i)) (p : ℕ × ℕ) (job : IoJob) (hp : s.Holds p)
    (hjob : job.CarriedBy (s.entry p)) : job.CarriedBy (s'.entry p) := by
  unfold Pool.entry at hjob ⊢
  by_cases heq : p.1 = wid
  · rw [heq] at hjob ⊢
    exact hlive p.2 job (heq ▸ hp.2) hjob
  · rwa [h.ioWorkers _ heq]

end Pool.Changes

/-- A step that keeps what the workers have yet to complete. -/
theorem PoolInv.step (hs : PoolInv s) (h : s.Changes s' wid) (hjobs : s'.jobs = s.jobs)
    (htag : s'.tag = s.tag) (hdone : s'.done = s.done)
    (hworker : ∃ fresh recycled io, WorkerOk (s'.ioWorkers wid) (s'.curr wid) fresh recycled io)
    (hlive : ∀ i, (s'.ioWorkers wid).Live i ↔ (s.ioWorkers wid).Live i)
    (hcarried : ∀ i (job : IoJob), job.CarriedBy ((s.ioWorkers wid).workQueue i) →
      job.CarriedBy ((s'.ioWorkers wid).workQueue i)) : PoolInv s' := by
  refine ⟨h.workers hs hworker, ?_⟩
  rw [hjobs, htag, hdone]
  exact hs.ledger.congr (h.holds hlive) (h.carried fun i job _ => hcarried i job)

theorem carriedBy_of_bodies {q q' : ℕ → IoWork} (h : bodies q' i = bodies q i) {job : IoJob}
    (hjob : job.CarriedBy (q i)) : job.CarriedBy (q' i) := by
  rw [← IoJob.carriedBy_body] at hjob ⊢
  rw [show (q' i).body = (q i).body from h]
  exact hjob

theorem WorkerOk.live_iff (h : WorkerOk w curr fresh recycled io) :
    w.Live i ↔ i ∈ io ∧ (w.workQueue i).isCompleted = false := by
  rw [IoWorker.Live, h.queues.pending_iff]

/-- The cursor of a worker moves. -/
theorem PoolInv.move (hs : PoolInv s) (hwid : wid < s.nrIoWorkers) (c : ℕ)
    (hmove : ∀ fresh recycled io, WorkerOk (s.ioWorkers wid) (s.curr wid) fresh recycled io →
      WorkerOk (s.ioWorkers wid) c fresh recycled io) :
    PoolInv { s with curr := update s.curr wid c } := by
  obtain ⟨fresh, recycled, io, hok⟩ := hs.workers wid hwid
  refine hs.step ⟨rfl, fun _ _ => rfl, fun wid' hne => update_of_ne hne _ _⟩ rfl rfl rfl
    ⟨fresh, recycled, io, ?_⟩ (fun _ => Iff.rfl) (fun _ _ => id)
  simp only [update_self]
  exact hmove fresh recycled io hok

theorem PoolInv.reclaim (hs : PoolInv s) (hwid : wid < s.nrIoWorkers) :
    PoolInv (s.setWorker wid (s.ioWorkers wid).reclaimCompletedReqs) := by
  obtain ⟨fresh, recycled, io, hok⟩ := hs.workers wid hwid
  obtain ⟨done, rest, rfl, hok', hbodies, hdone⟩ := hok.reclaim
  refine hs.step ⟨rfl, fun wid' hne => update_of_ne hne _ _, fun _ _ => rfl⟩ rfl rfl rfl
    ⟨fresh, recycled ++ done, rest, ?_⟩ ?_ ?_
  · simpa [Pool.setWorker] using hok'
  · intro i
    simp only [Pool.setWorker, update_self]
    rw [hok'.live_iff, hok.live_iff, ← isCompleted_bodies, hbodies, isCompleted_bodies]
    constructor
    · rintro ⟨hi, hlive⟩
      exact ⟨List.mem_append_right _ hi, hlive⟩
    · rintro ⟨hi, hlive⟩
      rcases List.mem_append.1 hi with hi | hi
      · rw [hdone i hi] at hlive
        cases hlive
      · exact ⟨hi, hlive⟩
  · intro i job hjob
    simp only [Pool.setWorker, update_self]
    exact carriedBy_of_bodies (congrFun hbodies i) hjob

theorem PoolInv.enqueue (hs : PoolInv s) (hnr : 0 < s.nrIoWorkers) (clock : ℕ) (job : IoJob)
    (hroom : PoolRoom s (.enqueue clock job)) : PoolInv (s.enqueue clock job) := by
  have hwid : s.workerOf job < s.nrIoWorkers := Nat.mod_lt _ hnr
  generalize hw : s.workerOf job = wid at hwid
  obtain ⟨fresh, recycled, io, hok⟩ := hs.workers wid hwid
  simp only [PoolRoom, hw] at hroom
  obtain ⟨fresh', recycled', io', hok', hmem, hnot, hbodies⟩ := hok.enqueue clock job hroom
  have halloc : (s.ioWorkers wid).allocateWorkQueueEntry =
      some ((s.ioWorkers wid).freeSeq, { s.ioWorkers wid with
        freeSeq := ((s.ioWorkers wid).workQueue (s.ioWorkers wid).freeSeq).next }) := by
    rw [IoWorker.allocateWorkQueueEntry, if_neg (Nat.not_le.2 hroom)]
  have hs' : s.enqueue clock job = { s.setWorker wid ((s.ioWorkers wid).enqueue clock job) with
      jobs := s.jobs ++ [job]
      tag := update s.tag (wid, (s.ioWorkers wid).freeSeq) s.jobs.length } := by
    rw [Pool.enqueue, hw]
    simp only [halloc]
  generalize he : (s.ioWorkers wid).freeSeq = e at hs' hmem hnot hbodies
  have hchanges : s.Changes (s.enqueue clock job) wid := by
    rw [hs']
    exact ⟨rfl, fun wid' hne => update_of_ne hne _ _, fun _ _ => rfl⟩
  have hworker : (s.enqueue clock job).ioWorkers wid = (s.ioWorkers wid).enqueue clock job := by
    rw [hs']
    exact update_self _ _ _
  have hcarried : job.CarriedBy (((s.ioWorkers wid).enqueue clock job).workQueue e) := by
    rw [← IoJob.carriedBy_body]
    rw [show (((s.ioWorkers wid).enqueue clock job).workQueue e).body = _ from congrFun hbodies e,
      update_self, IoJob.carriedBy_body]
    exact job.carriedBy_fill _ _
  have hfree : ¬ s.Holds (wid, e) := by
    rintro ⟨-, hlive⟩
    exact hnot (hok.live_iff.1 hlive).1
  have hbody {i : ℕ} (hi : i ≠ e) :
      bodies ((s.ioWorkers wid).enqueue clock job).workQueue i = bodies (s.ioWorkers wid).workQueue i := by
    rw [hbodies, update_of_ne hi]
  have hissued := (hs.ledger.congr (fun _ => Iff.rfl) (hchanges.carried ?_)).issue hfree
    (b := job) (by rw [Pool.entry, hworker]; exact hcarried)
  · refine ⟨hchanges.workers hs ⟨fresh', recycled', io', ?_⟩, ?_⟩
    · rw [hworker, show (s.enqueue clock job).curr = s.curr by rw [hs']; rfl]
      exact hok'
    · rw [show (s.enqueue clock job).tag = _ by rw [hs'], show (s.enqueue clock job).jobs = _ by rw [hs'],
        show (s.enqueue clock job).done = s.done by rw [hs']; rfl]
      refine hissued.congr ?_ fun _ _ _ => id
      rintro ⟨wid', i⟩
      unfold Pool.Holds
      rw [hchanges.nrIoWorkers]
      by_cases heq : wid' = wid
      · subst heq
        rw [hworker, hok'.live_iff, hok.live_iff, hmem, ← isCompleted_bodies]
        by_cases hi : i = e
        · subst hi
          rw [hbodies, update_self]
          have hnew : (job.fill ((s.ioWorkers wid').workQueue i) clock).body.isCompleted = false := by
            cases job <;> rfl
          simp [hnew, hwid]
        · rw [hbody hi, isCompleted_bodies]
          simp [hi]
      · rw [hchanges.ioWorkers _ heq]
        simp [heq]
  · intro i job' hlive hjob'
    rw [hworker]
    refine carriedBy_of_bodies (hbody ?_) hjob'
    rintro rfl
    exact hnot (hok.live_iff.1 hlive).1

/-- The entry under the cursor has been copied. -/
private theorem WorkerOk.copy (h : WorkerOk w curr fresh recycled io) (hi : i ∈ io)
    (hlive : (w.workQueue i).isCompleted = false) :
    ∃ w' : IoWorker, (if (w.workQueue i).isCopied = false then w.copied i else w) = w' ∧
      WorkerOk w' curr fresh recycled io ∧
      (∀ j, (w'.workQueue j).isCompleted = (w.workQueue j).isCompleted) ∧
      (∀ j (job : IoJob), job.CarriedBy (w.workQueue j) → job.CarriedBy (w'.workQueue j)) := by
  refine ⟨_, rfl, ?_⟩
  split
  · refine ⟨h.mark hi rfl rfl, ?_, ?_⟩
    · intro j
      simp only [IoWorker.copied, IoWorker.workQueue_set, update_apply]
      split <;> simp [*]
    · intro j job hjob
      simp only [IoWorker.copied, IoWorker.workQueue_set, update_apply]
      split
      · rename_i hji
        subst hji
        cases job <;> exact hjob
      · exact hjob
  · exact ⟨h, fun _ => rfl, fun _ _ => id⟩

/-- A worker is done with the entry under its cursor. -/
private theorem PoolInv.complete (hs : PoolInv (s.setWorker wid w)) (hwid : wid < s.nrIoWorkers)
    (hok : WorkerOk w (s.curr wid) fresh recycled io) (hi : i ∈ io)
    (hlive : (w.workQueue i).isCompleted = false) :
    PoolInv { s.setWorker wid (w.completed i) with
      done := s.done ++ [(s.tag (wid, i), w.workQueue i)] } := by
  have hok' : WorkerOk (w.completed i) (s.curr wid) fresh recycled io := hok.mark hi rfl rfl
  have hworker : (s.setWorker wid w).ioWorkers wid = w := update_self _ _ _
  have hheld : (s.setWorker wid w).Holds (wid, i) := by
    refine ⟨hwid, ?_⟩
    rw [hworker, hok.live_iff]
    exact ⟨hi, hlive⟩
  have hsettled := hs.ledger.settle hheld
  rw [show (s.setWorker wid w).entry (wid, i) = w.workQueue i by rw [Pool.entry, hworker]] at hsettled
  have hcompleted (j : ℕ) : ((w.completed i).workQueue j).isCompleted = false ↔
      (w.workQueue j).isCompleted = false ∧ j ≠ i := by
    simp only [IoWorker.completed, IoWorker.workQueue_set, update_apply]
    split <;> simp [*]
  have hchanges : (s.setWorker wid w).Changes { s.setWorker wid (w.completed i) with
      done := s.done ++ [(s.tag (wid, i), w.workQueue i)] } wid :=
    ⟨rfl, fun wid' hne => by simp [Pool.setWorker, update_of_ne hne], fun _ _ => rfl⟩
  refine ⟨hchanges.workers hs ⟨fresh, recycled, io, ?_⟩, hsettled.congr ?_ ?_⟩
  · simpa [Pool.setWorker] using hok'
  · rintro ⟨wid', j⟩
    by_cases heq : wid' = wid
    · subst heq
      simp only [Pool.Holds, Pool.setWorker, update_self, hok'.live_iff, hok.live_iff, hcompleted]
      simp [and_assoc]
    · simp [Pool.Holds, Pool.setWorker, heq]
  · rintro ⟨wid', j⟩ job - hjob
    by_cases heq : wid' = wid
    · subst heq
      simp only [Pool.entry, Pool.setWorker, update_self] at hjob ⊢
      simp only [IoWorker.completed, IoWorker.workQueue_set, update_apply]
      split
      · rename_i hji
        subst hji
        cases job <;> exact hjob
      · exact hjob
    · simpa [Pool.entry, Pool.setWorker, update_of_ne heq] using hjob

theorem PoolInv.visit (hs : PoolInv s) (hwid : wid < s.nrIoWorkers) (currNsecs : ℕ) :
    PoolInv (s.visit wid currNsecs) := by
  obtain ⟨fresh, recycled, io, hok⟩ := hs.workers wid hwid
  have htick := hok.tick currNsecs
  unfold Pool.visit
  dsimp only
  split
  · exact hs
  · rename_i hnil
    split
    · refine hs.step ⟨rfl, fun wid' hne => update_of_ne hne _ _, fun _ _ => rfl⟩ rfl rfl rfl
        ⟨fresh, recycled, io, ?_⟩ ?_ ?_
      · simpa [Pool.setWorker] using htick
      · intro i
        simp only [Pool.setWorker, update_self]
        exact Iff.rfl
      · intro i job hjob
        simp only [Pool.setWorker, update_self]
        exact hjob
    · rename_i hdone
      have hdone' : (((s.ioWorkers wid).tick currNsecs).workQueue (s.curr wid)).isCompleted = false :=
        Bool.eq_false_iff.2 hdone
      have hmem := htick.curr_mem hnil hdone'
      obtain ⟨w', hw', hok', hcompleted, hcarried⟩ := htick.copy hmem hdone'
      rw [hw']
      have hlive' (i : ℕ) : w'.Live i ↔ (s.ioWorkers wid).Live i := by
        rw [hok'.live_iff, hok.live_iff, hcompleted]
        exact Iff.rfl
      have hs' : PoolInv (s.setWorker wid w') := by
        refine hs.step ⟨rfl, fun wid' hne => update_of_ne hne _ _, fun _ _ => rfl⟩ rfl rfl rfl
          ⟨fresh, recycled, io, ?_⟩ ?_ ?_
        · simpa [Pool.setWorker] using hok'
        · simpa [Pool.setWorker] using hlive'
        · intro i job hjob
          simp only [Pool.setWorker, update_self]
          exact hcarried i job hjob
      split
      · exact hs'.complete hwid hok' hmem ((hcompleted _).trans hdone')
      · exact hs'

theorem PoolInv.act (hs : PoolInv s) (h : wid < s.nrIoWorkers → PoolInv s') : PoolInv (s.act wid s') := by
  unfold Pool.act
  split
  · exact h ‹_›
  · exact hs

theorem poolInv_step (n : ℕ) (hn : 0 < n) (s : Pool) (e : PoolEvent)
    (h : PoolInv s ∧ s.nrIoWorkers = n) (hroom : PoolRoom s e) :
    Sat (fun _ => False) (fun s' => PoolInv s' ∧ s'.nrIoWorkers = n) (pool.step s e) := by
  obtain ⟨hs, rfl⟩ := h
  cases e with
  | enqueue clock job => exact ⟨hs.enqueue hn clock job hroom, rfl⟩
  | reclaim wid => exact ⟨hs.act fun hwid => hs.reclaim hwid, by simp only [Pool.act]; split <;> rfl⟩
  | start wid =>
    refine ⟨hs.act fun hwid => hs.move hwid _ ?_, by simp only [Pool.act]; split <;> rfl⟩
    intro fresh recycled io hok
    exact hok.start
  | visit wid currNsecs =>
    refine ⟨hs.act fun hwid => hs.visit hwid currNsecs, ?_⟩
    simp only [Pool.act, Pool.visit]
    split_ifs <;> rfl
  | advance wid =>
    refine ⟨hs.act fun hwid => hs.move hwid _ ?_, by simp only [Pool.act]; split <;> rfl⟩
    intro fresh recycled io hok
    split
    · exact ⟨hok.queues, hok.spent, .inl rfl⟩
    · rename_i hnil
      exact hok.advance hnil

end WaitGc

/-
  WAITGC verification — no accepted command and no buffer release is lost.

  `jobs_served`: each job handed to the workers is in an entry of a pending list
  that is not completed, or on its way there in the call that hands it over, or
  was done with exactly once.  The threads interleave access by access.

  Two things are needed for it.  Every job finds an entry: the one that finds
  its worker's pool exhausted is dropped (`jobs_lost`).  And no worker looks at
  an entry between the store of `is_completed` and that of the last field: its
  cursor can be left behind by the reclaimer on an entry that is free again, and
  is filled again.
-/
import WaitGc.Proof.ThreadRuns
import WaitGc.Proof.Undisturbed

namespace WaitGc

open Outcome Function Chain Ledger

variable {s s' : Threads} {w : IoWorker} {v : View} {views : ℕ → View} {task : Option Task} {th : WorkerThread}
  {i t n : ℕ} {job : IoJob}

namespace Threads

/-- The worker has yet to complete the entry. -/
def Holds (s : Threads) (p : ℕ × ℕ) : Prop := p.1 < s.nrIoWorkers ∧ (s.ioWorkers p.1).Live p.2

/-- The job `t` is pending and nothing was done for it, or it was done with exactly
    once. -/
def Served (s : Threads) (t : ℕ) (job : IoJob) : Prop :=
  (∃ p, s.Holds p ∧ s.tag p = t ∧ job.CarriedBy (s.entry p) ∧ notes s.done t = []) ∨
    ∃ w, notes s.done t = [(t, w)] ∧ job.CarriedBy w

/-- The call that hands the job `t` over has filled its entry, and has yet to return. -/
def Inserting (s : Threads) (t : ℕ) (job : IoJob) : Prop :=
  ∃ wid task entry, s.disp = some (wid, task) ∧ task.filled = some entry ∧ s.tag (wid, entry) = t ∧
    job.CarriedBy (s.entry (wid, entry)) ∧ notes s.done t = []

end Threads

/-- A job finds an entry. -/
def HasRoom (s : Threads) : ThreadEvent → Prop
  | .call _ job =>
    let w := s.ioWorkers (s.workerOf job)
    s.disp.isNone = true → (w.workQueue w.freeSeq).next < nrMaxParallelIo
  | _ => True

/-- No worker takes an entry that is being filled for a pending one. -/
def SeesWhole (s : Threads) : ThreadEvent → Prop
  | .turn wid _ => wid < s.nrIoWorkers → ¬ Torn (s.ioWorkers wid) (s.task wid) (s.threads wid)
  | _ => True

def Calm (s : Threads) (e : ThreadEvent) : Prop := HasRoom s e ∧ SeesWhole s e

instance (w : IoWorker) (task : Option Task) (th : WorkerThread) : Decidable (Torn w task th) :=
  inferInstanceAs (Decidable (_ ∧ _ ∧ _))

instance (s : Threads) : ∀ e, Decidable (HasRoom s e)
  | .call _ job => inferInstanceAs (Decidable (s.disp.isNone = true →
      ((s.ioWorkers (s.workerOf job)).workQueue (s.ioWorkers (s.workerOf job)).freeSeq).next < nrMaxParallelIo))
  | .reclaim _ => .isTrue trivial
  | .access => .isTrue trivial
  | .turn _ _ => .isTrue trivial

instance (s : Threads) : ∀ e, Decidable (SeesWhole s e)
  | .turn wid _ => inferInstanceAs (Decidable (wid < s.nrIoWorkers →
      ¬ Torn (s.ioWorkers wid) (s.task wid) (s.threads wid)))
  | .call _ _ => .isTrue trivial
  | .reclaim _ => .isTrue trivial
  | .access => .isTrue trivial

instance (s : Threads) (e : ThreadEvent) : Decidable (Calm s e) := inferInstanceAs (Decidable (_ ∧ _))

/-! ## The theorem -/

theorem WorkerInv.pending (h : WorkerInv w task th v) (hi : i ∈ v.io ∨ task.bind Task.filled = some i) :
    w.Pending i ∨ task.bind Task.filled = some i := by
  refine hi.elim (fun hmem => ?_) .inr
  cases task with
  | none => exact .inl ((show Queues w _ v.io from h.disp).pending_iff.2 hmem)
  | some task =>
    cases task with
    | fill e job clock fields =>
      cases fields with
      | nil =>
        have hapart : Apart w e (v.fresh ++ v.recycled) v.io := h.disp
        exact .inl ⟨v.io, hapart.ioChain, fun hnil => hapart.ne_nil (by simp [hnil]) rfl, hmem⟩
      | cons f fields =>
        obtain ⟨free, hf⟩ := h.disp
        refine .inl ⟨v.io, hf.lists.ioChain, fun hnil => ?_, hmem⟩
        have hlt := List.mem_range.1 (hf.perm.mem_iff.1 (List.mem_cons_of_mem _ (List.mem_append_right _ hnil)))
        exact absurd hlt (by decide)
    | scan e nsecsTarget curr =>
      have hapart : Apart w e (v.fresh ++ v.recycled) v.io := h.disp.1
      exact .inl ⟨v.io, hapart.ioChain, fun hnil => hapart.ne_nil (by simp [hnil]) rfl, hmem⟩
    | link e todo =>
      obtain ⟨-, -, hstays, -⟩ := h.disp
      by_cases hie : i = e
      · exact .inr (hie ▸ rfl)
      · exact .inl (hstays.now ⟨hmem, hie⟩)
    | look first curr last check =>
      have hq : Queues w (v.fresh ++ v.recycled) v.io := h.disp.1
      exact .inl (hq.pending_iff.2 hmem)
    | giveBack todo => exact .inl (h.disp.2.1.now hmem)

theorem Threads.disp_of_task {wid : ℕ} {t : Task} (h : s.task wid = some t) : s.disp = some (wid, t) := by
  cases hdisp : s.disp with
  | none => rw [Threads.task_none hdisp] at h; cases h
  | some p =>
    obtain ⟨wid', t'⟩ := p
    by_cases heq : wid = wid'
    · subst heq
      rw [Threads.task_some hdisp] at h
      rw [Option.some.inj h]
    · rw [Threads.task_other hdisp heq] at h
      cases h

theorem ThreadsInv.served (h : ThreadsInv s views) (ht : s.jobs[t]? = some job) :
    s.Served t job ∨ s.Inserting t job := by
  rcases h.ledger.kept t job ht with ⟨p, hp, rfl⟩ | ⟨w, hw, hcarried⟩
  · obtain ⟨job', hjob', hcarried⟩ := h.ledger.held p hp
    obtain rfl : job' = job := Option.some.inj (hjob'.symm.trans ht)
    have hnone := h.ledger.unsettled p hp
    obtain ⟨hlt, hat, hlive, -⟩ := hp
    rcases (h.workers p.1 hlt).pending hat with hpending | hfilled
    · exact .inl (.inl ⟨p, ⟨hlt, hpending, hlive⟩, rfl, hcarried, hnone⟩)
    · obtain ⟨task, htask, hfilled⟩ := Option.bind_eq_some_iff.1 hfilled
      exact .inr ⟨p.1, task, p.2, Threads.disp_of_task htask, hfilled, rfl, hcarried, hnone⟩
  · exact .inl (.inr ⟨w, hw, hcarried⟩)

theorem threadsInv_step (n : ℕ) (hn : 0 < n) (s : Threads) (e : ThreadEvent)
    (h : (∃ views, ThreadsInv s views) ∧ s.nrIoWorkers = n) (hcalm : Calm s e) :
    Sat (fun _ => False) (fun s' => (∃ views, ThreadsInv s' views) ∧ s'.nrIoWorkers = n) (threads.step s e) := by
  obtain ⟨⟨views, hs⟩, rfl⟩ := h
  cases e with
  | call clock job =>
    simp only [threads, sat_ok]
    split_ifs with hidle
    · refine ⟨hs.call hn (Option.isNone_iff_eq_none.1 hidle) clock job (hcalm.1 hidle), ?_⟩
      unfold Threads.call
      dsimp only
      split <;> rfl
    · exact ⟨⟨views, hs⟩, rfl⟩
  | reclaim wid =>
    simp only [threads, sat_ok]
    split_ifs with hidle
    · exact ⟨hs.reclaim (Option.isNone_iff_eq_none.1 hidle.1) hidle.2, rfl⟩
    · exact ⟨⟨views, hs⟩, rfl⟩
  | access =>
    refine ⟨hs.access, ?_⟩
    unfold Threads.access Threads.note
    split
    · rfl
    · dsimp only
      split <;> rfl
  | turn wid currNsecs =>
    simp only [threads, sat_ok]
    split_ifs with hwid
    · exact ⟨hs.turn hwid (hcalm.2 hwid) currNsecs, rfl⟩
    · exact ⟨⟨views, hs⟩, rfl⟩

/-- **No job is lost and none is done twice, as long as every job finds an entry and no worker
    looks at one that is being filled.** -/
theorem jobs_served {es : List ThreadEvent} (hn : 0 < n) (hcalm : threads.Along Calm (Threads.init n) es)
    (hrun : threads.run (Threads.init n) es = .ok s) (ht : s.jobs[t]? = some job) :
    s.Served t job ∨ s.Inserting t job := by
  obtain ⟨⟨views, hs⟩, -⟩ :=
    (Machine.run_sat (threadsInv_step n hn) ⟨⟨_, threadsInv_init n⟩, rfl⟩ hcalm).of_ok hrun
  exact hs.served ht

/-- A command of the first queue. -/
def firstJob : IoJob := .io 1 1 0 7 0 100 0 0

/-- A release of the first queue. -/
def releaseJob : IoJob := .internal 1 0 0 4096

/-- The completion of the command is posted while the entry of a release is filled. -/
def servedRun : List ThreadEvent :=
  .call 0 firstJob :: List.replicate 19 .access ++ List.replicate 7 (.turn 0 200) ++
    .call 0 releaseJob :: List.replicate 5 .access ++ List.replicate 9 (.turn 0 200) ++
      List.replicate 12 .access

theorem jobs_served_servedRun : ∃ s, threads.run (Threads.init 1) servedRun = .ok s ∧ s.disp = none ∧
    (s.Served 0 firstJob ∨ s.Inserting 0 firstJob) ∧ (s.Served 1 releaseJob ∨ s.Inserting 1 releaseJob) := by
  have hcalm : threads.Along Calm (Threads.init 1) servedRun := by decide +kernel
  have hseen : (threads.run (Threads.init 1) servedRun).map (fun s => (s.disp, s.jobs)) =
      .ok (none, [firstJob, releaseJob]) := by decide +kernel
  obtain ⟨s, hrun, hs⟩ := exists_ok_of_map hseen
  obtain ⟨hdisp, hjobs⟩ := Prod.mk.inj hs
  exact ⟨s, hrun, hdisp, jobs_served Nat.one_pos hcalm hrun (by rw [hjobs]; rfl),
    jobs_served Nat.one_pos hcalm hrun (by rw [hjobs]; rfl)⟩

/-! ## Where it fails -/

theorem along_replicate {C : Threads → ThreadEvent → Prop} {e : ThreadEvent} (hC : ∀ s, C s e) (k : ℕ)
    (s : Threads) : threads.Along C s (List.replicate k e) :=
  (Machine.along_of_forall (C := fun e => ∀ s, C s e) fun _ he => List.eq_of_mem_replicate he ▸ hC).mono
    fun s _ h => h s

theorem Threads.workerOf_eq_zero (hone : s.nrIoWorkers = 1) (job : IoJob) : s.workerOf job = 0 := by
  rw [Threads.workerOf, hone]
  exact Nat.mod_one _

/-- A command is handed to the only worker, which makes no turn meanwhile. -/
private theorem exists_call {free io : List ℕ} (hdisp : s.disp = none) (hone : s.nrIoWorkers = 1)
    (hq : Queues (s.ioWorkers 0) free io) :
    ∃ k s', threads.run s (.call 0 firstJob :: List.replicate k .access) = .ok s' ∧ s'.disp = none ∧
      s'.threads = s.threads ∧ s'.nrIoWorkers = 1 ∧ s'.done = s.done ∧ s'.jobs = s.jobs ++ [firstJob] ∧
      s'.ioWorkers 0 = (s.ioWorkers 0).enqueue 0 firstJob ∧
      s'.tag = match (s.ioWorkers 0).allocateWorkQueueEntry with
        | none => s.tag
        | some (entry, _) => update s.tag (0, entry) s.jobs.length := by
  have hwid := Threads.workerOf_eq_zero hone firstJob
  have hwid' : s.pool.workerOf firstJob = 0 := hwid
  obtain ⟨k, s', hrun, hdisp', hthreads, hpool⟩ := call_undisturbed 0 firstJob hdisp (by rw [hwid]; exact hq)
  refine ⟨k, s', hrun, hdisp', hthreads, (congrArg Pool.nrIoWorkers hpool).trans hone, congrArg Pool.done hpool,
    congrArg Pool.jobs hpool, ?_, ?_⟩
  · rw [show s'.ioWorkers = _ from congrArg Pool.ioWorkers hpool, Pool.enqueue, hwid']
    exact update_self 0 ((s.ioWorkers 0).enqueue 0 firstJob) s.ioWorkers
  · rw [show s'.tag = _ from congrArg Pool.tag hpool, Pool.enqueue, hwid']
    rfl

/-- Commands were put into entries of the only worker, which are now the pending ones `io`; `rest`
    are the free ones, as they were. -/
structure Commanded (s s' : Threads) (commands : ℕ) (rest io : List ℕ) : Prop where
  disp : s'.disp = none
  one : s'.nrIoWorkers = 1
  unmoved : s'.threads = s.threads
  done : s'.done = s.done
  jobs : s'.jobs = s.jobs ++ List.replicate commands firstJob
  queues : Queues (s'.ioWorkers 0) rest io
  tags : ∀ i ∈ io, s'.tag (0, i) < s'.jobs.length
  same : ∀ i ∈ rest, bodies (s'.ioWorkers 0).workQueue i = bodies (s.ioWorkers 0).workQueue i ∧
    s'.tag (0, i) = s.tag (0, i)

/-- A command more. -/
private theorem Commanded.call {s₀ s : Threads} {commands e a : ℕ} {free io : List ℕ}
    (h : Commanded s₀ s commands (e :: a :: free) io) :
    ∃ es s' io', threads.run s es = .ok s' ∧ threads.Along HasRoom s es ∧ threads.Along SeesWhole s es ∧
      Commanded s₀ s' (commands + 1) (a :: free) io' := by
  have hq := h.queues
  obtain ⟨k, s', hrun, hdisp, hthreads, hone, hdone, hjobs, hw, htag⟩ := exists_call h.disp h.one hq
  obtain ⟨halloc, -⟩ := hq.enqueue_eq 0 firstJob
  obtain ⟨pre, post, rfl, hq', hbodies, -⟩ := hq.enqueue 0 firstJob
  rw [halloc] at htag
  dsimp only at htag
  have hroom : threads.Along HasRoom s (.call 0 firstJob :: List.replicate k .access) := by
    refine ⟨fun _ => ?_, fun s' _ => along_replicate (fun _ => trivial) k s'⟩
    rw [Threads.workerOf_eq_zero h.one, hq.freeChain.head,
      show ((s.ioWorkers 0).workQueue e).next = a from hq.freeChain.2.1]
    exact hq.mem_iff.1 (by simp)
  have hwhole : threads.Along SeesWhole s (.call 0 firstJob :: List.replicate k .access) :=
    ⟨trivial, fun s' _ => along_replicate (fun _ => trivial) k s'⟩
  refine ⟨_, s', _, hrun, hroom, hwhole, hdisp, hone, hthreads.trans h.unmoved, hdone.trans h.done, ?_, hw ▸ hq',
    fun i hi => ?_, fun i hi => ?_⟩
  · rw [hjobs, h.jobs, List.replicate_succ', List.append_assoc]
  · rw [htag, hjobs, List.length_append]
    by_cases hie : i = e
    · rw [hie, update_self]
      simp
    · rw [update_of_ne (by simp [hie])]
      refine Nat.lt_add_right _ (h.tags i ?_)
      simp only [List.mem_append, List.mem_cons] at hi ⊢
      tauto
  · have hie : i ≠ e := by
      rintro rfl
      exact (List.nodup_cons.1 hq.nodup).1 (List.mem_append_left _ hi)
    obtain ⟨hbody, htag'⟩ := h.same i (List.mem_cons_of_mem _ hi)
    rw [hw, hbodies, update_of_ne hie, htag, update_of_ne (by simp [hie])]
    exact ⟨hbody, htag'⟩

/-- Commands take the entries `taken` of the only worker, which makes no turn. -/
private theorem Commanded.calls {rest : List ℕ} (hrest : rest ≠ []) : ∀ (taken : List ℕ) {s₀ s : Threads}
    {commands : ℕ} {io : List ℕ}, Commanded s₀ s commands (taken ++ rest) io →
    ∃ es s' io', threads.run s es = .ok s' ∧ threads.Along HasRoom s es ∧ threads.Along SeesWhole s es ∧
      Commanded s₀ s' (commands + taken.length) rest io' := by
  intro taken
  induction taken with
  | nil => exact fun h => ⟨[], _, _, rfl, trivial, trivial, h⟩
  | cons e taken ih =>
    intro s₀ s commands io h
    obtain ⟨a, free, hfree⟩ := List.exists_cons_of_ne_nil (List.append_ne_nil_of_right_ne_nil taken hrest)
    rw [List.cons_append, hfree] at h
    obtain ⟨es, s₁, io₁, hrun, hroom, hwhole, h₁⟩ := h.call
    rw [← hfree] at h₁
    obtain ⟨es', s', io', hrun', hroom', hwhole', h'⟩ := ih h₁
    refine ⟨es ++ es', s', io', (Machine.run_append_ok es' hrun).trans hrun', (Machine.along_append hrun).2
      ⟨hroom, hroom'⟩, (Machine.along_append hrun).2 ⟨hwhole, hwhole'⟩, ?_⟩
    rw [List.length_cons, Nat.add_comm taken.length, ← Nat.add_assoc]
    exact h'

private theorem lost_when_full : ∃ s es, threads.run (Threads.init 1) es = .ok s ∧
    threads.Along SeesWhole (Threads.init 1) es ∧ s.jobs[nrMaxParallelIo - 1]? = some firstJob ∧
      ¬ s.Served (nrMaxParallelIo - 1) firstJob ∧ ¬ s.Inserting (nrMaxParallelIo - 1) firstJob := by
  have hrange : List.range nrMaxParallelIo = List.range (nrMaxParallelIo - 1) ++ [nrMaxParallelIo - 1] :=
    List.range_succ
  have hinit : Commanded (Threads.init 1) (Threads.init 1) 0
      (List.range (nrMaxParallelIo - 1) ++ [nrMaxParallelIo - 1]) [] :=
    ⟨rfl, rfl, rfl, rfl, rfl, hrange ▸ queues_init 0, by simp, fun _ _ => ⟨rfl, rfl⟩⟩
  obtain ⟨es, s, io, hrun, -, hwhole, h⟩ := Commanded.calls (by simp) _ hinit
  rw [Nat.zero_add, List.length_range] at h
  obtain ⟨k, s', hrun', hdisp, -, hone, hdone, hjobs, hw, htag⟩ := exists_call h.disp h.one h.queues
  have halloc : (s.ioWorkers 0).allocateWorkQueueEntry = none := by
    have hnext : ((s.ioWorkers 0).workQueue (nrMaxParallelIo - 1)).next = nil32 := h.queues.freeChain.2
    rw [IoWorker.allocateWorkQueueEntry, h.queues.freeChain.head, hnext, if_pos (by decide)]
  rw [h.queues.enqueue_full] at hw
  rw [halloc] at htag
  dsimp only at htag
  refine ⟨s', _, (Machine.run_append_ok _ hrun).trans hrun', (Machine.along_append hrun).2 ⟨hwhole, trivial,
    fun s' _ => along_replicate (fun _ => trivial) k s'⟩, ?_, ?_, ?_⟩
  · rw [hjobs, h.jobs, show (Threads.init 1).jobs = [] from rfl, List.nil_append,
      List.getElem?_append_right (by simp), List.length_replicate, Nat.sub_self]
    rfl
  · rintro (⟨⟨wid, i⟩, ⟨hlt, hpending, -⟩, ht, -, -⟩ | ⟨w, hnotes, -⟩)
    · obtain rfl : wid = 0 := by omega
      dsimp only at hpending ht
      rw [hw] at hpending
      rw [htag] at ht
      have hlt := h.tags i (h.queues.pending_iff.1 hpending)
      rw [ht, h.jobs, List.length_append, List.length_replicate] at hlt
      exact absurd hlt (by simp [Threads.init])
    · rw [hdone, h.done] at hnotes
      cases hnotes
  · rintro ⟨wid, task, entry, hbusy, -⟩
    rw [hdisp] at hbusy
    cases hbusy

/-- The first two entries hold releases, which are done with and reclaimed while the worker is about
    to look at the first of them once more. -/
def releasedRun : List ThreadEvent :=
  .call 0 releaseJob :: List.replicate 15 .access ++ .call 0 releaseJob :: List.replicate 17 .access ++
    List.replicate 24 (.turn 0 200) ++ .reclaim 0 :: List.replicate 13 .access

/-- What the free list is then: it ends with the two entries. -/
private theorem exists_released : ∃ s pre, threads.run (Threads.init 1) releasedRun = .ok s ∧
    threads.Along HasRoom (Threads.init 1) releasedRun ∧ Queues (s.ioWorkers 0) (pre ++ [0, 1]) [] ∧
    s.disp = none ∧ s.nrIoWorkers = 1 ∧ s.jobs = [releaseJob, releaseJob] ∧ s.done.map Prod.fst = [0, 1] ∧
    s.tag (0, 0) = 0 ∧ (s.threads 0).pc = .isCompleted ∧ (s.threads 0).curr = 0 ∧ (s.threads 0).currNsecs = 200 ∧
    ((s.ioWorkers 0).workQueue 0).isCopied = true ∧ ((s.ioWorkers 0).workQueue 0).isInternal = true := by
  have hcalm : threads.Along Calm (Threads.init 1) releasedRun := by decide +kernel
  have hseen : (threads.run (Threads.init 1) releasedRun).map (fun s =>
      (s.disp, s.nrIoWorkers, s.jobs, s.done.map Prod.fst, s.tag (0, 0))) =
        .ok (none, 1, [releaseJob, releaseJob], [0, 1], 0) := by decide +kernel
  have hthread : (threads.run (Threads.init 1) releasedRun).map (fun s =>
      ((s.threads 0).pc, (s.threads 0).curr, (s.threads 0).currNsecs)) = .ok (.isCompleted, 0, 200) := by
    decide +kernel
  have hmarks : (threads.run (Threads.init 1) releasedRun).map (fun s =>
      (((s.ioWorkers 0).workQueue 0).isCopied, ((s.ioWorkers 0).workQueue 0).isInternal)) = .ok (true, true) := by
    decide +kernel
  have hlinks : (threads.run (Threads.init 1) releasedRun).map (fun s => ((s.ioWorkers 0).ioSeq,
      ((s.ioWorkers 0).workQueue 0).next, ((s.ioWorkers 0).workQueue 1).next)) = .ok (nil32, 1, nil32) := by
    decide +kernel
  obtain ⟨s, hrun, hs⟩ := exists_ok_of_map hseen
  rw [hrun] at hthread hmarks hlinks
  simp only [Except.map, Except.ok.injEq, Prod.mk.injEq] at hs hthread hmarks hlinks
  obtain ⟨hdisp, hone, hjobs, hdone, htag⟩ := hs
  obtain ⟨hpc, hcurr, hclock⟩ := hthread
  obtain ⟨hcopied, hinternal⟩ := hmarks
  obtain ⟨hhead, hnext, hend⟩ := hlinks
  obtain ⟨⟨views, hinv⟩, -⟩ :=
    (Machine.run_sat (threadsInv_step 1 Nat.one_pos) ⟨⟨_, threadsInv_init 1⟩, rfl⟩ hcalm).of_ok hrun
  have hq : Queues (s.ioWorkers 0) ((views 0).fresh ++ (views 0).recycled) (views 0).io := by
    have hdisp' := (hinv.workers 0 (by omega)).disp
    rw [Threads.task_none hdisp] at hdisp'
    exact hdisp'
  generalize (views 0).fresh ++ (views 0).recycled = free at hq
  have hio : (views 0).io = [] := by
    have hchain := hq.ioChain
    rw [hhead] at hchain
    exact hchain.eq_nil fun hmem => hq.ne_nil (.inr hmem) rfl
  rw [hio] at hq
  obtain ⟨pre, post, rfl⟩ := List.append_of_mem ((hq.mem_iff (i := 0)).2 (by decide) |>.resolve_right (by simp))
  obtain ⟨m, -, hchain⟩ := linked_append.1 hq.freeChain
  have hpost : post = [1] := by
    cases post with
    | nil =>
      have h1 : ((s.ioWorkers 0).workQueue 0).next = nil32 := hchain.2
      rw [hnext] at h1
      exact absurd h1 (by decide)
    | cons a post =>
      have ha : ((s.ioWorkers 0).workQueue 0).next = a := hchain.2.1
      rw [hnext] at ha
      subst ha
      have hrest : Linked (nexts (s.ioWorkers 0).workQueue) (((s.ioWorkers 0).workQueue 1).next) post nil32 :=
        hchain.2.2
      rw [hend] at hrest
      rw [hrest.eq_nil fun hmem => hq.ne_nil (.inl (by simp [hmem])) rfl]
  subst hpost
  exact ⟨s, pre, hrun, hcalm.mono fun _ _ h => h.1, hq, hdisp, hone, hjobs, hdone, htag, hpc, hcurr, hclock,
    hcopied, hinternal⟩

/-- A worker that finds an entry due, and takes it for a release. -/
private theorem exists_turns (hn : 0 < s.nrIoWorkers) (hpc : (s.threads 0).pc = .isCompleted)
    (hlive : ((s.ioWorkers 0).workQueue (s.threads 0).curr).isCompleted = false)
    (hcopied : ((s.ioWorkers 0).workQueue (s.threads 0).curr).isCopied = true)
    (hdue : ((s.ioWorkers 0).workQueue (s.threads 0).curr).nsecsTarget ≤ (s.threads 0).currNsecs)
    (hinternal : ((s.ioWorkers 0).workQueue (s.threads 0).curr).isInternal = true) :
    (threads.run s (List.replicate 7 (.turn 0 200))).map (fun s => (s.jobs, s.done.map Prod.fst)) =
      .ok (s.jobs, s.done.map Prod.fst ++ [s.tag (0, (s.threads 0).curr)]) := by
  generalize hth : s.threads 0 = th at *
  obtain ⟨pc, curr, clock, seen⟩ := th
  dsimp only at hpc hlive hcopied hdue hinternal ⊢
  subst hpc
  simp [List.replicate, Machine.run, threads, Threads.turn, hn, WorkerThread.step, hth, hlive, hcopied, hdue,
    hinternal, loads, Except.map]

/-- A command that is due at once. -/
def lastJob : IoJob := .io 1 1 0 8 0 0 0 0

/-- The fields of a command are stored in the first of the entries, up to `is_completed`. -/
private theorem exists_half_filled {io : List ℕ} (hdisp : s.disp = none) (hone : s.nrIoWorkers = 1)
    (hq : Queues (s.ioWorkers 0) [0, 1] io) :
    ∃ s', threads.run s (.call 0 lastJob :: List.replicate 11 .access) = .ok s' ∧ s'.nrIoWorkers = 1 ∧
      s'.threads = s.threads ∧ s'.jobs = s.jobs ∧ s'.done = s.done ∧ s'.tag = s.tag ∧
      (s'.ioWorkers 0).workQueue 0 = (lastJob.fields.take 11).foldl (fun y f => f.copy (lastJob.values 0) y)
        ((s.ioWorkers 0).workQueue 0) := by
  obtain ⟨halloc, -⟩ := hq.enqueue_eq 0 lastJob
  have hwid := Threads.workerOf_eq_zero hone lastJob
  obtain ⟨s₁, hs₁⟩ : ∃ s₁, s₁ = { s with
      ioWorkers := update s.ioWorkers 0 { s.ioWorkers 0 with freeSeq := 1 }
      disp := some (0, .fill 0 lastJob 0 (lastJob.fields.take 11 ++ lastJob.fields.drop 11)) } := ⟨_, rfl⟩
  have hcall : threads.step s (.call 0 lastJob) = .ok s₁ := by
    simp only [threads, hdisp, Option.isNone_none, if_true, Threads.call, hwid, halloc, hs₁, List.take_append_drop]
  have hfill := run_stores (s := s₁) (congrArg Threads.disp hs₁) (by decide)
  refine ⟨_, (Machine.run_cons _ _ _).trans ((congrArg (· >>= _) hcall).trans hfill), ?_, ?_, ?_, ?_, ?_, ?_⟩
  · rw [hs₁]
    exact hone
  · rw [hs₁]
  · rw [hs₁]
  · rw [hs₁]
  · rw [hs₁]
  · simp only [hs₁, update_self, IoWorker.workQueue_set]

/-- The worker finds the first entry not completed while it is filled, and releases the buffers of the
    first job again. -/
private theorem released_twice : ∃ s es, threads.run (Threads.init 1) es = .ok s ∧
    threads.Along HasRoom (Threads.init 1) es ∧ s.jobs[0]? = some releaseJob ∧
      ¬ s.Served 0 releaseJob ∧ ¬ s.Inserting 0 releaseJob := by
  obtain ⟨s₁, pre, hrun₁, hroom₁, hq₁, hdisp₁, hone₁, hjobs₁, hdone₁, htag₁, hpc₁, hcurr₁, hclock₁, hcopied₁,
    hinternal₁⟩ := exists_released
  have hinit : Commanded s₁ s₁ 0 (pre ++ [0, 1]) [] :=
    ⟨hdisp₁, hone₁, rfl, rfl, by simp, hq₁, by simp, fun _ _ => ⟨rfl, rfl⟩⟩
  obtain ⟨es₂, s₂, io, hrun₂, hroom₂, -, h⟩ := Commanded.calls (by simp) pre hinit
  obtain ⟨hbody, htag⟩ := h.same 0 (by simp)
  have hcopied : ((s₂.ioWorkers 0).workQueue 0).isCopied = true :=
    (congrArg IoWork.isCopied hbody).trans hcopied₁
  have hinternal : ((s₂.ioWorkers 0).workQueue 0).isInternal = true :=
    (congrArg IoWork.isInternal hbody).trans hinternal₁
  obtain ⟨s₃, hrun₃, hone₃, hthreads₃, hjobs₃, hdone₃, htag₃, hentry⟩ := exists_half_filled h.disp h.one h.queues
  have hthread : s₃.threads 0 = s₁.threads 0 := congrFun (hthreads₃.trans h.unmoved) 0
  have hcurr : (s₃.threads 0).curr = 0 := by rw [hthread, hcurr₁]
  have hturns := exists_turns (s := s₃) (by omega) (by rw [hthread, hpc₁]) (by rw [hcurr, hentry]; rfl)
    (by rw [hcurr, hentry]; exact hcopied) (by rw [hcurr, hentry]; exact Nat.zero_le _)
    (by rw [hcurr, hentry]; exact hinternal)
  obtain ⟨s, hrun₄, hs⟩ := exists_ok_of_map hturns
  obtain ⟨hjobs, hdone⟩ := Prod.mk.inj hs
  rw [hcurr, htag₃, htag, htag₁, hdone₃, h.done, hdone₁] at hdone
  have hnotes : (notes s.done 0).length = 2 := by
    rw [length_notes, hdone]
    rfl
  have hroom₃ : threads.Along HasRoom s₂ (.call 0 lastJob :: List.replicate 11 .access) := by
    refine ⟨fun _ => ?_, fun s' _ => along_replicate (fun _ => trivial) 11 s'⟩
    rw [Threads.workerOf_eq_zero h.one, h.queues.freeChain.head,
      show ((s₂.ioWorkers 0).workQueue 0).next = 1 from h.queues.freeChain.2.1]
    decide
  have hroom₄ : threads.Along HasRoom s₃ (List.replicate 7 (.turn 0 200)) :=
    along_replicate (fun _ => trivial) 7 s₃
  refine ⟨s, _, (Machine.run_append_ok _ hrun₁).trans ((Machine.run_append_ok _ hrun₂).trans
    ((Machine.run_append_ok _ hrun₃).trans hrun₄)), (Machine.along_append hrun₁).2 ⟨hroom₁,
      (Machine.along_append hrun₂).2 ⟨hroom₂, (Machine.along_append hrun₃).2 ⟨hroom₃, hroom₄⟩⟩⟩, ?_, ?_, ?_⟩
  · rw [hjobs, hjobs₃, h.jobs, hjobs₁]
    rfl
  · rintro (⟨-, -, -, -, hnone⟩ | ⟨w, hw, -⟩)
    · rw [hnone] at hnotes
      cases hnotes
    · rw [hw] at hnotes
      cases hnotes
  · rintro ⟨-, -, -, -, -, -, -, hnone⟩
    rw [hnone] at hnotes
    cases hnotes

/-- The command that finds the pool of its worker exhausted is lost; and where every job finds an
    entry, a worker that takes an entry for pending while it is filled releases buffers twice. -/
theorem jobs_lost :
    (¬ ∀ (n : ℕ) (s : Threads) (es : List ThreadEvent) (t : ℕ) (job : IoJob), 0 < n →
      threads.Along SeesWhole (Threads.init n) es → threads.run (Threads.init n) es = .ok s →
        s.jobs[t]? = some job → s.Served t job ∨ s.Inserting t job) ∧
    ¬ ∀ (n : ℕ) (s : Threads) (es : List ThreadEvent) (t : ℕ) (job : IoJob), 0 < n →
      threads.Along HasRoom (Threads.init n) es → threads.run (Threads.init n) es = .ok s →
        s.jobs[t]? = some job → s.Served t job ∨ s.Inserting t job := by
  constructor
  · intro h
    obtain ⟨s, es, hrun, hwhole, ht, hserved, hinserting⟩ := lost_when_full
    exact (h 1 s es _ _ Nat.one_pos hwhole hrun ht).elim hserved hinserting
  · intro h
    obtain ⟨s, es, hrun, hroom, ht, hserved, hinserting⟩ := released_twice
    exact (h 1 s es _ _ Nat.one_pos hroom hrun ht).elim hserved hinserting

end WaitGc

/-
  WAITGC verification — the integrity of the work queues.

  `Intact` adds to the two lists of a work queue the order of the pending one:
  by target time, as far as it is not past, and by insertion among equal
  targets.  Every event keeps it, as long as the worker's clock does not run
  backwards.
-/
import WaitGc.Proof.WorkQueue

namespace WaitGc

open Outcome Function Chain

variable {s s' : WorkRun} {free io pre post : List ℕ} {e i : ℕ}

/-- When an entry is due: its target time, unless that is past. -/
def IoWorker.due (w : IoWorker) (i : ℕ) : ℕ := max (w.workQueue i).nsecsTarget w.latestNsecs

/-- The lists of a work queue are intact, and the pending one is in order. -/
structure Intact (s : WorkRun) (free io : List ℕ) : Prop extends Queues s.worker free io where
  sorted : io.Pairwise fun i j => s.worker.due i ≤ s.worker.due j
  stable : io.Pairwise fun i j =>
    (s.worker.workQueue i).nsecsTarget = (s.worker.workQueue j).nsecsTarget → s.stamp i < s.stamp j
  stamps : ∀ i ∈ io, s.stamp i < s.count

/-- The clock of the worker does not run backwards. -/
def ClockRule (s : WorkRun) : WorkEvent → Prop
  | .tick currNsecs => s.worker.latestNsecs ≤ currNsecs
  | _ => True

instance (s : WorkRun) : ∀ e, Decidable (ClockRule s e)
  | .tick currNsecs => inferInstanceAs (Decidable (s.worker.latestNsecs ≤ currNsecs))
  | .enqueue _ _ => .isTrue trivial
  | .reclaim => .isTrue trivial
  | .copied _ => .isTrue trivial
  | .completed _ => .isTrue trivial

/-- The order of a list depends on the targets, and the clock may advance. -/
theorem Intact.of_queues (h : Intact s free io) {w : IoWorker} {free' io' : List ℕ}
    (hq : Queues w free' io') (hsub : io'.Sublist io)
    (htarget : ∀ i, (w.workQueue i).nsecsTarget = (s.worker.workQueue i).nsecsTarget)
    (hclock : s.worker.latestNsecs ≤ w.latestNsecs) :
    Intact { s with worker := w } free' io' := by
  refine ⟨hq, ?_, ?_, fun i hi => h.stamps i (hsub.subset hi)⟩
  · refine (h.sorted.sublist hsub).imp ?_
    intro i j hij
    simp only [IoWorker.due, htarget] at hij ⊢
    omega
  · simpa only [htarget] using h.stable.sublist hsub

private theorem rel_getLast {R : ℕ → ℕ → Prop} {l : List ℕ} {a c : ℕ} (h : l.Pairwise R)
    (ha : a ∈ l) (hc : l.getLast? = some c) : a = c ∨ R a c := by
  obtain ⟨init, rfl⟩ := List.getLast?_eq_some_iff.1 hc
  rcases List.mem_append.1 ha with ha | ha
  · exact .inr ((List.pairwise_append.1 h).2.2 a ha c (by simp))
  · exact .inl (by simpa using ha)

private theorem due_le_of_not_later {w : IoWorker} {t a : ℕ} (h : ¬ w.Later t a) :
    w.due a ≤ max t w.latestNsecs := by
  simp only [IoWorker.Later, nsecsTarget_bodies, IoWorker.due] at h ⊢
  omega

theorem Intact.insert {a : ℕ} (h : Intact s (e :: a :: free) io) (clock : ℕ) (job : IoJob) :
    ∃ free io, Intact ⟨s.worker.enqueue clock job, s.count + 1, update s.stamp e s.count⟩ free io := by
  obtain ⟨pre, post, rfl, hq, hbodies, hlatest, hpost, hpre⟩ := h.toQueues.enqueue clock job
  have he : e ∉ pre ++ post := fun hmem =>
    (List.nodup_cons.1 h.nodup).1 (List.mem_append_right _ hmem)
  have hne {i : ℕ} (hi : i ∈ pre ++ post) : i ≠ e := fun hie => he (hie ▸ hi)
  have htarget {i : ℕ} (hi : i ∈ pre ++ post) :
      ((s.worker.enqueue clock job).workQueue i).nsecsTarget = (s.worker.workQueue i).nsecsTarget := by
    rw [← nsecsTarget_bodies, hbodies, update_of_ne (hne hi), nsecsTarget_bodies]
  have htargete : ((s.worker.enqueue clock job).workQueue e).nsecsTarget = job.nsecsTarget := by
    rw [← nsecsTarget_bodies, hbodies, update_self]
    exact job.nsecsTarget_fill _ _
  have hdue {i : ℕ} (hi : i ∈ pre ++ post) :
      (s.worker.enqueue clock job).due i = s.worker.due i := by
    rw [IoWorker.due, IoWorker.due, htarget hi, hlatest]
  have hduee : (s.worker.enqueue clock job).due e = max job.nsecsTarget s.worker.latestNsecs := by
    rw [IoWorker.due, htargete, hlatest]
  have hstamp {i : ℕ} (hi : i ∈ pre ++ post) : update s.stamp e s.count i = s.stamp i :=
    update_of_ne (hne hi) _ _
  obtain ⟨hsorted, hsorted', hcross⟩ := List.pairwise_append.1 h.sorted
  obtain ⟨hstable, hstable', hscross⟩ := List.pairwise_append.1 h.stable
  have hl {i : ℕ} (hi : i ∈ pre) : i ∈ pre ++ post := List.mem_append_left _ hi
  have hr {i : ℕ} (hi : i ∈ post) : i ∈ pre ++ post := List.mem_append_right _ hi
  refine ⟨a :: free, pre ++ e :: post, hq, ?_, ?_, ?_⟩
  · refine List.pairwise_append.2 ⟨?_, List.pairwise_cons.2 ⟨?_, ?_⟩, ?_⟩
    · refine hsorted.imp_of_mem ?_
      intro i j hi hj hij
      rwa [hdue (hl hi), hdue (hl hj)]
    · intro i hi
      have hlater := hpost i hi
      simp only [IoWorker.Later, nsecsTarget_bodies] at hlater
      rw [hduee, hdue (hr hi), IoWorker.due]
      omega
    · refine hsorted'.imp_of_mem ?_
      intro i j hi hj hij
      rwa [hdue (hr hi), hdue (hr hj)]
    · intro i hi j hj
      rcases List.mem_cons.1 hj with rfl | hj
      · -- every entry before the slot is due no later than the one at it
        obtain ⟨c, hc⟩ : ∃ c, pre.getLast? = some c := by
          cases hlast : pre.getLast? with
          | none => rw [List.getLast?_eq_none_iff.1 hlast] at hi; simp at hi
          | some c => exact ⟨c, rfl⟩
        have hlast := due_le_of_not_later (hpre c hc)
        rw [hdue (hl hi), hduee]
        rcases rel_getLast hsorted hi hc with rfl | hrel
        · exact hlast
        · exact hrel.trans hlast
      · rw [hdue (hl hi), hdue (hr hj)]
        exact hcross i hi j hj
  · refine List.pairwise_append.2 ⟨?_, List.pairwise_cons.2 ⟨?_, ?_⟩, ?_⟩
    · refine hstable.imp_of_mem ?_
      intro i j hi hj hij
      simpa only [htarget (hl hi), htarget (hl hj), hstamp (hl hi), hstamp (hl hj)] using hij
    · intro i hi heq
      have hlater := hpost i hi
      simp only [IoWorker.Later, nsecsTarget_bodies] at hlater
      simp only [htargete, htarget (hr hi)] at heq
      omega
    · refine hstable'.imp_of_mem ?_
      intro i j hi hj hij
      simpa only [htarget (hr hi), htarget (hr hj), hstamp (hr hi), hstamp (hr hj)] using hij
    · intro i hi j hj heq
      rcases List.mem_cons.1 hj with rfl | hj
      · simp only [hstamp (hl hi), update_self]
        exact h.stamps i (hl hi)
      · simp only [htarget (hl hi), htarget (hr hj)] at heq
        simp only [hstamp (hl hi), hstamp (hr hj)]
        exact hscross i hi j hj heq
  · intro i hi
    rcases List.mem_append.1 hi with hi | hi
    · simp only [hstamp (hl hi)]
      exact (h.stamps i (hl hi)).trans (Nat.lt_succ_self _)
    · rcases List.mem_cons.1 hi with rfl | hi
      · simp
      · simp only [hstamp (hr hi)]
        exact (h.stamps i (hr hi)).trans (Nat.lt_succ_self _)

/-- `__enqueue_io_req` and `schedule_internal_operation`, whether there is a free
    entry left or not. -/
theorem Intact.enqueue (h : Intact s free io) (clock : ℕ) (job : IoJob) :
    ∃ free io, Intact (s.enqueue clock job) free io := by
  cases free with
  | nil => exact absurd rfl h.free_ne_nil.1
  | cons e free =>
    have hhead : s.worker.freeSeq = e := h.freeChain.head
    cases free with
    | nil =>
      have hnext : (s.worker.workQueue e).next = nil32 := h.freeChain.2
      have hfull : s.worker.allocateWorkQueueEntry = none := by
        rw [IoWorker.allocateWorkQueueEntry, hhead, hnext, if_pos (by decide)]
      rw [WorkRun.enqueue, hfull, h.enqueue_full]
      exact ⟨[e], io, h⟩
    | cons a free =>
      have hnext : (s.worker.workQueue e).next = a := h.freeChain.2.1
      have hlt : a < nrMaxParallelIo := h.mem_iff.1 (by simp)
      have halloc : s.worker.allocateWorkQueueEntry = some (e, { s.worker with freeSeq := a }) := by
        rw [IoWorker.allocateWorkQueueEntry, hhead, hnext, if_neg (by omega)]
      rw [WorkRun.enqueue, halloc]
      exact h.insert clock job

theorem intact_init (id : ℕ) :
    Intact ⟨IoWorker.init id, 0, fun _ => 0⟩ (List.range nrMaxParallelIo) [] :=
  ⟨queues_init id, .nil, .nil, by simp⟩

theorem intact_step (s : WorkRun) (e : WorkEvent) (h : ∃ free io, Intact s free io)
    (hclock : ClockRule s e) :
    Sat (fun _ => False) (fun s' => ∃ free io, Intact s' free io) (workQueue.step s e) := by
  obtain ⟨free, io, h⟩ := h
  cases e with
  | enqueue clock job => exact h.enqueue clock job
  | reclaim =>
    obtain ⟨done, rest, rfl, hq, hbodies, hlatest, -, -⟩ := h.toQueues.reclaim
    refine ⟨_, _, h.of_queues hq (List.sublist_append_right _ _) (fun i => ?_) hlatest.ge⟩
    rw [← nsecsTarget_bodies, hbodies, nsecsTarget_bodies]
  | tick currNsecs =>
    exact ⟨free, io, h.of_queues ⟨⟨h.freeChain, h.freeEnd, h.ioChain, h.ioBack⟩, h.perm⟩ (.refl _)
      (fun _ => rfl) hclock⟩
  | copied i =>
    refine ⟨free, io, h.of_queues (h.mark rfl rfl) (.refl _) (fun j => ?_) le_rfl⟩
    simp only [IoWorker.copied, IoWorker.workQueue_set, update_apply]
    split <;> simp [*]
  | completed i =>
    refine ⟨free, io, h.of_queues (h.mark rfl rfl) (.refl _) (fun j => ?_) le_rfl⟩
    simp only [IoWorker.completed, IoWorker.workQueue_set, update_apply]
    split <;> simp [*]

/-- **The work queue of every I/O worker stays intact**, in every order of insertions,
    completions and reclaims. -/
theorem workQueue_intact {id : ℕ} {es : List WorkEvent}
    (hclock : workQueue.Along ClockRule ⟨IoWorker.init id, 0, fun _ => 0⟩ es)
    (hrun : workQueue.run ⟨IoWorker.init id, 0, fun _ => 0⟩ es = .ok s) :
    ∃ free io, Intact s free io ∧ free ≠ [] ∧
      (s.worker.workQueue s.worker.freeSeqEnd).next = nil32 := by
  obtain ⟨free, io, h⟩ := (Machine.run_sat intact_step ⟨_, _, intact_init id⟩ hclock).of_ok hrun
  exact ⟨free, io, h, h.free_ne_nil⟩

/-- A release of buffers and a command due before it are inserted; the command
    is completed and reclaimed. -/
def overtakeRun : List WorkEvent :=
  [.tick 10, .enqueue 11 (.internal 1 90 0 4096), .enqueue 12 (.io 1 1 0 7 12 40 0 0), .copied 1,
    .tick 50, .completed 1, .reclaim]

theorem workQueue_intact_overtakeRun :
    ∃ s, workQueue.run ⟨IoWorker.init 0, 0, fun _ => 0⟩ overtakeRun = .ok s ∧
      ∃ free io, Intact s free io ∧ free ≠ [] ∧
        (s.worker.workQueue s.worker.freeSeqEnd).next = nil32 := by
  have hclock : workQueue.Along ClockRule ⟨IoWorker.init 0, 0, fun _ => 0⟩ overtakeRun := by decide
  exact ⟨_, rfl, workQueue_intact hclock rfl⟩

end WaitGc

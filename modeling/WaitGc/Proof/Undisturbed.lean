/-
  WAITGC verification — calls of the dispatcher that no worker disturbs.

  The stores of a call amount to what the call is in one step: when no worker
  makes an access in between, `__enqueue_io_req` and `schedule_internal_operation`
  leave the queue as `IoWorker.enqueue` does, and a turn of
  `__reclaim_completed_reqs` leaves it as `IoWorker.reclaimCompletedReqs` does.
-/
import WaitGc.Proof.Threads

namespace WaitGc

open Outcome Function Chain

/-! ## The queue of a call -/

/-- What is left of a call leads from one state of the queue to another. -/
inductive Task.Ends : Task → IoWorker → IoWorker → Prop
  | last {t : Task} {w w' : IoWorker} (h : t.step w = (w', none)) : Ends t w w'
  | step {t t' : Task} {w w' w'' : IoWorker} (h : t.step w = (w', some t')) (hends : Ends t' w' w'') : Ends t w w''

variable {w w' w'' : IoWorker} {t t' : Task} {s : Threads} {wid e a curr first last clock : ℕ} {job : IoJob}
  {free io front : List ℕ} {fields : List Field}

namespace Task.Ends

theorem link (e : ℕ) (w : IoWorker) (todo : List LinkStore) : (Task.link e todo).Ends w (w.stores todo) := by
  induction todo generalizing w with
  | nil => exact .last rfl
  | cons st todo ih => exact .step rfl (ih (st.apply w))

theorem giveBack (w : IoWorker) (todo : List LinkStore) : (Task.giveBack todo).Ends w (w.stores todo) := by
  induction todo generalizing w with
  | nil => exact .last rfl
  | cons st todo ih => exact .step rfl (ih (st.apply w))

theorem scan (n e nsecsTarget : ℕ) (hchain : Linked (prevs w.workQueue) curr front nil32) (hnil : nil32 ∉ front)
    (hlen : front.length ≤ n) :
    (Task.scan e nsecsTarget curr).Ends w (w.link e (w.findSlot nsecsTarget n curr)) := by
  have hfound (curr : ℕ) : (Task.link e (w.linkStores e curr)).Ends w (w.link e curr) := by
    rw [← stores_linkStores]
    exact link e w _
  induction front generalizing n curr with
  | nil =>
    obtain rfl : curr = nil32 := hchain
    have hslot : w.findSlot nsecsTarget n nil32 = nil32 := by
      cases n with
      | zero => rfl
      | succ n => rw [IoWorker.findSlot, if_pos rfl]
    rw [hslot]
    exact .step (by rw [Task.step, if_pos rfl]) (hfound _)
  | cons c front ih =>
    obtain ⟨rfl, hchain⟩ := hchain
    have hne : curr ≠ nil32 := fun h => hnil (h ▸ List.mem_cons_self)
    cases n with
    | zero => simp at hlen
    | succ n =>
      rw [IoWorker.findSlot, if_neg hne]
      by_cases hpast : (w.workQueue curr).nsecsTarget ≤ w.latestNsecs
      · rw [if_pos hpast]
        exact .step (by rw [Task.step, if_neg hne, if_pos hpast]) (hfound _)
      rw [if_neg hpast]
      by_cases hle : (w.workQueue curr).nsecsTarget ≤ nsecsTarget
      · rw [if_pos hle]
        exact .step (by rw [Task.step, if_neg hne, if_neg hpast, if_pos hle]) (hfound _)
      · rw [if_neg hle]
        exact .step (by rw [Task.step, if_neg hne, if_neg hpast, if_neg hle])
          (ih n hchain (fun h => hnil (List.mem_cons_of_mem _ h)) (by simpa using hlen))

/-- **`__insert_req_sorted`.** -/
theorem insert (h : Apart w e free io) (clock : ℕ) (job : IoJob) :
    (Task.fill e job clock []).Ends w (w.insertReqSorted e job.nsecsTarget) := by
  unfold IoWorker.insertReqSorted
  split_ifs with hnil
  · rw [← stores_firstStores]
    exact .step (by rw [Task.step, if_pos hnil]) (link e w _)
  · have hio : io ≠ [] := by
      rintro rfl
      exact hnil h.ioChain
    have hlen : io.reverse.length ≤ nrMaxParallelIo := by
      have := h.perm.length_eq
      simp only [List.length_cons, List.length_append, List.length_range] at this
      rw [List.length_reverse]
      omega
    have hmem : nil32 ∉ io.reverse := fun hmem => h.ne_nil (by simp_all) rfl
    exact .step (by rw [Task.step, if_neg hnil]) (scan _ _ _ (h.ioBack hio) hmem hlen)

/-- The loop of `__reclaim_completed_reqs`. -/
theorem look (n first last : ℕ) (hchain : Linked (nexts w.workQueue) curr front nil32) (hnil : nil32 ∉ front)
    (hlen : front.length ≤ n) :
    (Task.look first curr last .completed).Ends w
      (if w.lastCompleted n curr last ≠ nil32 then w.giveBack first (w.lastCompleted n curr last) else w) := by
  have hstop (last : ℕ) (t : Task)
      (ht : t.step w = (w, if last ≠ nil32 then some (.giveBack (w.giveBackStores first last)) else none)) :
      t.Ends w (if last ≠ nil32 then w.giveBack first last else w) := by
    split_ifs at ht ⊢ with hne
    · rw [← stores_giveBackStores]
      exact .step ht (giveBack w _)
    · exact .last ht
  induction front generalizing n curr last with
  | nil =>
    obtain rfl : curr = nil32 := hchain
    have hlast : w.lastCompleted n nil32 last = last := by
      cases n with
      | zero => rfl
      | succ n => rw [IoWorker.lastCompleted, if_pos rfl]
    rw [hlast]
    exact hstop last _ (by simp only [Task.step, if_true])
  | cons c front ih =>
    obtain ⟨rfl, hchain⟩ := hchain
    have hne : curr ≠ nil32 := fun h => hnil (h ▸ List.mem_cons_self)
    cases n with
    | zero => simp at hlen
    | succ n =>
      have hstays (hnot : ¬ ((w.workQueue curr).isCompleted = true ∧ (w.workQueue curr).isCopied = true ∧
          (w.workQueue curr).nsecsTarget ≤ w.latestNsecs)) : w.lastCompleted (n + 1) curr last = last := by
        rw [IoWorker.lastCompleted, if_neg hne, if_neg hnot]
      by_cases hcompleted : (w.workQueue curr).isCompleted = true
      swap
      · rw [hstays fun h => hcompleted h.1]
        exact hstop last (.look first curr last .completed) (by simp only [Task.step, if_neg hne, if_neg hcompleted])
      have hnext : (Task.look first curr last .completed).step w = (w, some (.look first curr last .copied)) := by
        simp only [Task.step, if_neg hne, if_pos hcompleted]
      by_cases hcopied : (w.workQueue curr).isCopied = true
      swap
      · rw [hstays fun h => hcopied h.2.1]
        exact .step hnext
          (hstop last (.look first curr last .copied) (by simp only [Task.step, if_neg hne, if_neg hcopied]))
      have hnext' : (Task.look first curr last .copied).step w = (w, some (.look first curr last .due)) := by
        simp only [Task.step, if_neg hne, if_pos hcopied]
      by_cases hdue : (w.workQueue curr).nsecsTarget ≤ w.latestNsecs
      swap
      · rw [hstays fun h => hdue h.2.2]
        exact .step hnext (.step hnext'
          (hstop last (.look first curr last .due) (by simp only [Task.step, if_neg hne, if_neg hdue])))
      have hpass : w.lastCompleted (n + 1) curr last = w.lastCompleted n (w.workQueue curr).next curr := by
        rw [IoWorker.lastCompleted, if_neg hne, if_pos ⟨hcompleted, hcopied, hdue⟩]
      have hpassed : (Task.look first curr last .due).step w =
          (w, some (.look first (w.workQueue curr).next curr .completed)) := by
        simp only [Task.step, if_neg hne, if_pos hdue]
      rw [hpass]
      exact .step hnext (.step hnext' (.step hpassed
        (ih n _ hchain (fun h => hnil (List.mem_cons_of_mem _ h)) (by simpa using hlen))))

/-- **A turn of `__reclaim_completed_reqs`.** -/
theorem reclaim (h : Queues w free io) :
    (Task.look w.ioSeq w.ioSeq nil32 .completed).Ends w w.reclaimCompletedReqs :=
  look _ _ _ h.ioChain (fun hmem => h.ne_nil (.inr hmem) rfl) h.length_io

end Task.Ends

/-! ## The dispatcher alone -/

theorem Task.halfFilled_step {t t' : Task} (hfills : t.halfFilled = none) (h : (t.step w).2 = some t') :
    t'.halfFilled = none := by
  cases t with
  | fill e job clock fields =>
    cases fields with
    | cons f fields => cases hfills
    | nil =>
      simp only [Task.step] at h
      split_ifs at h <;> cases h <;> rfl
  | scan e nsecsTarget curr =>
    simp only [Task.step] at h
    split_ifs at h <;> cases h <;> rfl
  | link e todo =>
    cases todo with
    | nil => cases h
    | cons st todo => cases h; rfl
  | look first curr last check =>
    cases check <;> simp only [Task.step] at h <;> split_ifs at h <;> cases h <;> rfl
  | giveBack todo =>
    cases todo with
    | nil => cases h
    | cons st todo => cases h; rfl

/-- The dispatcher ends a call whose entry is filled. -/
theorem Task.Ends.run (h : t.Ends w w') (hbusy : s.disp = some (wid, t)) (hw : s.ioWorkers wid = w)
    (hfills : t.halfFilled = none) : ∃ k, threads.run s (List.replicate k .access) =
      .ok { s with ioWorkers := update s.ioWorkers wid w', disp := none } := by
  induction h generalizing s with
  | last hstep =>
    refine ⟨1, ?_⟩
    change threads.run s.access [] = _
    rw [Threads.access_eq hbusy hfills, hw, hstep]
    rfl
  | @step t t' w w₁ w' hstep _ ih =>
    have hfills' : t'.halfFilled = none := Task.halfFilled_step hfills (congrArg Prod.snd hstep)
    obtain ⟨k, hk⟩ := ih (s := { s with ioWorkers := update s.ioWorkers wid w₁, disp := some (wid, t') }) rfl
      (update_self _ _ _) hfills'
    refine ⟨k + 1, ?_⟩
    change threads.run s.access _ = _
    rw [Threads.access_eq hbusy hfills, hw, hstep]
    rw [update_idem] at hk
    exact hk

theorem run_stores {rest : List Field} (hbusy : s.disp = some (wid, .fill e job clock (fields ++ rest)))
    (hrest : rest ≠ []) : threads.run s (List.replicate fields.length .access) = .ok { s with
      ioWorkers := update s.ioWorkers wid ((s.ioWorkers wid).set e
        (fields.foldl (fun y f => f.copy (job.values clock) y) ((s.ioWorkers wid).workQueue e)))
      disp := some (wid, .fill e job clock rest) } := by
  induction fields generalizing s with
  | nil =>
    have hset : (s.ioWorkers wid).set e ((s.ioWorkers wid).workQueue e) = s.ioWorkers wid := by
      rw [IoWorker.set, update_eq_self]
    simp only [List.nil_append] at hbusy
    simp only [List.length_nil, List.replicate_zero, Machine.run_nil, List.foldl_nil, hset, update_eq_self, ← hbusy]
  | cons f fields ih =>
    obtain ⟨g, fields', hcons⟩ := List.exists_cons_of_ne_nil (List.append_ne_nil_of_right_ne_nil fields hrest)
    have hstep : s.access = { s with
        ioWorkers := update s.ioWorkers wid ((s.ioWorkers wid).set e
          (f.copy (job.values clock) ((s.ioWorkers wid).workQueue e)))
        disp := some (wid, .fill e job clock (fields ++ rest)) } := by
      rw [Threads.access, hbusy, List.cons_append, hcons]
      rfl
    change threads.run s.access _ = _
    rw [hstep, ih rfl]
    simp only [update_self, update_idem, IoWorker.workQueue_set, List.foldl_cons]
    congr 3
    simp [IoWorker.set]

theorem run_fields (hbusy : s.disp = some (wid, .fill e job clock fields)) (hne : fields ≠ []) :
    threads.run s (List.replicate fields.length .access) = .ok { s with
      ioWorkers := update s.ioWorkers wid ((s.ioWorkers wid).set e
        (fields.foldl (fun y f => f.copy (job.values clock) y) ((s.ioWorkers wid).workQueue e)))
      disp := some (wid, .fill e job clock [])
      jobs := s.jobs ++ [job]
      tag := update s.tag (wid, e) s.jobs.length } := by
  obtain ⟨init, f, rfl⟩ := (List.eq_nil_or_concat' fields).resolve_left hne
  rw [List.length_append, List.replicate_add, Machine.run_append_ok _ (run_stores hbusy (by simp))]
  change Except.ok (Threads.access _) = _
  simp only [Threads.access, Threads.note, Task.step, update_self, update_idem, IoWorker.workQueue_set,
    List.foldl_append, List.foldl_cons, List.foldl_nil, Option.map_some]
  congr 3
  simp [IoWorker.set]

/-! ## Calls -/

/-- What the machine of whole calls sees. -/
def Threads.pool (s : Threads) : Pool where
  nrIoWorkers := s.nrIoWorkers
  ioWorkers := s.ioWorkers
  curr wid := (s.threads wid).curr
  jobs := s.jobs
  tag := s.tag
  done := s.done

/-- **A call of `__enqueue_io_req` or `schedule_internal_operation` that no worker disturbs.** -/
theorem call_undisturbed (clock : ℕ) (job : IoJob) (hidle : s.disp = none)
    (hq : Queues (s.ioWorkers (s.workerOf job)) free io) :
    ∃ k s', threads.run s (.call clock job :: List.replicate k .access) = .ok s' ∧ s'.disp = none ∧
      s'.threads = s.threads ∧ s'.pool = s.pool.enqueue clock job := by
  have hcall : threads.step s (.call clock job) = .ok (s.call clock job) := by
    simp only [threads, hidle, Option.isNone_none, if_true]
  have hwid : s.pool.workerOf job = s.workerOf job := rfl
  match free, hq with
  | [], hq => exact absurd rfl hq.free_ne_nil.1
  | [e], hq =>
    have hnext : ((s.ioWorkers (s.workerOf job)).workQueue (s.ioWorkers (s.workerOf job)).freeSeq).next = nil32 := by
      rw [hq.freeChain.head]
      exact hq.freeChain.2
    have halloc : (s.ioWorkers (s.workerOf job)).allocateWorkQueueEntry = none := by
      rw [IoWorker.allocateWorkQueueEntry, hnext, if_pos (by decide)]
    have hcall' : s.call clock job = { s with jobs := s.jobs ++ [job] } := by
      rw [Threads.call, halloc]
    refine ⟨0, { s with jobs := s.jobs ++ [job] }, ?_, hidle, rfl, ?_⟩
    · rw [Machine.run_cons, hcall, hcall']
      rfl
    · have henq : (s.pool.ioWorkers (s.workerOf job)).enqueue clock job = s.pool.ioWorkers (s.workerOf job) :=
        hq.enqueue_full clock job
      rw [Pool.enqueue, hwid, henq,
         show (s.pool.ioWorkers (s.workerOf job)).allocateWorkQueueEntry = none from halloc,
        Pool.setWorker, update_eq_self]
      rfl
  | e :: a :: free, hq =>
    obtain ⟨halloc, henq⟩ := hq.enqueue_eq clock job
    have hcall' : s.call clock job = { s with
        ioWorkers := update s.ioWorkers (s.workerOf job) { s.ioWorkers (s.workerOf job) with freeSeq := a }
        disp := some (s.workerOf job, .fill e job clock job.fields) } := by
      rw [Threads.call, halloc]
    have hapart := hq.apart clock job
    have hbusy : (s.call clock job).disp = some (s.workerOf job, .fill e job clock job.fields) := by rw [hcall']
    have hfields := run_fields hbusy job.fields_ne_nil
    obtain ⟨k, hk⟩ := (Task.Ends.insert hapart clock job).run (s := { s with
      ioWorkers := update s.ioWorkers (s.workerOf job) ({ s.ioWorkers (s.workerOf job) with freeSeq := a }.set e
        (job.fill ((s.ioWorkers (s.workerOf job)).workQueue e) clock))
      disp := some (s.workerOf job, .fill e job clock [])
      jobs := s.jobs ++ [job]
      tag := update s.tag (s.workerOf job, e) s.jobs.length }) rfl (update_self _ _ _) rfl
    have hrun : threads.run s (.call clock job :: List.replicate (job.fields.length + k) .access) = .ok { s with
        ioWorkers := update s.ioWorkers (s.workerOf job) ((s.ioWorkers (s.workerOf job)).enqueue clock job)
        disp := none
        jobs := s.jobs ++ [job]
        tag := update s.tag (s.workerOf job, e) s.jobs.length } := by
      rw [Machine.run_cons, hcall, ok_bind, List.replicate_add, Machine.run_append_ok _ hfields, hcall', henq]
      simp only [update_self, update_idem, IoJob.foldl_fields] at hk ⊢
      exact hk
    refine ⟨_, _, hrun, rfl, rfl, ?_⟩
    rw [Pool.enqueue, hwid, show (s.pool.ioWorkers (s.workerOf job)).allocateWorkQueueEntry = some _ from halloc]
    rfl

/-- **A turn of `__reclaim_completed_reqs` that no worker disturbs.** -/
theorem reclaim_undisturbed (hidle : s.disp = none) (hwid : wid < s.nrIoWorkers)
    (hq : Queues (s.ioWorkers wid) free io) :
    ∃ k s', threads.run s (.reclaim wid :: List.replicate k .access) = .ok s' ∧ s'.disp = none ∧
      s'.threads = s.threads ∧ s'.pool = s.pool.setWorker wid (s.ioWorkers wid).reclaimCompletedReqs := by
  obtain ⟨k, hk⟩ := (Task.Ends.reclaim hq).run (s := s.reclaim wid) rfl rfl rfl
  have hstep : threads.step s (.reclaim wid) = .ok (s.reclaim wid) := by
    simp only [threads, hidle, hwid, Option.isNone_none, and_self, if_true]
  have hrun : threads.run s (.reclaim wid :: List.replicate k .access) = .ok { s with
      ioWorkers := update s.ioWorkers wid (s.ioWorkers wid).reclaimCompletedReqs, disp := none } := by
    rw [Machine.run_cons, hstep, ok_bind, hk]
    rfl
  exact ⟨k, _, hrun, rfl, rfl, rfl⟩

end WaitGc

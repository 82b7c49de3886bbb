/-
  WAITGC verification — a due command is completed, whatever the dispatcher does.

  A worker may lose its place: the dispatcher reclaims the entry under its cursor,
  and the pass ends at the end of the free list.  But what was reclaimed stood before
  the entries that still wait, and once the clock of the worker has passed the target
  of an entry, nothing is inserted before it.  So each pass either comes to a due
  entry or leaves fewer before it (`Waiting`), and `due_job_done` counts the passes.

  Every job finds an entry (`LoopRoom`), and a call of the dispatcher is one step.
-/
import WaitGc.Io.WorkerLoop
import WaitGc.Proof.Pool

namespace WaitGc

open Outcome Function Chain Ledger

variable {w : IoWorker} {free io pre post : List ℕ} {i c t n wid bound : ℕ} {job : IoJob}
  {s s' : WorkerLoops}

/-! ## The place of an entry -/

/-- The pending list is `pre`, the entry `i`, and `post`. -/
structure IoWorker.Around (w : IoWorker) (pre : List ℕ) (i : ℕ) (post : List ℕ) : Prop where
  chain : Linked (nexts w.workQueue) w.ioSeq (pre ++ i :: post) nil32
  ne_nil : nil32 ∉ pre ++ i :: post

theorem Queues.around_eq (h : Queues w free io) (ha : w.Around pre i post) : io = pre ++ i :: post :=
  h.ioChain.unique ha.chain (fun hmem => h.ne_nil (.inr hmem) rfl) ha.ne_nil

theorem Queues.around (h : Queues w free (pre ++ i :: post)) : w.Around pre i post :=
  ⟨h.ioChain, fun hmem => h.ne_nil (.inr hmem) rfl⟩

namespace IoWorker.Around

theorem head_mem (ha : w.Around pre i post) : w.ioSeq ∈ pre ++ [i] := by
  have hchain := ha.chain
  cases pre with
  | nil => rw [hchain.head]; exact List.mem_singleton_self i
  | cons a pre => rw [hchain.head]; exact List.mem_cons_self

theorem next_mem (ha : w.Around pre i post) (hc : c ∈ pre) : (w.workQueue c).next ∈ pre ++ [i] := by
  obtain ⟨m, hpre, hrest⟩ := linked_append.1 ha.chain
  obtain rfl := hrest.head
  rcases hpre.next_of_mem hc with hmem | heq
  · exact List.mem_append_left _ hmem
  · exact List.mem_append_right _ (List.mem_singleton.2 heq)

end IoWorker.Around

theorem split_behind {front back : List ℕ} (h : pre ++ i :: post = front ++ back) (hi : i ∉ back) :
    ∃ mid, front = pre ++ i :: mid ∧ post = mid ++ back := by
  rcases List.append_eq_append_iff.1 h with ⟨as, hfront, has⟩ | ⟨bs, -, hback⟩
  · cases as with
    | nil => exact absurd (has ▸ List.mem_cons_self : i ∈ [] ++ back) hi
    | cons a mid =>
      obtain ⟨rfl, hmid⟩ := List.cons.inj has
      exact ⟨mid, hfront, hmid⟩
  · exact absurd (hback ▸ List.mem_append_right bs List.mem_cons_self) hi

/-- **Nothing is inserted before an entry that is due.** -/
theorem Queues.enqueue_around (h : Queues w free io) (ha : w.Around pre i post)
    (hroom : (w.workQueue w.freeSeq).next < nrMaxParallelIo)
    (hdue : (w.workQueue i).nsecsTarget ≤ w.latestNsecs) (clock : ℕ) (job : IoJob) :
    ∃ post', (w.enqueue clock job).Around pre i post' ∧
      (w.enqueue clock job).latestNsecs = w.latestNsecs ∧
      bodies (w.enqueue clock job).workQueue i = bodies w.workQueue i ∧ i ≠ w.freeSeq := by
  obtain rfl := h.around_eq ha
  obtain ⟨e, a, free, rfl⟩ := h.two_free hroom
  have he : w.freeSeq = e := h.freeChain.head
  obtain ⟨front, back, hsplit, hq, hbodies, hlatest, hback, -⟩ := h.enqueue clock job
  have hi : i ∉ back := by
    intro hmem
    have hlater := (hback i hmem).1
    rw [nsecsTarget_bodies] at hlater
    omega
  have hne : i ≠ e := by
    rintro rfl
    exact h.disjoint List.mem_cons_self (List.mem_append_right _ List.mem_cons_self)
  obtain ⟨mid, rfl, rfl⟩ := split_behind hsplit hi
  rw [List.append_assoc, List.cons_append] at hq
  refine ⟨mid ++ e :: back, hq.around, hlatest, ?_, he ▸ hne⟩
  rw [hbodies, update_of_ne hne]

/-- **Reclaiming takes entries from before an entry that waits**, if it takes any. -/
theorem Queues.reclaim_around (h : Queues w free io) (ha : w.Around pre i post)
    (hlive : (w.workQueue i).isCompleted = false) :
    ∃ pre', w.reclaimCompletedReqs.Around pre' i post ∧ (pre' = pre ∨ pre'.length < pre.length) ∧
      w.reclaimCompletedReqs.latestNsecs = w.latestNsecs ∧
      bodies w.reclaimCompletedReqs.workQueue = bodies w.workQueue := by
  obtain rfl := h.around_eq ha
  obtain ⟨done, rest, hsplit, hq, hbodies, hlatest, hdone, -⟩ := h.reclaim
  rcases List.append_eq_append_iff.1 hsplit with ⟨as, hdoneEq, has⟩ | ⟨bs, rfl, rfl⟩
  · cases as with
    | nil =>
      obtain rfl : rest = i :: post := has.symm
      rw [List.append_nil] at hdoneEq
      subst hdoneEq
      refine ⟨[], hq.around, ?_, hlatest, hbodies⟩
      cases done with
      | nil => exact .inl rfl
      | cons a done => exact .inr (Nat.succ_pos _)
    | cons a mid =>
      obtain ⟨rfl, -⟩ := List.cons.inj has
      have hmem : i ∈ done := hdoneEq ▸ List.mem_append_right _ List.mem_cons_self
      have hcompleted := (hdone i hmem).1
      rw [isCompleted_bodies, hlive] at hcompleted
      cases hcompleted
  · refine ⟨bs, hq.around, ?_, hlatest, hbodies⟩
    cases done with
    | nil => exact .inl rfl
    | cons a done =>
      rw [List.length_append, List.length_cons]
      exact .inr (by omega)

/-! ## A waiting entry -/

variable {pc : LoopPc} {curr passes deadline : ℕ}

/-- The pass that the worker is in comes to the entry `i`, unless it loses its place. -/
def OnWay (pc : LoopPc) (curr : ℕ) (pre : List ℕ) (i : ℕ) : Prop :=
  match pc with
  | .top => True
  | .test => curr ∈ pre ++ [i]
  | .link => curr ∈ pre

/-- The entry `i` is due and waits; it will be done before `bound` passes have ended. -/
structure Waiting (w : IoWorker) (pc : LoopPc) (curr passes i deadline bound : ℕ) : Prop where
  live : (w.workQueue i).isCompleted = false
  target : (w.workQueue i).nsecsTarget = deadline
  due : deadline ≤ w.latestNsecs
  place : ∃ pre post, w.Around pre i post ∧
    (OnWay pc curr pre i ∧ passes + pre.length + 1 ≤ bound ∨ passes + pre.length + 2 ≤ bound)

namespace Waiting

/-- The dispatcher inserts a request. -/
theorem enqueue (h : Waiting w pc curr passes i deadline bound) (hq : Queues w free io)
    (hroom : (w.workQueue w.freeSeq).next < nrMaxParallelIo) (clock : ℕ) (job : IoJob) :
    Waiting (w.enqueue clock job) pc curr passes i deadline bound ∧ i ≠ w.freeSeq := by
  obtain ⟨pre, post, ha, hplace⟩ := h.place
  obtain ⟨post', ha', hlatest, hbody, hne⟩ := hq.enqueue_around ha hroom (h.target.le.trans h.due) clock job
  refine ⟨⟨?_, ?_, hlatest ▸ h.due, pre, post', ha', hplace⟩, hne⟩
  · rw [← isCompleted_bodies, hbody]
    exact h.live
  · rw [← nsecsTarget_bodies, hbody]
    exact h.target

/-- It reclaims entries: the pass may lose its place, but there are fewer of them. -/
theorem reclaim (h : Waiting w pc curr passes i deadline bound) (hq : Queues w free io) :
    Waiting w.reclaimCompletedReqs pc curr passes i deadline bound := by
  obtain ⟨pre, post, ha, hplace⟩ := h.place
  obtain ⟨pre', ha', hpre, hlatest, hbodies⟩ := hq.reclaim_around ha h.live
  refine ⟨?_, ?_, hlatest ▸ h.due, pre', post, ha', ?_⟩
  · rw [← isCompleted_bodies, hbodies]
    exact h.live
  · rw [← nsecsTarget_bodies, hbodies]
    exact h.target
  · rcases hpre with rfl | hlt
    · exact hplace
    · right
      rcases hplace with ⟨-, hle⟩ | hle
      · omega
      · omega

theorem start (h : Waiting w .top curr passes i deadline bound) :
    Waiting w .test w.ioSeq passes i deadline bound := by
  obtain ⟨pre, post, ha, hplace⟩ := h.place
  exact ⟨h.live, h.target, h.due, pre, post, ha, hplace.imp_left fun hle => ⟨ha.head_mem, hle.2⟩⟩

/-- A pass that ends has lost its place. -/
theorem finish (h : Waiting w .test nil32 passes i deadline bound) :
    Waiting w .top nil32 (passes + 1) i deadline bound := by
  obtain ⟨pre, post, ha, hplace⟩ := h.place
  have hlost : ¬ OnWay .test nil32 pre i := by
    intro hmem
    refine ha.ne_nil ?_
    rcases List.mem_append.1 hmem with hmem | hmem
    · exact List.mem_append_left _ hmem
    · exact List.mem_append_right _ (List.mem_singleton.1 hmem ▸ List.mem_cons_self)
  refine ⟨h.live, h.target, h.due, pre, post, ha, .inl ⟨trivial, ?_⟩⟩
  rcases hplace with ⟨hway, -⟩ | hle
  · exact absurd hway hlost
  · omega

theorem follow (h : Waiting w .link curr passes i deadline bound) :
    Waiting w .test (w.workQueue curr).next passes i deadline bound := by
  obtain ⟨pre, post, ha, hplace⟩ := h.place
  exact ⟨h.live, h.target, h.due, pre, post, ha, hplace.imp_left fun hle => ⟨ha.next_mem hle.1, hle.2⟩⟩

end Waiting

/-- The worker `w'` is `w` after it handled the entry `c`. -/
structure IoWorker.Handled (w w' : IoWorker) (c currNsecs : ℕ) : Prop where
  ioSeq : w'.ioSeq = w.ioSeq
  links : nexts w'.workQueue = nexts w.workQueue
  clock : w'.latestNsecs = currNsecs
  targets : ∀ j, (w'.workQueue j).nsecsTarget = (w.workQueue j).nsecsTarget
  others : ∀ j ≠ c, (w'.workQueue j).isCompleted = (w.workQueue j).isCompleted

theorem Waiting.handle {w' : IoWorker} {currNsecs : ℕ} (h : Waiting w .test curr passes i deadline bound)
    (hw : w.Handled w' curr currNsecs) (hne : i ≠ curr) (hclock : deadline ≤ currNsecs) :
    Waiting w' .link curr passes i deadline bound := by
  obtain ⟨pre, post, ha, hplace⟩ := h.place
  refine ⟨(hw.others i hne).trans h.live, (hw.targets i).trans h.target, hw.clock ▸ hclock, pre, post,
    ⟨by rw [hw.links, hw.ioSeq]; exact ha.chain, ha.ne_nil⟩, hplace.imp_left fun hle => ⟨?_, hle.2⟩⟩
  rcases List.mem_append.1 hle.1 with hmem | hmem
  · exact hmem
  · exact absurd (List.mem_singleton.1 hmem).symm hne

/-! ## The pool -/

namespace IoWorker.Handled

variable {w' : IoWorker} {currNsecs : ℕ}

theorem copy (h : w.Handled w' c currNsecs) :
    w.Handled (if (w'.workQueue c).isCopied = false then w'.copied c else w') c currNsecs := by
  split_ifs
  · refine ⟨h.ioSeq, ?_, h.clock, fun j => ?_, fun j hj => ?_⟩
    · rw [← h.links]
      simp only [IoWorker.copied, IoWorker.workQueue_set, nexts_update, update_eq_self_iff]
      rfl
    · rw [← h.targets j]
      simp only [IoWorker.copied, IoWorker.workQueue_set, update_apply]
      split_ifs with heq
      · rw [heq]
      · rfl
    · simp only [IoWorker.copied, IoWorker.workQueue_set, update_of_ne hj]
      exact h.others j hj
  · exact h

theorem complete (h : w.Handled w' c currNsecs) : w.Handled (w'.completed c) c currNsecs := by
  refine ⟨h.ioSeq, ?_, h.clock, fun j => ?_, fun j hj => ?_⟩
  · rw [← h.links]
    simp only [IoWorker.completed, IoWorker.workQueue_set, nexts_update, update_eq_self_iff]
    rfl
  · rw [← h.targets j]
    simp only [IoWorker.completed, IoWorker.workQueue_set, update_apply]
    split_ifs with heq
    · rw [heq]
    · rfl
  · simp only [IoWorker.completed, IoWorker.workQueue_set, update_of_ne hj]
    exact h.others j hj

end IoWorker.Handled

/-- **What a worker does with the entry under its cursor**: it completes it if it is due and
    not completed. -/
theorem Pool.visit_handled (p : Pool) {currNsecs : ℕ} (hnil : p.curr wid ≠ nil32) :
    ∃ w' done, (p.ioWorkers wid).Handled w' (p.curr wid) currNsecs ∧
      p.visit wid currNsecs = { p.setWorker wid w' with done := done } ∧
      (done = p.done ∨ ∃ t e, done = p.done ++ [(t, e)]) ∧
      (((p.ioWorkers wid).workQueue (p.curr wid)).isCompleted = false →
        ((p.ioWorkers wid).workQueue (p.curr wid)).nsecsTarget ≤ currNsecs →
        ∃ e, done = p.done ++ [(p.tag (wid, p.curr wid), e)]) := by
  unfold Pool.visit
  rw [if_neg hnil]
  dsimp only
  have htick : (p.ioWorkers wid).Handled ((p.ioWorkers wid).tick currNsecs) (p.curr wid) currNsecs :=
    ⟨rfl, rfl, rfl, fun _ => rfl, fun _ _ => rfl⟩
  have hcopy := htick.copy
  generalize (if (((p.ioWorkers wid).tick currNsecs).workQueue (p.curr wid)).isCopied = false then
    ((p.ioWorkers wid).tick currNsecs).copied (p.curr wid) else (p.ioWorkers wid).tick currNsecs) = w₁ at hcopy ⊢
  split_ifs with hdone hdue
  · refine ⟨_, p.done, htick, rfl, .inl rfl, fun hlive _ => ?_⟩
    exact absurd (hlive.symm.trans hdone) Bool.false_ne_true
  · exact ⟨_, _, hcopy.complete, rfl, .inr ⟨_, _, rfl⟩, fun _ _ => ⟨_, rfl⟩⟩
  · refine ⟨_, p.done, hcopy, rfl, .inl rfl, fun _ htarget => ?_⟩
    rw [hcopy.targets] at hdue
    exact absurd htarget hdue

/-! ## Runs -/

/-- The event finds room, as the dispatcher needs it. -/
def LoopRoom (s : WorkerLoops) : LoopEvent → Prop
  | .enqueue clock job => PoolRoom s.pool (.enqueue clock job)
  | _ => True

/-- The clock of the worker has passed the deadline. -/
def LoopClock (wid deadline : ℕ) : LoopEvent → Prop
  | .turn wid' currNsecs => wid' = wid → deadline ≤ currNsecs
  | _ => True

/-- The invariant of the pool, of `n` workers; a worker follows the link of an entry. -/
structure LoopsOk (n : ℕ) (s : WorkerLoops) : Prop where
  pool : PoolInv s.pool
  nr : s.pool.nrIoWorkers = n
  link : ∀ wid, s.pc wid = .link → s.pool.curr wid ≠ nil32

theorem loopsOk_init (n : ℕ) : LoopsOk n (WorkerLoops.init n) :=
  ⟨poolInv_init n, rfl, fun _ h => (nomatch h)⟩

theorem LoopsOk.turn (h : LoopsOk n s) (hn : 0 < n) (hlt : wid < n) (currNsecs : ℕ) :
    LoopsOk n (s.turn wid currNsecs) := by
  have hpool (e : PoolEvent) := poolInv_step n hn s.pool e ⟨h.pool, h.nr⟩
  have hact (p : Pool) : s.pool.act wid p = p := if_pos (h.nr.symm ▸ hlt)
  have hlink (curr : ℕ → ℕ) (pc : LoopPc) (hpc : pc = .link → curr wid ≠ nil32)
      (hcurr : ∀ wid' ≠ wid, curr wid' = s.pool.curr wid') (wid' : ℕ)
      (hat : update s.pc wid pc wid' = .link) : curr wid' ≠ nil32 := by
    by_cases heq : wid' = wid
    · subst heq
      rw [update_self] at hat
      exact hpc hat
    · rw [update_of_ne heq] at hat
      rw [hcurr wid' heq]
      exact h.link wid' hat
  unfold WorkerLoops.turn
  cases hpc : s.pc wid with
  | top =>
    obtain ⟨hinv, hnr⟩ := hpool (.start wid) trivial
    rw [hact] at hinv hnr
    exact ⟨hinv, hnr, hlink _ _ (fun h => nomatch h) fun wid' hne => update_of_ne hne ..⟩
  | test =>
    dsimp only
    split_ifs with hnil
    · exact ⟨h.pool, h.nr, hlink _ _ (fun h => nomatch h) fun _ _ => rfl⟩
    · obtain ⟨hinv, hnr⟩ := hpool (.visit wid currNsecs) trivial
      rw [hact] at hinv hnr
      obtain ⟨w', done, -, hvisit, -⟩ := s.pool.visit_handled hnil
      refine ⟨hinv, hnr, hlink _ _ (fun _ => ?_) fun _ _ => ?_⟩
      · rw [hvisit]
        exact hnil
      · rw [hvisit]
        rfl
  | link =>
    obtain ⟨hinv, hnr⟩ := hpool (.advance wid) trivial
    rw [hact, if_neg (h.link wid hpc)] at hinv hnr
    exact ⟨hinv, hnr, hlink _ _ (fun h => nomatch h) fun wid' hne => update_of_ne hne ..⟩

theorem loopsOk_step (hn : 0 < n) (s : WorkerLoops) (e : LoopEvent) (h : LoopsOk n s) (hroom : LoopRoom s e) :
    Sat (fun _ => False) (LoopsOk n) (workerLoops.step s e) := by
  have hpool (e : PoolEvent) := poolInv_step n hn s.pool e ⟨h.pool, h.nr⟩
  cases e with
  | enqueue clock job =>
    obtain ⟨hinv, hnr⟩ := hpool (.enqueue clock job) hroom
    exact ⟨hinv, hnr, h.link⟩
  | reclaim wid =>
    obtain ⟨hinv, hnr⟩ := hpool (.reclaim wid) trivial
    refine ⟨hinv, hnr, fun wid' hat => ?_⟩
    have hcurr : (s.pool.act wid (s.pool.setWorker wid (s.pool.ioWorkers wid).reclaimCompletedReqs)).curr =
        s.pool.curr := by
      unfold Pool.act
      split_ifs <;> rfl
    change (s.pool.act wid _).curr wid' ≠ nil32
    rw [hcurr]
    exact h.link wid' hat
  | turn wid currNsecs =>
    change LoopsOk n (if wid < s.pool.nrIoWorkers then s.turn wid currNsecs else s)
    split_ifs with hlt
    · exact h.turn hn (h.nr ▸ hlt) currNsecs
    · exact h

/-! ## A due job -/

/-- The job `t` waits in the entry `i` of the worker `wid`, or it was done. -/
def Due (wid i t deadline bound : ℕ) (s : WorkerLoops) : Prop :=
  (Waiting (s.pool.ioWorkers wid) (s.pc wid) (s.pool.curr wid) (s.passes wid) i deadline bound ∧
    s.pool.tag (wid, i) = t) ∨ notes s.pool.done t ≠ []

theorem notes_ne_nil {done done' : List (ℕ × IoWork)} (h : notes done t ≠ [])
    (hdone : done' = done ∨ ∃ t' e, done' = done ++ [(t', e)]) : notes done' t ≠ [] := by
  rcases hdone with rfl | ⟨t', e, rfl⟩
  · exact h
  · rw [notes_append]
    split_ifs
    · exact List.append_ne_nil_of_left_ne_nil h _
    · exact h

/-- Nothing changes for the worker `wid`. -/
theorem Due.congr {s s' : WorkerLoops} (h : Due wid i t deadline bound s)
    (hworker : s'.pool.ioWorkers wid = s.pool.ioWorkers wid) (hpc : s'.pc wid = s.pc wid)
    (hcurr : s'.pool.curr wid = s.pool.curr wid) (hpasses : s'.passes wid = s.passes wid)
    (htag : s'.pool.tag (wid, i) = s.pool.tag (wid, i))
    (hdone : s'.pool.done = s.pool.done ∨ ∃ t' e, s'.pool.done = s.pool.done ++ [(t', e)]) :
    Due wid i t deadline bound s' := by
  rcases h with ⟨hwait, ht⟩ | hnotes
  · left
    rw [hworker, hpc, hcurr, hpasses, htag]
    exact ⟨hwait, ht⟩
  · exact .inr (notes_ne_nil hnotes hdone)

theorem Due.enqueue (h : Due wid i t deadline bound s) (hs : LoopsOk n s) (hwid : wid < n) (clock : ℕ)
    {job : IoJob} (hroom : LoopRoom s (.enqueue clock job)) :
    Due wid i t deadline bound { s with pool := s.pool.enqueue clock job } := by
  by_cases heq : s.pool.workerOf job = wid
  · refine h.imp_left fun ⟨hwait, ht⟩ => ?_
    obtain ⟨fresh, recycled, io, hok⟩ := hs.pool.workers wid (hs.nr.symm ▸ hwid)
    have hroom' : ((s.pool.ioWorkers wid).workQueue (s.pool.ioWorkers wid).freeSeq).next < nrMaxParallelIo :=
      heq ▸ hroom
    obtain ⟨hwait', hne⟩ := hwait.enqueue hok.queues hroom' clock job
    have halloc : (s.pool.ioWorkers wid).allocateWorkQueueEntry = some ((s.pool.ioWorkers wid).freeSeq,
        { s.pool.ioWorkers wid with
          freeSeq := ((s.pool.ioWorkers wid).workQueue (s.pool.ioWorkers wid).freeSeq).next }) :=
      if_neg (Nat.not_le_of_lt hroom')
    refine ⟨?_, ?_⟩
    · simpa [Pool.enqueue, Pool.setWorker, heq] using hwait'
    · simp only [Pool.enqueue, heq, halloc]
      rw [update_of_ne, ht]
      simpa using hne
  · refine h.congr (update_of_ne (Ne.symm heq) ..) rfl rfl rfl ?_ (.inl rfl)
    simp only [Pool.enqueue]
    cases (s.pool.ioWorkers (s.pool.workerOf job)).allocateWorkQueueEntry with
    | none => rfl
    | some p => exact update_of_ne (fun hp => heq (Prod.mk.inj hp).1.symm) ..

theorem Due.reclaim (h : Due wid i t deadline bound s) (hs : LoopsOk n s) (hwid : wid < n) (wid' : ℕ) :
    Due wid i t deadline bound { s with
      pool := s.pool.act wid' (s.pool.setWorker wid' (s.pool.ioWorkers wid').reclaimCompletedReqs) } := by
  unfold Pool.act
  split_ifs
  swap
  · exact h
  by_cases heq : wid' = wid
  · refine h.imp_left fun ⟨hwait, ht⟩ => ⟨?_, ht⟩
    obtain ⟨fresh, recycled, io, hok⟩ := hs.pool.workers wid (hs.nr.symm ▸ hwid)
    simpa [Pool.setWorker, heq] using hwait.reclaim hok.queues
  · exact h.congr (update_of_ne (Ne.symm heq) ..) rfl rfl rfl rfl (.inl rfl)

/-- Its own worker moves: it comes closer to the entry, or loses its place. -/
theorem Due.turn (h : Due wid i t deadline bound s) {currNsecs : ℕ} (hclock : deadline ≤ currNsecs) :
    Due wid i t deadline bound (s.turn wid currNsecs) := by
  unfold WorkerLoops.turn
  cases hpc : s.pc wid with
  | top =>
    refine h.imp_left fun ⟨hwait, ht⟩ => ⟨?_, ht⟩
    rw [hpc] at hwait
    simpa using hwait.start
  | test =>
    dsimp only
    split_ifs with hnil
    · refine h.imp_left fun ⟨hwait, ht⟩ => ⟨?_, ht⟩
      rw [hpc, hnil] at hwait
      simpa [hnil] using hwait.finish
    · obtain ⟨w', done, hw, hvisit, hdone, hcomplete⟩ := s.pool.visit_handled hnil
      rw [hvisit]
      rcases h with ⟨hwait, ht⟩ | hnotes
      · rw [hpc] at hwait
        by_cases heq : i = s.pool.curr wid
        · -- the worker has come to the entry
          right
          obtain ⟨e, rfl⟩ := hcomplete (heq ▸ hwait.live) (heq ▸ hwait.target.le.trans hclock)
          change notes (s.pool.done ++ _) t ≠ []
          rw [notes_append, if_pos (heq ▸ ht)]
          exact List.append_ne_nil_of_right_ne_nil _ (List.cons_ne_nil _ _)
        · refine .inl ⟨?_, ht⟩
          simpa [Pool.setWorker] using hwait.handle hw heq hclock
      · exact .inr (notes_ne_nil hnotes hdone)
  | link =>
    refine h.imp_left fun ⟨hwait, ht⟩ => ⟨?_, ht⟩
    rw [hpc] at hwait
    simpa using hwait.follow

/-- Another worker moves. -/
theorem Due.turn_other (h : Due wid i t deadline bound s) {wid' : ℕ} (hne : wid ≠ wid') (currNsecs : ℕ) :
    Due wid i t deadline bound (s.turn wid' currNsecs) := by
  unfold WorkerLoops.turn
  cases s.pc wid' with
  | top => exact h.congr rfl (update_of_ne hne ..) (update_of_ne hne ..) rfl rfl (.inl rfl)
  | test =>
    dsimp only
    split_ifs with hnil
    · exact h.congr rfl (update_of_ne hne ..) rfl (update_of_ne hne ..) rfl (.inl rfl)
    · obtain ⟨w', done, -, hvisit, hdone, -⟩ := s.pool.visit_handled hnil
      rw [hvisit]
      exact h.congr (update_of_ne hne ..) (update_of_ne hne ..) rfl rfl rfl hdone
  | link => exact h.congr rfl (update_of_ne hne ..) (update_of_ne hne ..) rfl rfl (.inl rfl)

/-! ## The theorem -/

theorem WorkerLoops.jobs_step {e : LoopEvent} (hstep : workerLoops.step s e = .ok s')
    (hjob : s.pool.jobs[t]? = some job) : s'.pool.jobs[t]? = some job := by
  cases e with
  | enqueue clock job' =>
    cases hstep
    exact (List.getElem?_append_left (List.getElem?_eq_some_iff.1 hjob).1).trans hjob
  | reclaim wid =>
    cases hstep
    change (s.pool.act wid _).jobs[t]? = some job
    unfold Pool.act
    split_ifs <;> exact hjob
  | turn wid currNsecs =>
    cases hstep
    split_ifs
    swap
    · exact hjob
    unfold WorkerLoops.turn
    cases s.pc wid with
    | top => exact hjob
    | test =>
      dsimp only
      split_ifs with hnil
      · exact hjob
      · obtain ⟨w', done, -, hvisit, -⟩ := s.pool.visit_handled hnil
        rw [hvisit]
        exact hjob
    | link => exact hjob

/-- Every event keeps the job due, or it is done. -/
theorem due_step (hn : 0 < n) (hwid : wid < n) (s : WorkerLoops) (e : LoopEvent)
    (h : LoopsOk n s ∧ s.pool.jobs[t]? = some job ∧ Due wid i t deadline bound s)
    (hcond : LoopRoom s e ∧ LoopClock wid deadline e) :
    Sat (fun _ => False) (fun s' => LoopsOk n s' ∧ s'.pool.jobs[t]? = some job ∧
      Due wid i t deadline bound s') (workerLoops.step s e) := by
  obtain ⟨hs, hjob, hdue⟩ := h
  obtain ⟨hroom, hclock⟩ := hcond
  have hok := loopsOk_step hn s e hs hroom
  cases e with
  | enqueue clock job' =>
    exact ⟨hok, WorkerLoops.jobs_step (e := .enqueue clock job') rfl hjob, hdue.enqueue hs hwid clock hroom⟩
  | reclaim wid' =>
    exact ⟨hok, WorkerLoops.jobs_step (e := .reclaim wid') rfl hjob, hdue.reclaim hs hwid wid'⟩
  | turn wid' currNsecs =>
    refine ⟨hok, WorkerLoops.jobs_step (e := .turn wid' currNsecs) rfl hjob, ?_⟩
    split_ifs
    · by_cases heq : wid' = wid
      · subst heq
        exact hdue.turn (hclock rfl)
      · exact hdue.turn_other (Ne.symm heq) currNsecs
    · exact hdue

/-- **A due command is completed within as many passes as there are entries before it, and two
    more**, whatever the dispatcher inserts and reclaims meanwhile and however the workers
    interleave: its result is posted, or its buffers are released, exactly once. -/
theorem due_job_done {es es' : List LoopEvent} {p : ℕ × ℕ} (hn : 0 < n)
    (hroom : workerLoops.Along LoopRoom (WorkerLoops.init n) es)
    (hreach : workerLoops.run (WorkerLoops.init n) es = .ok s) (hheld : s.pool.Holds p)
    (hplace : (s.pool.ioWorkers p.1).Around pre p.2 post)
    (hdue : (s.pool.entry p).nsecsTarget ≤ (s.pool.ioWorkers p.1).latestNsecs)
    (hroom' : workerLoops.Along LoopRoom s es')
    (hclock : workerLoops.Along (fun _ => LoopClock p.1 (s.pool.entry p).nsecsTarget) s es')
    (hrun : workerLoops.run s es' = .ok s')
    (hpasses : s.passes p.1 + pre.length + 2 ≤ s'.passes p.1) :
    ∃ job w, s.pool.jobs[s.pool.tag p]? = some job ∧
      notes s'.pool.done (s.pool.tag p) = [(s.pool.tag p, w)] ∧ job.CarriedBy w := by
  have hs := (Machine.run_sat (loopsOk_step hn) (loopsOk_init n) hroom).of_ok hreach
  obtain ⟨job, hjob, -⟩ := hs.pool.ledger.held p hheld
  have hwait : Due p.1 p.2 (s.pool.tag p) (s.pool.entry p).nsecsTarget (s.passes p.1 + pre.length + 2) s :=
    .inl ⟨⟨hheld.2.2, rfl, hdue, pre, post, hplace, .inr le_rfl⟩, rfl⟩
  obtain ⟨hs', hjob', hdone⟩ := (Machine.run_sat (due_step hn (hs.nr ▸ hheld.1)) ⟨hs, hjob, hwait⟩
    (hroom'.and hclock)).of_ok hrun
  have hnotes : notes s'.pool.done (s.pool.tag p) ≠ [] := by
    rcases hdone with ⟨hwait', -⟩ | hnotes
    · -- too many passes have ended for it to wait
      obtain ⟨pre', post', -, hbound⟩ := hwait'.place
      omega
    · exact hnotes
  rcases hs'.pool.served hjob' with ⟨q, -, -, -, hnone⟩ | ⟨w, hw, hcarried⟩
  · exact absurd hnone hnotes
  · exact ⟨job, w, hjob, hw, hcarried⟩

instance loopRoomDecidable (s : WorkerLoops) : ∀ e, Decidable (LoopRoom s e)
  | .enqueue clock job => inferInstanceAs (Decidable (PoolRoom s.pool (.enqueue clock job)))
  | .reclaim _ => .isTrue trivial
  | .turn _ _ => .isTrue trivial

instance loopClockDecidable (wid deadline : ℕ) : ∀ e, Decidable (LoopClock wid deadline e)
  | .enqueue _ _ => .isTrue trivial
  | .reclaim _ => .isTrue trivial
  | .turn wid' currNsecs => inferInstanceAs (Decidable (wid' = wid → deadline ≤ currNsecs))

/-- The worker completes the first of two commands, and the dispatcher takes it from under its
    cursor. -/
def lostPlaceRun : List LoopEvent :=
  [.enqueue 0 (.io 1 1 0 7 0 10 0 0), .enqueue 0 (.io 1 1 1 8 0 20 0 0), .turn 0 30, .turn 0 30, .reclaim 0]

/-- It comes to the second one in its next pass. -/
def secondPassRun : List LoopEvent := List.replicate 6 (.turn 0 31)

theorem due_job_done_secondPass : ∃ s s', workerLoops.run (WorkerLoops.init 1) lostPlaceRun = .ok s ∧
    workerLoops.run s secondPassRun = .ok s' ∧ s.passes 0 = 0 ∧ s'.passes 0 = 2 ∧
    ∃ job w, s.pool.jobs[1]? = some job ∧ notes s'.pool.done 1 = [(1, w)] ∧ job.CarriedBy w := by
  have hroom : workerLoops.Along LoopRoom (WorkerLoops.init 1) lostPlaceRun := by decide
  have hcond : (workerLoops.run (WorkerLoops.init 1) lostPlaceRun >>= fun s =>
      (workerLoops.run s secondPassRun).map fun s' =>
        ((decide (workerLoops.Along LoopRoom s secondPassRun),
            decide (workerLoops.Along (fun _ => LoopClock 0 20) s secondPassRun),
            (s.pool.entry (0, 1)).isCompleted),
          [s.passes 0, s'.passes 0, s.pool.nrIoWorkers, s.pool.tag (0, 1), (s.pool.ioWorkers 0).ioSeq,
            (s.pool.ioWorkers 0).latestNsecs, (s.pool.entry (0, 1)).next, (s.pool.entry (0, 1)).nsecsTarget])) =
        .ok ((true, true, false), [0, 2, 1, 1, 1, 30, nil32, 20]) := by
    decide +kernel
  obtain ⟨s, hreach, hcond⟩ := bind_eq_ok hcond
  obtain ⟨s', hrun, hcond⟩ := exists_ok_of_map hcond
  simp only [Prod.mk.injEq, List.cons.injEq, decide_eq_true_eq] at hcond
  obtain ⟨⟨hroom', hclock, hlive⟩, hpasses, hpasses', hnr, htag, hhead, hlatest, hnext, htarget, -⟩ := hcond
  have hplace : (s.pool.ioWorkers 0).Around [] 1 [] := ⟨⟨hhead, hnext⟩, by decide⟩
  have hheld : s.pool.Holds (0, 1) :=
    ⟨hnr ▸ Nat.one_pos, ⟨[1], hplace.chain, hplace.ne_nil, List.mem_singleton_self 1⟩, hlive⟩
  have hdue : (s.pool.entry (0, 1)).nsecsTarget ≤ (s.pool.ioWorkers 0).latestNsecs := by omega
  have hdone := due_job_done Nat.one_pos hroom hreach hheld hplace hdue hroom' (htarget ▸ hclock) hrun
    (by simp only [List.length_nil]; omega)
  rw [htag] at hdone
  exact ⟨s, s', hreach, hrun, hpasses, hpasses', hdone⟩

end WaitGc

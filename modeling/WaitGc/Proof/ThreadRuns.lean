/-
  WAITGC verification — what a turn of a worker keeps, and whole runs.

  A worker relies on the links and on what `ThreadInv` says of its variables.
  Every turn keeps the invariant of the queue and the jobs that wait there, but
  for one: a worker that has loaded what it needs of an entry is done with the
  job (`WorkerInv.post`).  There is one thing that it must not do: take an entry
  that the dispatcher has marked as not completed, and has yet to fill, for a
  pending one (`Torn`).

  `ThreadsInv` holds of all queues along every run in which no worker does, and
  in which every job finds an entry.
-/
import WaitGc.Proof.ThreadSteps

namespace WaitGc

open Outcome Function Chain Ledger

variable {w w' : IoWorker} {i : ℕ} {job : IoJob} {x : IoWork} {v v' : View} {th th' : WorkerThread}
  {task : Option Task}

/-! ## The worker -/

/-- Where the dispatcher stands, when a worker has marked an entry or read the clock. -/
theorem TaskInv.congr (h : TaskInv w v task) (hw : SameLinks w w')
    (hentry : ∀ i, task.bind Task.halfFilled = some i → w'.workQueue i = w.workQueue i)
    (hcompleted : ∀ i, (w.workQueue i).isCompleted = true → (w'.workQueue i).isCompleted = true) :
    TaskInv w' v task := by
  cases task with
  | none => exact hw.queues h
  | some task =>
    cases task with
    | fill e job clock fields =>
      cases fields with
      | nil => exact hw.apart h
      | cons f fields =>
        obtain ⟨free, hlists, hperm, hbefore, hafter, stored, hsplit, hstored⟩ := h
        refine ⟨free, hw.lists hlists, hperm, hbefore, hafter, stored, hsplit, fun g hg => ?_⟩
        rw [hentry e rfl]
        exact hstored g hg
    | scan e nsecsTarget curr =>
      obtain ⟨hapart, hne, back, front, hrev, hchain⟩ := h
      exact ⟨hw.apart hapart, hne, back, front, hrev, by rw [hw.prevs]; exact hchain⟩
    | link e todo =>
      obtain ⟨hq, he, hstays, hleads⟩ := h
      exact ⟨(hw.stores todo).queues hq, he, hstays.congr hw, hleads⟩
    | look first curr last check =>
      obtain ⟨hq, hfirst, done, rest, hio, hchain, hlast, hdone, hcheck⟩ := h
      refine ⟨hw.queues hq, hfirst.trans hw.ioSeq.symm, done, rest, hio, by rw [hw.nexts]; exact hchain, hlast,
        fun i hi => hcompleted i (hdone i hi), fun hne => hcompleted curr (hcheck hne)⟩
    | giveBack todo =>
      obtain ⟨hq, hstays, hleads⟩ := h
      exact ⟨(hw.stores todo).queues hq, hstays.congr hw, hleads⟩

theorem Task.halfFilled_or_filled {task : Task} (h : task.entry = some i) :
    task.halfFilled = some i ∨ task.filled = some i := by
  cases task with
  | fill e job clock fields =>
    cases fields with
    | nil => exact .inr h
    | cons f fields => exact .inl h
  | scan e nsecsTarget curr => exact .inr h
  | link e todo => exact .inr h
  | look first curr last check => cases h
  | giveBack todo => cases h

theorem Task.entry_of_filled {task : Task} (h : task.filled = some i) : task.entry = some i := by
  cases task with
  | fill e job clock fields =>
    cases fields with
    | nil => exact h
    | cons f fields => cases h
  | scan e nsecsTarget curr => exact h
  | link e todo => exact h
  | look first curr last check => cases h
  | giveBack todo => cases h

theorem ThreadInv.of_not_handles (hnil : th.pc = .top ∨ th.pc = .test ∨ th.curr ≠ nil32) (hpc : ¬ th.pc.Handles) :
    ThreadInv v task th x := by
  refine ⟨hnil, fun h => absurd h hpc, fun h => ?_, fun todo h => ?_⟩
  · exact absurd (h ▸ trivial) hpc
  · exact absurd (h ▸ trivial) hpc

theorem Keeps.of_thread (h : WorkerInv w task th v) (hcursor : th'.curr = nil32 ∨ v.Used th'.curr)
    (hthread : ThreadInv v task th' (w.workQueue th'.curr)) (hpc : th.pc ≠ .setCompleted)
    (hpc' : th'.pc ≠ .setCompleted) : Keeps w task th v w task th' v := by
  refine ⟨⟨h.disp, h.used, h.head, h.next, hcursor, h.live, hthread⟩, fun i => ?_, fun _ _ _ => id⟩
  unfold Waits
  simp [hpc, hpc']

theorem WorkerInv.tick (h : WorkerInv w task th v) (currNsecs : ℕ) : WorkerInv (w.tick currNsecs) task th v :=
  ⟨h.disp.congr (sameLinks_tick w currNsecs) (fun _ _ => rfl) fun _ => id, h.used, h.head, h.next, h.cursor, h.live,
    h.thread⟩

theorem WorkerInv.mark (h : WorkerInv w task th v) (hpc : th.pc.Handles)
    (hnext : x.next = (w.workQueue th.curr).next) (hprev : x.prev = (w.workQueue th.curr).prev)
    (hthread : ThreadInv v task th' x) (hcurr : th'.curr = th.curr) : WorkerInv (w.set th.curr x) task th' v := by
  have hlinks : SameLinks w (w.set th.curr x) := sameLinks_set hnext hprev
  have hother {i : ℕ} (hi : i ≠ th.curr) : (w.set th.curr x).workQueue i = w.workQueue i := by
    rw [IoWorker.workQueue_set, update_of_ne hi]
  obtain ⟨hlive, hat⟩ := h.thread.handles hpc
  refine ⟨h.disp.congr hlinks ?_ ?_, h.used, ?_, ?_, hcurr ▸ h.cursor, ?_, ?_⟩
  · intro i hi
    exact hother fun heq => h.away hpc (heq ▸ hi)
  · intro i hi
    rw [hother (by rintro rfl; rw [hlive] at hi; cases hi)]
    exact hi
  · exact h.head
  · rw [hlinks.nexts]
    exact h.next
  · intro i hi hcompleted
    by_cases heq : i = th.curr
    · subst heq
      refine hat.imp_right fun hfilled => ?_
      obtain ⟨t, rfl, ht⟩ := Option.bind_eq_some_iff.1 hfilled
      exact Task.entry_of_filled ht
    · rw [hother heq] at hcompleted
      exact h.live i hi hcompleted
  · rw [hcurr, IoWorker.workQueue_set, update_self]
    exact hthread

/-- The worker takes an entry for one that is not completed, which the dispatcher has yet to fill. -/
def Torn (w : IoWorker) (task : Option Task) (th : WorkerThread) : Prop :=
  th.pc = .isCompleted ∧ (w.workQueue th.curr).isCompleted = false ∧ task.bind Task.halfFilled = some th.curr

/-- The worker finds an entry that is not completed: it carries a job. -/
theorem WorkerInv.found (h : WorkerInv w task th v) (hcalm : ¬ Torn w task th) (hpc : th.pc = .isCompleted)
    (hlive : (w.workQueue th.curr).isCompleted = false) :
    th.curr ∈ v.io ∨ task.bind Task.filled = some th.curr := by
  have hnil : th.curr ≠ nil32 := by
    rcases h.thread.ne_nil with htop | htest | hnil
    · rw [hpc] at htop; cases htop
    · rw [hpc] at htest; cases htest
    · exact hnil
  rcases h.live _ (h.cursor.resolve_left hnil) hlive with hmem | hentry
  · exact .inl hmem
  · obtain ⟨t, rfl, ht⟩ := Option.bind_eq_some_iff.1 hentry
    exact .inr ((Task.halfFilled_or_filled ht).resolve_left fun hhalf => hcalm ⟨hpc, hlive, hhalf⟩)

theorem WorkerInv.setCopied {curr clock : ℕ} {seen : IoWork}
    (h : WorkerInv w task ⟨.setCopied, curr, clock, seen⟩ v) :
    Keeps w task ⟨.setCopied, curr, clock, seen⟩ v (w.copied curr) task ⟨.nsecsTarget, curr, clock, seen⟩ v := by
  have hnil : curr ≠ nil32 := (h.thread.ne_nil.resolve_left (by simp)).resolve_left (by simp)
  have hcompleted (i : ℕ) : ((w.copied curr).workQueue i).isCompleted = (w.workQueue i).isCompleted := by
    simp only [IoWorker.copied, IoWorker.workQueue_set, update_apply]
    split <;> simp [*]
  refine ⟨h.mark trivial rfl rfl ⟨.inr (.inr hnil), fun _ => h.thread.handles trivial, by simp, by simp⟩ rfl,
    fun i => ?_, fun i job _ hjob => ?_⟩
  · unfold Waits
    simp [hcompleted]
  · simp only [IoWorker.copied, IoWorker.workQueue_set, update_apply]
    split
    · rename_i hi
      subst hi
      cases job <;> exact hjob
    · exact hjob

theorem WorkerInv.setCompleted {curr clock : ℕ} {seen : IoWork}
    (h : WorkerInv w task ⟨.setCompleted, curr, clock, seen⟩ v) :
    Keeps w task ⟨.setCompleted, curr, clock, seen⟩ v (w.completed curr) task ⟨.next, curr, clock, seen⟩ v := by
  have hnil : curr ≠ nil32 := (h.thread.ne_nil.resolve_left (by simp)).resolve_left (by simp)
  refine ⟨h.mark trivial rfl rfl (.of_not_handles (.inr (.inr hnil)) id) rfl, fun i => ?_,
    fun i job hwaits hjob => ?_⟩
  · unfold Waits
    simp only [IoWorker.completed, IoWorker.workQueue_set, update_apply]
    by_cases hi : i = curr
    · simp [hi]
    · simp [hi, Ne.symm hi]
  · -- the entry the worker is done with no longer waits
    have hi : i ≠ curr := fun heq => hwaits.2.2 ⟨rfl, heq.symm⟩
    simpa [IoWorker.completed, update_of_ne hi] using hjob

/-- **A turn of a worker**, but for the last load of what it needs of an entry. -/
theorem WorkerInv.turn (h : WorkerInv w task th v) (hcalm : ¬ Torn w task th) (hpost : th.pc ≠ .load [])
    (currNsecs : ℕ) : Keeps w task th v (th.step w currNsecs).1 task (th.step w currNsecs).2 v := by
  have hfound := h.found hcalm
  obtain ⟨pc, curr, clock, seen⟩ := th
  have hthread := h.thread
  have hcurr (hpc : pc ≠ .top) (hpc' : pc ≠ .test) : curr ≠ nil32 :=
    (hthread.ne_nil.resolve_left hpc).resolve_left hpc'
  cases pc with
  | top =>
    change Keeps w task ⟨.top, curr, clock, seen⟩ v w task ⟨.test, w.ioSeq, clock, seen⟩ v
    exact Keeps.of_thread h h.head (.of_not_handles (.inr (.inl rfl)) id) (by simp) (by simp)
  | test =>
    simp only [WorkerThread.step]
    split_ifs with hnil
    · exact Keeps.of_thread h h.cursor (.of_not_handles (.inl rfl) id) (by simp) (by simp)
    · have hk : Keeps (w.tick currNsecs) task ⟨.test, curr, clock, seen⟩ v (w.tick currNsecs) task
          ⟨.isCompleted, curr, currNsecs, seen⟩ v :=
        Keeps.of_thread (h.tick currNsecs) h.cursor (.of_not_handles (.inr (.inr hnil)) id) (by simp) (by simp)
      exact ⟨hk.inv, hk.waits, hk.carried⟩
  | isCompleted =>
    have hnil := hcurr (by simp) (by simp)
    simp only [WorkerThread.step]
    split_ifs with hcompleted
    · exact Keeps.of_thread h h.cursor (.of_not_handles (.inr (.inr hnil)) id) (by simp) (by simp)
    · have hlive := Bool.eq_false_iff.2 hcompleted
      exact Keeps.of_thread h h.cursor ⟨.inr (.inr hnil), fun _ => ⟨hlive, hfound rfl hlive⟩, by simp, by simp⟩
        (by simp) (by simp)
  | isCopied =>
    have hnil := hcurr (by simp) (by simp)
    simp only [WorkerThread.step]
    split_ifs
    · exact Keeps.of_thread h h.cursor ⟨.inr (.inr hnil), fun _ => hthread.handles trivial, by simp, by simp⟩
        (by simp) (by simp)
    · exact Keeps.of_thread h h.cursor ⟨.inr (.inr hnil), fun _ => hthread.handles trivial, by simp, by simp⟩
        (by simp) (by simp)
  | setCopied => exact h.setCopied
  | nsecsTarget =>
    have hnil := hcurr (by simp) (by simp)
    simp only [WorkerThread.step]
    split_ifs
    · exact Keeps.of_thread h h.cursor
        ⟨.inr (.inr hnil), fun _ => hthread.handles trivial, fun _ => Field.copy_copy _ _ _, by simp⟩
        (by simp) (by simp)
    · exact Keeps.of_thread h h.cursor (.of_not_handles (.inr (.inr hnil)) id) (by simp) (by simp)
  | isInternal =>
    refine Keeps.of_thread h h.cursor ⟨.inr (.inr (hcurr (by simp) (by simp))), fun _ => hthread.handles trivial,
      by simp [WorkerThread.step], fun todo htodo => ?_⟩ (by simp) (by simp [WorkerThread.step])
    obtain rfl : loads (w.workQueue curr).isInternal = todo := WorkerPc.load.inj htodo
    exact ⟨Field.copy_keep (hthread.target rfl) _, Field.copy_copy _ _ _, [], rfl, by simp⟩
  | load todo =>
    obtain ⟨f, todo, rfl⟩ := List.exists_cons_of_ne_nil fun hnil : todo = [] => hpost (hnil ▸ rfl)
    refine Keeps.of_thread h h.cursor ⟨.inr (.inr (hcurr (by simp) (by simp))), fun _ => hthread.handles trivial,
      by simp [WorkerThread.step], fun todo' htodo => ?_⟩ (by simp) (by simp [WorkerThread.step])
    obtain rfl : todo = todo' := WorkerPc.load.inj htodo
    obtain ⟨htarget, hinternal, read, hsplit, hread⟩ := hthread.loaded _ rfl
    refine ⟨Field.copy_keep htarget _, Field.copy_keep hinternal _, read ++ [f], ?_, fun g hg => ?_⟩
    · rw [List.append_assoc]
      exact hsplit
    rcases List.mem_append.1 hg with hg | hg
    · exact Field.copy_keep (hread g hg) _
    · obtain rfl := List.mem_singleton.1 hg
      exact Field.copy_copy _ _ _
  | setCompleted => exact h.setCompleted
  | next =>
    have hnil := hcurr (by simp) (by simp)
    change Keeps w task ⟨.next, curr, clock, seen⟩ v w task ⟨.test, (w.workQueue curr).next, clock, seen⟩ v
    exact Keeps.of_thread h (h.next curr (h.cursor.resolve_left hnil)) (.of_not_handles (.inr (.inl rfl)) id)
      (by simp) (by simp)

/-- **The last load of a worker**: it is done with the job, whose fields it has all loaded. -/
theorem WorkerInv.post (h : WorkerInv w task th v) (hpc : th.pc = .load []) :
    WorkerInv w task { th with pc := .setCompleted } v ∧ Waits w task th v th.curr ∧
      (∀ i, Waits w task { th with pc := .setCompleted } v i ↔ Waits w task th v i ∧ i ≠ th.curr) ∧
      ∀ job : IoJob, job.CarriedBy (w.workQueue th.curr) → job.CarriedBy th.seen := by
  obtain ⟨hlive, hat⟩ := h.thread.handles (hpc ▸ trivial)
  have hnil : th.curr ≠ nil32 := by
    rcases h.thread.ne_nil with htop | htest | hnil
    · rw [hpc] at htop; cases htop
    · rw [hpc] at htest; cases htest
    · exact hnil
  refine ⟨⟨h.disp, h.used, h.head, h.next, h.cursor, h.live,
    ⟨.inr (.inr hnil), fun _ => ⟨hlive, hat⟩, by simp, by simp⟩⟩, ⟨hat, hlive, by simp [hpc]⟩, fun i => ?_,
    fun job hjob => ?_⟩
  · unfold Waits
    simp only [hpc, true_and, reduceCtorEq, false_and, not_false_eq_true, and_true, and_assoc, ne_eq, eq_comm]
  · obtain ⟨htarget, hinternal, read, hsplit, hread⟩ := h.thread.loaded [] hpc
    refine IoJob.carriedBy_seen hjob htarget hinternal fun f hf => ?_
    rw [hsplit, List.append_nil] at hf
    exact hread f hf

/-! ## All of them -/

variable {s s' : Threads} {views : ℕ → View} {wid : ℕ}

namespace Threads

/-- The `i`-th entry of the worker `wid`. -/
def entry (s : Threads) (p : ℕ × ℕ) : IoWork := (s.ioWorkers p.1).workQueue p.2

/-- The job in the entry waits for its worker. -/
def WaitsAt (s : Threads) (views : ℕ → View) (p : ℕ × ℕ) : Prop :=
  p.1 < s.nrIoWorkers ∧ Waits (s.ioWorkers p.1) (s.task p.1) (s.threads p.1) (views p.1) p.2

theorem task_none (h : s.disp = none) (wid : ℕ) : s.task wid = none := by rw [task, h]

theorem task_some {t : Task} (h : s.disp = some (wid, t)) : s.task wid = some t := by
  simp [task, h]

theorem task_other {t : Task} {wid' : ℕ} (h : s.disp = some (wid, t)) (hne : wid' ≠ wid) : s.task wid' = none := by
  simp [task, h, Ne.symm hne]

/-- A step that changes one worker, and the call that the dispatcher is in there. -/
structure Changes (s s' : Threads) (wid : ℕ) : Prop where
  nrIoWorkers : s'.nrIoWorkers = s.nrIoWorkers
  ioWorkers : ∀ wid' ≠ wid, s'.ioWorkers wid' = s.ioWorkers wid'
  threads : ∀ wid' ≠ wid, s'.threads wid' = s.threads wid'
  task : ∀ wid' ≠ wid, s'.task wid' = s.task wid'

end Threads

/-- The invariant of all queues. -/
structure ThreadsInv (s : Threads) (views : ℕ → View) : Prop where
  workers : ∀ wid < s.nrIoWorkers, WorkerInv (s.ioWorkers wid) (s.task wid) (s.threads wid) (views wid)
  disp : ∀ wid t, s.disp = some (wid, t) → wid < s.nrIoWorkers
  ledger : Balanced (fun w job => IoJob.CarriedBy w job) s.tag s.entry s.jobs s.done (s.WaitsAt views)

/-- No entry has been handed out. -/
def View.init : View := ⟨List.range nrMaxParallelIo, [], []⟩

@[simp] theorem View.fresh_init : View.init.fresh = List.range nrMaxParallelIo := by rw [View.init]

@[simp] theorem View.recycled_init : View.init.recycled = [] := by rw [View.init]

@[simp] theorem View.io_init : View.init.io = [] := by rw [View.init]

theorem View.not_used_init (i : ℕ) : ¬ View.init.Used i := by
  rintro ⟨hlt, hmem⟩
  rw [View.fresh_init, List.mem_range] at hmem
  exact hmem hlt

theorem taskInv_init (id : ℕ) : TaskInv (IoWorker.init id) View.init none := by
  have hq : Queues (IoWorker.init id) (View.init.fresh ++ View.init.recycled) View.init.io := by
    rw [View.fresh_init, View.recycled_init, View.io_init, List.append_nil]
    exact queues_init id
  exact hq

theorem threadsInv_init (n : ℕ) : ThreadsInv (Threads.init n) fun _ => View.init where
  workers := by
    intro wid _
    exact ⟨taskInv_init wid, fun i hi => absurd hi (by simp), .inl rfl,
      fun i hi => absurd hi (View.not_used_init i), .inl rfl, fun i hi => absurd hi (View.not_used_init i),
      .of_not_handles (.inl rfl) id⟩
  disp := nofun
  ledger := by
    refine (Balanced.empty _ _ (Threads.init n).entry).congr ?_ fun _ _ h => h.elim
    rintro ⟨wid, i⟩
    refine iff_of_false (fun h => ?_) id
    rcases h.2.1 with hmem | hfilled
    · simp at hmem
    · cases hfilled

namespace ThreadsInv

theorem workers_update (h : ThreadsInv s views) (wid : ℕ) (v' : View) (hc : s.Changes s' wid)
    (hinv : WorkerInv (s'.ioWorkers wid) (s'.task wid) (s'.threads wid) v') :
    ∀ wid' < s'.nrIoWorkers,
      WorkerInv (s'.ioWorkers wid') (s'.task wid') (s'.threads wid') (update views wid v' wid') := by
  intro wid' hwid'
  by_cases heq : wid' = wid
  · subst heq
    rwa [update_self]
  · rw [hc.ioWorkers _ heq, hc.task _ heq, hc.threads _ heq, update_of_ne heq]
    exact h.workers wid' (hc.nrIoWorkers ▸ hwid')

/-- **A step that keeps the invariant of a queue, and the jobs that wait there.** -/
theorem step (h : ThreadsInv s views) (wid : ℕ) (v' : View) (hc : s.Changes s' wid)
    (hdisp : ∀ wid t, s'.disp = some (wid, t) → wid < s'.nrIoWorkers) (hjobs : s'.jobs = s.jobs)
    (htag : s'.tag = s.tag) (hdone : s'.done = s.done)
    (hk : Keeps (s.ioWorkers wid) (s.task wid) (s.threads wid) (views wid) (s'.ioWorkers wid) (s'.task wid)
      (s'.threads wid) v') : ThreadsInv s' (update views wid v') := by
  refine ⟨h.workers_update wid v' hc hk.inv, hdisp, ?_⟩
  rw [hjobs, htag, hdone]
  refine h.ledger.congr ?_ ?_
  · rintro ⟨wid', i⟩
    unfold Threads.WaitsAt
    rw [hc.nrIoWorkers]
    by_cases heq : wid' = wid
    · subst heq
      rw [update_self, hk.waits]
    · rw [hc.ioWorkers _ heq, hc.task _ heq, hc.threads _ heq, update_of_ne heq]
  · rintro ⟨wid', i⟩ job hwaits hjob
    unfold Threads.entry at hjob ⊢
    by_cases heq : wid' = wid
    · subst heq
      exact hk.carried i job hwaits.2 hjob
    · rwa [hc.ioWorkers _ heq]

theorem call (h : ThreadsInv s views) (hn : 0 < s.nrIoWorkers) (hidle : s.disp = none) (clock : ℕ) (job : IoJob)
    (hroom : ((s.ioWorkers (s.workerOf job)).workQueue (s.ioWorkers (s.workerOf job)).freeSeq).next <
      nrMaxParallelIo) : ∃ views, ThreadsInv (s.call clock job) views := by
  have hwid : s.workerOf job < s.nrIoWorkers := Nat.mod_lt _ hn
  have hcall : s.call clock job = { s with
      ioWorkers := update s.ioWorkers (s.workerOf job) { s.ioWorkers (s.workerOf job) with
        freeSeq := ((s.ioWorkers (s.workerOf job)).workQueue (s.ioWorkers (s.workerOf job)).freeSeq).next }
      disp := some (s.workerOf job, .fill (s.ioWorkers (s.workerOf job)).freeSeq job clock job.fields) } := by
    rw [Threads.call, IoWorker.allocateWorkQueueEntry, if_neg (Nat.not_le.2 hroom)]
  generalize s.workerOf job = wid at hwid hroom hcall
  have hinv := h.workers wid hwid
  rw [Threads.task_none hidle] at hinv
  have hk := hinv.call hroom clock job
  rw [hcall]
  refine ⟨_, h.step wid (views wid) ⟨rfl, fun _ hne => update_of_ne hne _ _, fun _ _ => rfl,
    fun _ hne => ?_⟩ ?_ rfl rfl rfl ?_⟩
  · rw [Threads.task_other rfl hne, Threads.task_none hidle]
  · rintro wid' t ht
    obtain ⟨rfl, -⟩ := Prod.mk.inj (Option.some.inj ht)
    exact hwid
  · rw [Threads.task_none hidle, Threads.task_some rfl]
    dsimp only
    rw [update_self]
    exact hk

theorem reclaim (h : ThreadsInv s views) (hidle : s.disp = none) (hwid : wid < s.nrIoWorkers) :
    ∃ views, ThreadsInv (s.reclaim wid) views := by
  have hinv := h.workers wid hwid
  rw [Threads.task_none hidle] at hinv
  refine ⟨_, h.step wid (views wid) ⟨rfl, fun _ _ => rfl, fun _ _ => rfl, fun _ hne => ?_⟩ ?_
    rfl rfl rfl ?_⟩
  · rw [Threads.task_other rfl hne, Threads.task_none hidle]
  · rintro wid' t ht
    obtain ⟨rfl, -⟩ := Prod.mk.inj (Option.some.inj ht)
    exact hwid
  · rw [Threads.task_none hidle, Threads.task_some rfl]
    exact hinv.reclaim

theorem access_other {t : Task} (h : ThreadsInv s views) (hbusy : s.disp = some (wid, t))
    (hfills : t.halfFilled = none) : ∃ views, ThreadsInv s.access views := by
  have hwid := h.disp wid t hbusy
  have hinv := h.workers wid hwid
  rw [Threads.task_some hbusy] at hinv
  obtain ⟨v', hk⟩ := hinv.access hfills
  rw [Threads.access_eq hbusy hfills]
  refine ⟨_, h.step wid v' ⟨rfl, fun _ hne => update_of_ne hne _ _, fun _ _ => rfl,
    fun wid' hne => ?_⟩ ?_ rfl rfl rfl ?_⟩
  · rw [Threads.task_other hbusy hne]
    cases hstep : (t.step (s.ioWorkers wid)).2 with
    | none => exact Threads.task_none rfl wid'
    | some t' => exact Threads.task_other rfl hne
  · intro wid' t' ht'
    obtain ⟨t'', -, heq⟩ := Option.map_eq_some_iff.1 ht'
    obtain ⟨rfl, -⟩ := Prod.mk.inj heq
    exact hwid
  · have htask : Threads.task { s with
        ioWorkers := update s.ioWorkers wid (t.step (s.ioWorkers wid)).1
        disp := (t.step (s.ioWorkers wid)).2.map (wid, ·) } wid = (t.step (s.ioWorkers wid)).2 := by
      cases hstep : (t.step (s.ioWorkers wid)).2 with
      | none => exact Threads.task_none rfl wid
      | some t' => exact Threads.task_some rfl
    rw [Threads.task_some hbusy, htask]
    dsimp only
    rw [update_self]
    exact hk

theorem access_fill {e clock : ℕ} {job : IoJob} {f : Field} {fields : List Field} (h : ThreadsInv s views)
    (hbusy : s.disp = some (wid, .fill e job clock (f :: fields))) : ∃ views, ThreadsInv s.access views := by
  have hwid := h.disp wid _ hbusy
  have hinv := h.workers wid hwid
  rw [Threads.task_some hbusy] at hinv
  obtain ⟨v', hs⟩ := hinv.store
  generalize hw : (s.ioWorkers wid).set e (f.copy (job.values clock) ((s.ioWorkers wid).workQueue e)) = w' at hs
  have hdisp {s' : Threads} (hnr : s'.nrIoWorkers = s.nrIoWorkers)
      (hs' : s'.disp = some (wid, .fill e job clock fields)) :
      ∀ wid t, s'.disp = some (wid, t) → wid < s'.nrIoWorkers := by
    intro wid' t ht
    rw [hs'] at ht
    obtain ⟨rfl, -⟩ := Prod.mk.inj (Option.some.inj ht)
    rwa [hnr]
  cases fields with
  | cons g fields =>
    have haccess : s.access = { s with
        ioWorkers := update s.ioWorkers wid w', disp := some (wid, .fill e job clock (g :: fields)) } := by
      rw [Threads.access, hbusy, ← hw]
      rfl
    rw [haccess]
    refine ⟨_, h.step wid v' ⟨rfl, fun _ hne => update_of_ne hne _ _, fun _ _ => rfl,
      fun wid' hne => ?_⟩ (hdisp rfl rfl) rfl rfl rfl ?_⟩
    · rw [Threads.task_other hbusy hne]
      exact Threads.task_other rfl hne
    · rw [Threads.task_some hbusy, Threads.task_some rfl]
      dsimp only
      rw [update_self]
      exact hs.keeps _ rfl
  | nil =>
    have haccess : s.access = { s with
        ioWorkers := update s.ioWorkers wid w'
        disp := some (wid, .fill e job clock [])
        jobs := s.jobs ++ [job]
        tag := update s.tag (wid, e) s.jobs.length } := by
      rw [Threads.access, hbusy, ← hw]
      rfl
    obtain ⟨hcarried, hnot, hwaits, hkept⟩ := hs.handed_over (some (.fill e job clock [f])) rfl
    rw [haccess]
    refine ⟨update views wid v', h.workers_update wid v' ⟨rfl, fun _ hne => update_of_ne hne _ _,
      fun _ _ => rfl, fun wid' hne => ?_⟩ ?_, hdisp rfl rfl, ?_⟩
    · rw [Threads.task_other hbusy hne]
      exact Threads.task_other rfl hne
    · rw [Threads.task_some rfl]
      dsimp only
      rw [update_self]
      exact hs.inv
    · have hat {i : ℕ} : s.WaitsAt views (wid, i) ↔
          Waits (s.ioWorkers wid) (some (.fill e job clock [f])) (s.threads wid) (views wid) i := by
        unfold Threads.WaitsAt
        rw [Threads.task_some hbusy]
        exact and_iff_right hwid
      have hentry : ∀ p (job' : IoJob), s.WaitsAt views p → job'.CarriedBy (s.entry p) →
          job'.CarriedBy ((update s.ioWorkers wid w' p.1).workQueue p.2) := by
        rintro ⟨wid', i⟩ job' hp hjob'
        unfold Threads.entry at hjob'
        dsimp only at hjob' ⊢
        by_cases heq : wid' = wid
        · subst heq
          rw [update_self]
          exact hkept i job' (hat.1 hp) hjob'
        · rwa [update_of_ne heq]
      have hissued := (h.ledger.congr (fun _ => Iff.rfl) hentry).issue (a := (wid, e)) (b := job)
        (fun hp => hnot (hat.1 hp)) ?_
      · refine hissued.congr ?_ fun _ _ _ => id
        rintro ⟨wid', i⟩
        unfold Threads.WaitsAt
        by_cases heq : wid' = wid
        · subst heq
          rw [Threads.task_some rfl, Threads.task_some hbusy]
          simp only [update_self, hwaits, hwid, true_and, Prod.mk.injEq]
        · rw [Threads.task_other rfl heq, Threads.task_other hbusy heq]
          simp [heq]
      · dsimp only
        rw [update_self]
        exact hcarried

/-- **An access of the dispatcher.** -/
theorem access (h : ThreadsInv s views) : ∃ views, ThreadsInv s.access views := by
  cases hdisp : s.disp with
  | none =>
    refine ⟨views, ?_⟩
    rw [Threads.access, hdisp]
    exact h
  | some p =>
    obtain ⟨wid, t⟩ := p
    cases hfills : t.halfFilled with
    | none => exact h.access_other hdisp hfills
    | some e =>
      cases t with
      | fill e job clock fields =>
        cases fields with
        | nil => cases hfills
        | cons f fields => exact h.access_fill hdisp
      | _ => cases hfills

/-- **A turn of a worker.** -/
theorem turn (h : ThreadsInv s views) (hwid : wid < s.nrIoWorkers)
    (hcalm : ¬ Torn (s.ioWorkers wid) (s.task wid) (s.threads wid)) (currNsecs : ℕ) :
    ∃ views, ThreadsInv (s.turn wid currNsecs) views := by
  have hinv := h.workers wid hwid
  have hchanges : s.Changes (s.turn wid currNsecs) wid :=
    ⟨rfl, fun _ hne => update_of_ne hne _ _, fun _ hne => update_of_ne hne _ _, fun _ _ => rfl⟩
  have hw : (s.turn wid currNsecs).ioWorkers wid = ((s.threads wid).step (s.ioWorkers wid) currNsecs).1 :=
    update_self _ _ _
  have hth : (s.turn wid currNsecs).threads wid = ((s.threads wid).step (s.ioWorkers wid) currNsecs).2 :=
    update_self _ _ _
  have htask (wid' : ℕ) : (s.turn wid currNsecs).task wid' = s.task wid' := rfl
  by_cases hpc : (s.threads wid).pc = .load []
  · obtain ⟨hpost, hat, hwaits, hseen⟩ := hinv.post hpc
    have hstep : (s.threads wid).step (s.ioWorkers wid) currNsecs =
        (s.ioWorkers wid, { s.threads wid with pc := .setCompleted }) := by
      rw [WorkerThread.step, hpc]
    rw [hstep] at hw hth
    have hentry : (s.turn wid currNsecs).entry = s.entry := by
      funext ⟨wid', i⟩
      unfold Threads.entry
      by_cases heq : wid' = wid
      · rw [heq, hw]
      · rw [hchanges.ioWorkers _ heq]
    refine ⟨update views wid (views wid), h.workers_update wid (views wid) hchanges ?_, h.disp, ?_⟩
    · rw [hw, hth, htask]
      exact hpost
    · have hloaded : ∀ p (job : IoJob), s.WaitsAt views p → job.CarriedBy (s.entry p) →
          job.CarriedBy (update s.entry (wid, (s.threads wid).curr) (s.threads wid).seen p) := by
        intro p job _ hjob
        by_cases heq : p = (wid, (s.threads wid).curr)
        · subst heq
          rw [update_self]
          exact hseen job hjob
        · rwa [update_of_ne heq]
      have hsettled := (h.ledger.congr (fun _ => Iff.rfl) hloaded).settle (a := (wid, (s.threads wid).curr))
        ⟨hwid, hat⟩
      rw [update_self] at hsettled
      have hdone : (s.turn wid currNsecs).done =
          s.done ++ [(s.tag (wid, (s.threads wid).curr), (s.threads wid).seen)] := if_pos hpc
      rw [hdone, hentry]
      refine hsettled.congr ?_ ?_
      · rintro ⟨wid', i⟩
        unfold Threads.WaitsAt
        rw [hchanges.nrIoWorkers, htask, update_eq_self]
        by_cases heq : wid' = wid
        · subst heq
          dsimp only
          rw [hw, hth, hwaits]
          simp only [ne_eq, Prod.mk.injEq, true_and, and_assoc]
        · dsimp only
          rw [hchanges.ioWorkers _ heq, hchanges.threads _ heq]
          simp [heq]
      · rintro p job ⟨-, hne⟩ hjob
        rwa [update_of_ne hne] at hjob
  · refine ⟨_, h.step wid (views wid) hchanges h.disp rfl rfl (if_neg hpc) ?_⟩
    rw [hw, hth, htask]
    exact hinv.turn hcalm hpc currNsecs

end ThreadsInv

end WaitGc

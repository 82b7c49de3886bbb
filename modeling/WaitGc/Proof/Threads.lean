/-
  WAITGC verification — the jobs of the I/O workers, access by access.

  While the dispatcher is in a call, the lists of a queue are not what they were,
  and not yet what they will be.  `TaskInv` says where it stands: which entry
  stands apart and which of its fields are stored, or that the stores it has yet
  to make lead to two lists as they should be, and that no entry but the new one
  goes missing on the way (`Stays`).

  A worker relies on little: the cursor is on an entry that has been handed out
  before (`View.Used`), the links of such entries lead to such entries, and one
  that is not completed is pending, or the one that the dispatcher puts a job
  into.  `WorkerInv` is both, and is kept by every access of either.
-/
import WaitGc.Io.Threads
import WaitGc.Proof.Pool

namespace WaitGc

open Outcome Function Chain Ledger

variable {w w' : IoWorker} {free io : List ℕ} {e i curr first last clock : ℕ} {job : IoJob} {f : Field}
  {x y : IoWork} {todo : List LinkStore} {st : LinkStore}

/-! ## Fields -/

theorem Field.copy_copy (f : Field) (x e : IoWork) : f.copy x (f.copy x e) = f.copy x e := by
  cases f <;> rfl

theorem Field.copy_comm (f g : Field) (x e : IoWork) : f.copy x (g.copy x e) = g.copy x (f.copy x e) := by
  cases f <;> cases g <;> rfl

/-- A field that is there stays when another one is stored. -/
theorem Field.copy_keep {g : Field} (h : g.copy x y = y) (f : Field) : g.copy x (f.copy x y) = f.copy x y := by
  rw [Field.copy_comm, h]

theorem Field.copy_body (hnext : f ≠ .next) (hprev : f ≠ .prev) (x y : IoWork) :
    f.copy x.body y = f.copy x y := by
  cases f <;> first | rfl | contradiction

theorem IoJob.foldl_fields (job : IoJob) (clock : ℕ) (x : IoWork) :
    job.fields.foldl (fun y f => f.copy (job.values clock) y) x = job.fill x clock := by
  cases job <;> rfl

theorem IoJob.fields_nodup (job : IoJob) : job.fields.Nodup := by
  cases job <;> simp [IoJob.fields]

theorem IoJob.fields_ne_nil (job : IoJob) : job.fields ≠ [] := by
  cases job <;> simp [IoJob.fields]

theorem IoJob.next_mem_fields (job : IoJob) : Field.next ∈ job.fields := by
  cases job <;> simp [IoJob.fields]

theorem IoJob.filled (h : ∀ f ∈ job.fields, f.copy (job.values clock) x = x) :
    job.CarriedBy x ∧ x.isCompleted = false ∧ x.next = nil32 ∧ x.prev = nil32 := by
  have hfold : ∀ fields : List Field, (∀ f ∈ fields, f.copy (job.values clock) x = x) →
      fields.foldl (fun y f => f.copy (job.values clock) y) x = x := by
    intro fields hfields
    induction fields with
    | nil => rfl
    | cons f fields ih =>
      rw [List.foldl_cons, hfields f List.mem_cons_self]
      exact ih fun g hg => hfields g (List.mem_cons_of_mem _ hg)
  have hx : job.fill x clock = x := by rw [← job.foldl_fields, hfold _ h]
  rw [← hx]
  refine ⟨job.carriedBy_fill x clock, ?_, job.next_fill x clock, job.prev_fill x clock⟩
  cases job <;> rfl

theorem IoJob.carriedBy_seen {seen : IoWork} (h : job.CarriedBy x)
    (htarget : Field.nsecsTarget.copy x seen = seen) (hinternal : Field.isInternal.copy x seen = seen)
    (hloads : ∀ f ∈ loads x.isInternal, f.copy x seen = seen) : job.CarriedBy seen := by
  have hget {α : Type} (field : IoWork → α) {f : Field} (hf : f.copy x seen = seen) :
      field (f.copy x seen) = field seen := congrArg field hf
  have ht : x.nsecsTarget = seen.nsecsTarget := hget IoWork.nsecsTarget htarget
  have hi : x.isInternal = seen.isInternal := hget IoWork.isInternal hinternal
  cases job with
  | io sqid cqid sqEntry commandId nsecsStart nsecsTarget status result =>
    obtain ⟨hint, hsq, hcq, hent, hid, htgt, hst, h0, h1⟩ := h
    rw [hint] at hloads
    have hload (f : Field) (hf : f ∈ loads false) := hloads f hf
    refine ⟨hi ▸ hint, ?_, ?_, ?_, ?_, ht ▸ htgt, ?_, ?_, ?_⟩
    · rw [← hsq]; exact (hget IoWork.sqid (hload .sqid (by decide))).symm
    · rw [← hcq]; exact (hget IoWork.cqid (hload .cqid (by decide))).symm
    · rw [← hent]; exact (hget IoWork.sqEntry (hload .sqEntry (by decide))).symm
    · rw [← hid]; exact (hget IoWork.commandId (hload .commandId (by decide))).symm
    · rw [← hst]; exact (hget IoWork.status (hload .status (by decide))).symm
    · rw [← h0]; exact (hget IoWork.result0 (hload .result0 (by decide))).symm
    · rw [← h1]; exact (hget IoWork.result1 (hload .result1 (by decide))).symm
  | internal sqid nsecsTarget writeBuffer buffsToRelease =>
    obtain ⟨hint, htgt, hbuf, hrel⟩ := h
    rw [hint] at hloads
    refine ⟨hi ▸ hint, ht ▸ htgt, ?_, ?_⟩
    · rw [← hbuf]; exact (hget IoWork.writeBuffer (hloads .writeBuffer (by decide))).symm
    · rw [← hrel]; exact (hget IoWork.buffsToRelease (hloads .buffsToRelease (by decide))).symm

/-! ## Links -/

/-- The links are the same, and the ends of the lists. -/
structure SameLinks (w w' : IoWorker) : Prop where
  nexts : nexts w'.workQueue = nexts w.workQueue
  prevs : prevs w'.workQueue = prevs w.workQueue
  freeSeq : w'.freeSeq = w.freeSeq
  freeSeqEnd : w'.freeSeqEnd = w.freeSeqEnd
  ioSeq : w'.ioSeq = w.ioSeq
  ioSeqEnd : w'.ioSeqEnd = w.ioSeqEnd

namespace SameLinks

theorem lists (h : SameLinks w w') (hl : Lists w free io) : Lists w' free io := by
  refine ⟨?_, ?_, ?_, fun hio => ?_⟩
  · rw [h.nexts, h.freeSeq]; exact hl.freeChain
  · rw [h.freeSeqEnd]; exact hl.freeEnd
  · rw [h.nexts, h.ioSeq]; exact hl.ioChain
  · rw [h.prevs, h.ioSeqEnd]; exact hl.ioBack hio

theorem queues (h : SameLinks w w') (hq : Queues w free io) : Queues w' free io :=
  ⟨h.lists hq.toLists, hq.perm⟩

theorem apart (h : SameLinks w w') (ha : Apart w e free io) : Apart w' e free io :=
  ⟨h.lists ha.toLists, ha.perm, by rw [h.nexts]; exact ha.next, by rw [h.prevs]; exact ha.prev⟩

theorem pending (h : SameLinks w w') (hp : w.Pending i) : w'.Pending i := by
  obtain ⟨io, hio, hnil, hi⟩ := hp
  exact ⟨io, by rw [h.nexts, h.ioSeq]; exact hio, hnil, hi⟩

theorem apply (h : SameLinks w w') (st : LinkStore) : SameLinks (st.apply w) (st.apply w') := by
  cases st with
  | next i v =>
    refine ⟨?_, ?_, h.freeSeq, h.freeSeqEnd, h.ioSeq, h.ioSeqEnd⟩
    · simp [LinkStore.apply, h.nexts]
    · simp [LinkStore.apply, h.prevs]
  | prev i v =>
    refine ⟨?_, ?_, h.freeSeq, h.freeSeqEnd, h.ioSeq, h.ioSeqEnd⟩
    · simp [LinkStore.apply, h.nexts]
    · simp [LinkStore.apply, h.prevs]
  | ioSeq v => exact ⟨h.nexts, h.prevs, h.freeSeq, h.freeSeqEnd, rfl, h.ioSeqEnd⟩
  | ioSeqEnd v => exact ⟨h.nexts, h.prevs, h.freeSeq, h.freeSeqEnd, h.ioSeq, rfl⟩
  | freeSeqEnd v => exact ⟨h.nexts, h.prevs, h.freeSeq, rfl, h.ioSeq, h.ioSeqEnd⟩

theorem stores (h : SameLinks w w') (todo : List LinkStore) : SameLinks (w.stores todo) (w'.stores todo) := by
  induction todo generalizing w w' with
  | nil => exact h
  | cons st todo ih => exact ih (h.apply st)

end SameLinks

theorem sameLinks_set (hnext : x.next = (w.workQueue i).next) (hprev : x.prev = (w.workQueue i).prev) :
    SameLinks w (w.set i x) := by
  refine ⟨?_, ?_, rfl, rfl, rfl, rfl⟩
  · rw [IoWorker.workQueue_set, nexts_update, hnext]
    exact update_eq_self _ _
  · rw [IoWorker.workQueue_set, prevs_update, hprev]
    exact update_eq_self _ _

theorem sameLinks_tick (w : IoWorker) (currNsecs : ℕ) : SameLinks w (w.tick currNsecs) :=
  ⟨rfl, rfl, rfl, rfl, rfl, rfl⟩

theorem LinkStore.bodies_apply (w : IoWorker) (st : LinkStore) :
    bodies (st.apply w).workQueue = bodies w.workQueue := by
  cases st with
  | next i v => exact w.bodies_setNext i v
  | prev i v => exact w.bodies_setPrev i v
  | _ => rfl

theorem stores_firstStores (w : IoWorker) (e : ℕ) :
    w.stores (IoWorker.firstStores e) = { w with ioSeq := e, ioSeqEnd := e } := rfl

/-- **The stores of `__insert_req_sorted`**, one after the other, are those of `link`. -/
theorem stores_linkStores (w : IoWorker) (e curr : ℕ) : w.stores (w.linkStores e curr) = w.link e curr := by
  unfold IoWorker.linkStores IoWorker.link
  split_ifs with hnil hend
  · rfl
  · rfl
  · have hprev : ((w.setPrev e curr).workQueue curr).next = (w.workQueue curr).next := by
      change nexts (w.setPrev e curr).workQueue curr = nexts w.workQueue curr
      rw [IoWorker.nexts_setPrev]
    have hnext (v : ℕ) : (((w.setPrev e curr).setNext e v).workQueue e).next = v := by
      change nexts ((w.setPrev e curr).setNext e v).workQueue e = v
      rw [IoWorker.nexts_setNext, update_self]
    dsimp only
    rw [hprev, hnext]
    rfl

/-- **The stores of `__reclaim_completed_reqs`** are those of `giveBack`. -/
theorem stores_giveBackStores (w : IoWorker) (first last : ℕ) :
    w.stores (w.giveBackStores first last) = w.giveBack first last := by
  unfold IoWorker.giveBackStores IoWorker.giveBack
  dsimp only
  split_ifs <;> rfl

/-! ## Stores on the way -/

/-- The store leaves the chain of the pending entries `l` alone. -/
def LinkStore.Avoids (l : List ℕ) : LinkStore → Prop
  | ioSeq _ => False
  | next i _ => i ∉ l
  | prev .. | ioSeqEnd _ | freeSeqEnd _ => True

/-- The entries in `keep` are pending, and stay so while the stores are made. -/
def Stays (keep : ℕ → Prop) : IoWorker → List LinkStore → Prop
  | w, [] => ∀ i, keep i → w.Pending i
  | w, st :: todo => (∀ i, keep i → w.Pending i) ∧ Stays keep (st.apply w) todo

namespace Stays

variable {keep : ℕ → Prop}

theorem now (h : Stays keep w todo) (hi : keep i) : w.Pending i := by
  cases todo with
  | nil => exact h i hi
  | cons st todo => exact h.1 i hi

theorem congr (h : Stays keep w todo) (hw : SameLinks w w') : Stays keep w' todo := by
  induction todo generalizing w w' with
  | nil => exact fun i hi => hw.pending (h i hi)
  | cons st todo ih => exact ⟨fun i hi => hw.pending (h.1 i hi), ih h.2 (hw.apply st)⟩

theorem of_avoids {l : List ℕ} (hchain : Linked (nexts w.workQueue) w.ioSeq l nil32) (hnil : nil32 ∉ l)
    (hkeep : ∀ i, keep i → i ∈ l) (htodo : ∀ st ∈ todo, LinkStore.Avoids l st) : Stays keep w todo := by
  have hnow {w : IoWorker} (hchain : Linked (nexts w.workQueue) w.ioSeq l nil32) (i : ℕ) (hi : keep i) :
      w.Pending i := ⟨l, hchain, hnil, hkeep i hi⟩
  induction todo generalizing w with
  | nil => exact hnow hchain
  | cons st todo ih =>
    refine ⟨hnow hchain, ih ?_ fun st hst => htodo st (List.mem_cons_of_mem _ hst)⟩
    have hst := htodo st List.mem_cons_self
    cases st with
    | next i v =>
      change Linked (nexts (w.setNext i v).workQueue) w.ioSeq l nil32
      rw [IoWorker.nexts_setNext]
      exact hchain.update hst v
    | prev i v =>
      change Linked (nexts (w.setPrev i v).workQueue) w.ioSeq l nil32
      rw [IoWorker.nexts_setPrev]
      exact hchain
    | ioSeq v => exact hst.elim
    | ioSeqEnd v => exact hchain
    | freeSeqEnd v => exact hchain

theorem concat (h : Stays keep w todo) (hlast : ∀ i, keep i → (w.stores (todo ++ [st])).Pending i) :
    Stays keep w (todo ++ [st]) := by
  induction todo generalizing w with
  | nil => exact ⟨h, hlast⟩
  | cons st' todo ih => exact ⟨h.1, ih h.2 hlast⟩

end Stays

/-! ## Where the dispatcher stands -/

/-- The entries of a queue: never handed out, recycled, and pending. -/
structure View where
  fresh : List ℕ
  recycled : List ℕ
  io : List ℕ

/-- The entry has been handed out before. -/
def View.Used (v : View) (i : ℕ) : Prop := i < nrMaxParallelIo ∧ i ∉ v.fresh

/-- The store leads to such an entry, if anywhere. -/
def LinkStore.Leads (v : View) : LinkStore → Prop
  | next _ x | ioSeq x => x = nil32 ∨ v.Used x
  | prev .. | ioSeqEnd _ | freeSeqEnd _ => True

/-- The entry that the dispatcher puts a job into. -/
def Task.entry : Task → Option ℕ
  | fill entry .. | scan entry .. | link entry _ => some entry
  | look .. | giveBack _ => none

/-- That entry, once its fields are stored. -/
def Task.filled : Task → Option ℕ
  | fill entry _ _ [] | scan entry .. | link entry _ => some entry
  | fill .. | look .. | giveBack _ => none

/-- That entry, while there are fields to store. -/
def Task.halfFilled : Task → Option ℕ
  | fill entry _ _ (_ :: _) => some entry
  | fill _ _ _ [] | scan .. | link .. | look .. | giveBack _ => none

/-- An access of the dispatcher that stores no field hands no job over. -/
theorem Threads.access_eq {s : Threads} {wid : ℕ} {t : Task} (hbusy : s.disp = some (wid, t))
    (hfills : t.halfFilled = none) : s.access = { s with
      ioWorkers := update s.ioWorkers wid (t.step (s.ioWorkers wid)).1
      disp := (t.step (s.ioWorkers wid)).2.map (wid, ·) } := by
  have hnote : s.note wid t = s := by
    cases t with
    | fill e job clock fields =>
      cases fields with
      | nil => rfl
      | cons f fields => cases hfills
    | _ => rfl
  rw [Threads.access, hbusy]
  dsimp only
  rw [hnote]

/-- The fields of `entry` are stored up to `todo`; it was the first of the free ones. -/
structure Filling (w : IoWorker) (v : View) (free : List ℕ) (entry : ℕ) (job : IoJob) (clock : ℕ)
    (todo : List Field) : Prop where
  lists : Lists w free v.io
  perm : (entry :: (free ++ v.io)).Perm (List.range nrMaxParallelIo)
  -- until its link is stored, it counts as what it was
  before : Field.next ∈ todo → v.fresh ++ v.recycled = entry :: free
  after : Field.next ∉ todo → v.fresh ++ v.recycled = free
  stored : ∃ stored, job.fields = stored ++ todo ∧
    ∀ f ∈ stored, f.copy (job.values clock) (w.workQueue entry) = w.workQueue entry

/-- What is true of a queue while the dispatcher is in a call. -/
def TaskInv (w : IoWorker) (v : View) : Option Task → Prop
  | none => Queues w (v.fresh ++ v.recycled) v.io
  | some (.fill entry job clock (f :: todo)) => ∃ free, Filling w v free entry job clock (f :: todo)
  -- a worker whose cursor is here may mark the entry from now on
  | some (.fill entry _ _ []) => Apart w entry (v.fresh ++ v.recycled) v.io
  | some (.scan entry _ curr) => Apart w entry (v.fresh ++ v.recycled) v.io ∧ v.io ≠ [] ∧
      ∃ back front, v.io.reverse = back ++ front ∧ Linked (prevs w.workQueue) curr front nil32
  | some (.link entry todo) => Queues (w.stores todo) (v.fresh ++ v.recycled) v.io ∧ entry ∈ v.io ∧
      Stays (fun i => i ∈ v.io ∧ i ≠ entry) w todo ∧ ∀ st ∈ todo, LinkStore.Leads v st
  | some (.look firstEntry curr lastEntry check) => Queues w (v.fresh ++ v.recycled) v.io ∧
      firstEntry = w.ioSeq ∧ ∃ done rest, v.io = done ++ rest ∧ Linked (nexts w.workQueue) curr rest nil32 ∧
        lastEntry = done.getLast?.getD nil32 ∧ (∀ i ∈ done, (w.workQueue i).isCompleted = true) ∧
        (check ≠ .completed → (w.workQueue curr).isCompleted = true)
  | some (.giveBack todo) => Queues (w.stores todo) (v.fresh ++ v.recycled) v.io ∧
      Stays (· ∈ v.io) w todo ∧ ∀ st ∈ todo, LinkStore.Leads v st

/-! ## Where a worker stands -/

/-- The worker has found the entry under its cursor not completed, and is about to do with it what
    is to be done. -/
def WorkerPc.Handles : WorkerPc → Prop
  | isCopied | setCopied | nsecsTarget | isInternal | load _ | setCompleted => True
  | top | test | isCompleted | next => False

/-- What is true of the variables of a worker; `e` is the entry under its cursor. -/
structure ThreadInv (v : View) (task : Option Task) (th : WorkerThread) (e : IoWork) : Prop where
  ne_nil : th.pc = .top ∨ th.pc = .test ∨ th.curr ≠ nil32
  handles : th.pc.Handles → e.isCompleted = false ∧
    (th.curr ∈ v.io ∨ task.bind Task.filled = some th.curr)
  target : th.pc = .isInternal → Field.nsecsTarget.copy e th.seen = th.seen
  loaded : ∀ todo, th.pc = .load todo → Field.nsecsTarget.copy e th.seen = th.seen ∧
    Field.isInternal.copy e th.seen = th.seen ∧
    ∃ seen, loads e.isInternal = seen ++ todo ∧ ∀ f ∈ seen, f.copy e th.seen = th.seen

/-- The invariant of a queue, with its worker. -/
structure WorkerInv (w : IoWorker) (task : Option Task) (th : WorkerThread) (v : View) : Prop where
  disp : TaskInv w v task
  used : ∀ i ∈ v.io, v.Used i
  head : w.ioSeq = nil32 ∨ v.Used w.ioSeq
  next : ∀ i, v.Used i → nexts w.workQueue i = nil32 ∨ v.Used (nexts w.workQueue i)
  cursor : th.curr = nil32 ∨ v.Used th.curr
  live : ∀ i, v.Used i → (w.workQueue i).isCompleted = false → i ∈ v.io ∨ task.bind Task.entry = some i
  thread : ThreadInv v task th (w.workQueue th.curr)

/-- The job in the entry `i` waits for the worker. -/
def Waits (w : IoWorker) (task : Option Task) (th : WorkerThread) (v : View) (i : ℕ) : Prop :=
  (i ∈ v.io ∨ task.bind Task.filled = some i) ∧ (w.workQueue i).isCompleted = false ∧
    ¬ (th.pc = .setCompleted ∧ th.curr = i)

/-- A step keeps the invariant of a queue, and the jobs that wait there. -/
structure Keeps (w : IoWorker) (task : Option Task) (th : WorkerThread) (v : View) (w' : IoWorker)
    (task' : Option Task) (th' : WorkerThread) (v' : View) : Prop where
  inv : WorkerInv w' task' th' v'
  waits : ∀ i, Waits w' task' th' v' i ↔ Waits w task th v i
  carried : ∀ i (job : IoJob), Waits w task th v i → job.CarriedBy (w.workQueue i) →
    job.CarriedBy (w'.workQueue i)

end WaitGc

/-
  WAITGC verification — what an access of the dispatcher keeps.

  Every access of the dispatcher keeps the invariant of the queue and the jobs
  that wait there (`Keeps`), but for one: the store of the last field of an entry
  hands a job over (`FieldStored.handed_over`).
-/
import WaitGc.Proof.Threads

namespace WaitGc

open Outcome Function Chain Ledger

variable {w w' : IoWorker} {free io : List ℕ} {e i curr first last clock : ℕ} {job : IoJob} {f : Field}
  {x y : IoWork} {todo : List LinkStore} {fields : List Field} {st : LinkStore} {v v' : View}
  {th th' : WorkerThread} {task task' : Option Task}

/-! ## Frames -/

theorem isCompleted_of_body (h : y.body = x.body) : y.isCompleted = x.isCompleted := by
  rw [show y.isCompleted = y.body.isCompleted from rfl, h]
  rfl

theorem isInternal_of_body (h : y.body = x.body) : y.isInternal = x.isInternal := by
  rw [show y.isInternal = y.body.isInternal from rfl, h]
  rfl

theorem Field.copy_congr (h : y.body = x.body) (hnext : f ≠ .next) (hprev : f ≠ .prev) (z : IoWork) :
    f.copy y z = f.copy x z := by
  rw [← Field.copy_body hnext hprev y, h, Field.copy_body hnext hprev]

theorem loads_ne : ∀ b, ∀ f ∈ loads b, f ≠ .next ∧ f ≠ .prev := by decide

theorem ThreadInv.frame (h : ThreadInv v task th x) (hbody : th.pc.Handles → y.body = x.body)
    (hmem : th.pc.Handles → x.isCompleted = false → th.curr ∈ v.io ∨ task.bind Task.filled = some th.curr →
      th.curr ∈ v'.io ∨ task'.bind Task.filled = some th.curr) : ThreadInv v' task' th y := by
  refine ⟨h.ne_nil, fun hpc => ?_, fun hpc => ?_, fun todo hpc => ?_⟩
  · obtain ⟨hlive, hat⟩ := h.handles hpc
    exact ⟨(isCompleted_of_body (hbody hpc)).trans hlive, hmem hpc hlive hat⟩
  · rw [Field.copy_congr (hbody (hpc ▸ trivial)) (by decide) (by decide)]
    exact h.target hpc
  · have hy := hbody (hpc ▸ trivial)
    obtain ⟨htarget, hinternal, seen, hsplit, hseen⟩ := h.loaded todo hpc
    rw [Field.copy_congr hy (by decide) (by decide), Field.copy_congr hy (by decide) (by decide),
      isInternal_of_body hy]
    refine ⟨htarget, hinternal, seen, hsplit, fun f hf => ?_⟩
    obtain ⟨hnext, hprev⟩ := loads_ne _ f (hsplit ▸ List.mem_append_left _ hf)
    rw [Field.copy_congr hy hnext hprev]
    exact hseen f hf

theorem Lists.set_apart (h : Lists w free io) (hfree : e ∉ free) (hio : e ∉ io) (x : IoWork) :
    Lists (w.set e x) free io := by
  refine ⟨?_, h.freeEnd, ?_, fun hne => ?_⟩
  · rw [IoWorker.workQueue_set, nexts_update]
    exact h.freeChain.update hfree _
  · rw [IoWorker.workQueue_set, nexts_update]
    exact h.ioChain.update hio _
  · rw [IoWorker.workQueue_set, prevs_update]
    exact (h.ioBack hne).update (by rwa [List.mem_reverse]) _

/-- A step of the dispatcher that changes no entry but by its links. -/
theorem Keeps.of_bodies (h : WorkerInv w task th v) (hw : bodies w'.workQueue = bodies w.workQueue)
    (hinv : TaskInv w' v' task') (hused : ∀ i ∈ v'.io, v'.Used i)
    (hhead : w'.ioSeq = nil32 ∨ v'.Used w'.ioSeq)
    (hnext : ∀ i, v'.Used i → nexts w'.workQueue i = nil32 ∨ v'.Used (nexts w'.workQueue i))
    (hfresh : v'.fresh = v.fresh)
    (hwaits : ∀ i, (w.workQueue i).isCompleted = false →
      (i ∈ v'.io ∨ task'.bind Task.filled = some i ↔ i ∈ v.io ∨ task.bind Task.filled = some i))
    (hentry : ∀ i, (w.workQueue i).isCompleted = false → i ∈ v.io ∨ task.bind Task.entry = some i →
      i ∈ v'.io ∨ task'.bind Task.entry = some i) : Keeps w task th v w' task' th v' := by
  have hbody (i : ℕ) : (w'.workQueue i).body = (w.workQueue i).body := congrFun hw i
  have hcompleted (i : ℕ) : (w'.workQueue i).isCompleted = (w.workQueue i).isCompleted :=
    isCompleted_of_body (hbody i)
  have hiff (i : ℕ) : v'.Used i ↔ v.Used i := by
    unfold View.Used
    rw [hfresh]
  refine ⟨⟨hinv, hused, hhead, hnext, ?_, ?_, ?_⟩, fun i => ?_, fun i job _ hjob => ?_⟩
  · exact h.cursor.imp_right (hiff _).2
  · intro i hi hlive
    rw [hcompleted] at hlive
    exact hentry i hlive (h.live i ((hiff i).1 hi) hlive)
  · exact h.thread.frame (fun _ => hbody _) fun _ hlive => (hwaits _ hlive).2
  · unfold Waits
    rw [hcompleted]
    constructor
    · rintro ⟨hi, hlive, hpc⟩
      exact ⟨(hwaits i hlive).1 hi, hlive, hpc⟩
    · rintro ⟨hi, hlive, hpc⟩
      exact ⟨(hwaits i hlive).2 hi, hlive, hpc⟩
  · exact carriedBy_of_bodies (congrFun hw i) hjob

/-! ## Filling an entry -/

theorem Task.filled_cons {g : Field} : (Task.fill e job clock (g :: fields)).filled = none := rfl

theorem Task.filled_fill (hne : fields ≠ []) : (Task.fill e job clock fields).filled = none := by
  cases fields with
  | nil => exact absurd rfl hne
  | cons g fields => rfl

namespace Filling

theorem not_mem (h : Filling w v free e job clock fields) : e ∉ free ∧ e ∉ v.io := by
  have hnd : (e :: (free ++ v.io)).Nodup := h.perm.nodup_iff.2 List.nodup_range
  have he := (List.nodup_cons.1 hnd).1
  exact ⟨fun hmem => he (List.mem_append_left _ hmem), fun hmem => he (List.mem_append_right _ hmem)⟩

/-- One more field is stored. -/
theorem store (h : Filling w v free e job clock (f :: fields)) (hio : v'.io = v.io)
    (hbefore : Field.next ∈ fields → v'.fresh ++ v'.recycled = e :: free)
    (hafter : Field.next ∉ fields → v'.fresh ++ v'.recycled = free) :
    Filling (w.set e (f.copy (job.values clock) (w.workQueue e))) v' free e job clock fields := by
  obtain ⟨stored, hsplit, hstored⟩ := h.stored
  refine ⟨?_, hio ▸ h.perm, hbefore, hafter, stored ++ [f], by simpa using hsplit, fun g hg => ?_⟩
  · rw [hio]
    exact h.lists.set_apart h.not_mem.1 h.not_mem.2 _
  · rw [IoWorker.workQueue_set, update_self]
    rcases List.mem_append.1 hg with hg | hg
    · exact Field.copy_keep (hstored g hg) f
    · obtain rfl := List.mem_singleton.1 hg
      exact Field.copy_copy _ _ _

theorem apart (h : Filling w v free e job clock []) : Apart w e (v.fresh ++ v.recycled) v.io ∧
    job.CarriedBy (w.workQueue e) ∧ (w.workQueue e).isCompleted = false := by
  obtain ⟨stored, hsplit, hstored⟩ := h.stored
  rw [List.append_nil] at hsplit
  rw [← hsplit] at hstored
  obtain ⟨hcarried, hlive, hnext, hprev⟩ := IoJob.filled hstored
  refine ⟨⟨?_, ?_, hnext, hprev⟩, hcarried, hlive⟩
  · rw [h.after (by simp)]
    exact h.lists
  · rw [h.after (by simp)]
    exact h.perm

theorem taskInv (h : Filling w v free e job clock fields) : TaskInv w v (some (.fill e job clock fields)) := by
  cases fields with
  | nil => exact h.apart.1
  | cons f fields => exact ⟨free, h⟩

end Filling

/-- **`__allocate_work_queue_entry`**: the first free entry stands apart. -/
theorem WorkerInv.call (h : WorkerInv w none th v)
    (hroom : (w.workQueue w.freeSeq).next < nrMaxParallelIo) (clock : ℕ) (job : IoJob) :
    Keeps w none th v { w with freeSeq := (w.workQueue w.freeSeq).next }
      (some (.fill w.freeSeq job clock job.fields)) th v := by
  have hq : Queues w (v.fresh ++ v.recycled) v.io := h.disp
  obtain ⟨e, a, free, hfree⟩ := hq.two_free hroom
  rw [hfree] at hq
  have he : w.freeSeq = e := hq.freeChain.head
  have hnext : (w.workQueue e).next = a := hq.freeChain.2.1
  have hfilling : Filling { w with freeSeq := (w.workQueue w.freeSeq).next } v (a :: free) w.freeSeq job clock
      job.fields := by
    refine ⟨⟨?_, ?_, hq.ioChain, hq.ioBack⟩, ?_, fun _ => ?_, fun hno => absurd job.next_mem_fields hno,
      [], rfl, by simp⟩
    · rw [he, hnext]
      exact ⟨rfl, hq.freeChain.2.2⟩
    · have hend := hq.freeEnd
      rwa [List.getLast?_cons_cons] at hend
    · rw [he]
      exact hq.perm
    · rw [he, hfree]
  refine Keeps.of_bodies h rfl hfilling.taskInv h.used h.head h.next rfl (fun i _ => ?_) fun i _ hi => ?_
  · rw [Option.bind_some, Task.filled_fill job.fields_ne_nil]
    rfl
  · exact .inl (hi.resolve_right (by simp))

theorem exists_handed (h : v.fresh ++ v.recycled = e :: free) : ∃ v' : View, v'.io = v.io ∧
    v'.fresh ++ v'.recycled = free ∧ (∀ i ∈ v'.fresh, i ∈ v.fresh) ∧ ∀ i ∈ v.fresh, i = e ∨ i ∈ v'.fresh := by
  obtain ⟨fresh, recycled, io⟩ := v
  cases fresh with
  | nil =>
    obtain rfl : recycled = e :: free := h
    exact ⟨⟨[], free, io⟩, rfl, rfl, by simp, by simp⟩
  | cons a fresh =>
    obtain ⟨rfl, rfl⟩ := List.cons.inj h
    exact ⟨⟨fresh, recycled, io⟩, rfl, rfl, fun i hi => List.mem_cons_of_mem _ hi, fun i hi => List.mem_cons.1 hi⟩

/-- What a store to a field of the new entry leaves. -/
structure FieldStored (w : IoWorker) (th : WorkerThread) (v : View) (e : ℕ) (job : IoJob) (clock : ℕ)
    (fields : List Field) (w' : IoWorker) (v' : View) : Prop where
  inv : WorkerInv w' (some (.fill e job clock fields)) th v'
  filling : ∃ free, Filling w' v' free e job clock fields
  io : v'.io = v.io
  other : ∀ i ≠ e, w'.workQueue i = w.workQueue i
  apart : e ∉ v.io
  away : th.pc.Handles → th.curr ≠ e

/-- A worker that handles an entry is not at one that is half filled. -/
theorem WorkerInv.away (h : WorkerInv w task th v) (hpc : th.pc.Handles) :
    task.bind Task.halfFilled ≠ some th.curr := by
  intro hhalf
  cases task with
  | none => cases hhalf
  | some task =>
    cases task with
    | fill e job clock fields =>
      cases fields with
      | nil => cases hhalf
      | cons f fields =>
        obtain ⟨free, hf⟩ := h.disp
        rcases (h.thread.handles hpc).2 with hmem | hfilled
        · exact hf.not_mem.2 (Option.some.inj hhalf ▸ hmem)
        · cases hfilled
    | scan e nsecsTarget curr => cases hhalf
    | link e todo => cases hhalf
    | look first curr last check => cases hhalf
    | giveBack todo => cases hhalf

/-- **A field of the new entry is stored.** -/
theorem WorkerInv.store (h : WorkerInv w (some (.fill e job clock (f :: fields))) th v) :
    ∃ v', FieldStored w th v e job clock fields (w.set e (f.copy (job.values clock) (w.workQueue e))) v' := by
  obtain ⟨free, hf⟩ := h.disp
  have hio := hf.not_mem.2
  have haway (hpc : th.pc.Handles) : th.curr ≠ e := fun heq => h.away hpc (heq ▸ rfl)
  have hother (i : ℕ) (hi : i ≠ e) : (w.set e (f.copy (job.values clock) (w.workQueue e))).workQueue i =
      w.workQueue i := by
    rw [IoWorker.workQueue_set, update_of_ne hi]
  have hthread (v' : View) (hio : v'.io = v.io) : ThreadInv v' (some (.fill e job clock fields)) th
      ((w.set e (f.copy (job.values clock) (w.workQueue e))).workQueue th.curr) := by
    refine h.thread.frame (fun hpc => by rw [hother _ (haway hpc)]) fun _ _ hmem => .inl ?_
    rw [hio]
    exact hmem.resolve_right (by simp [Task.filled_cons])
  have hlive (i : ℕ) (hi : i ≠ e) (hused : v.Used i)
      (hcompleted : ((w.set e (f.copy (job.values clock) (w.workQueue e))).workQueue i).isCompleted = false) :
      i ∈ v.io := by
    rw [hother i hi] at hcompleted
    exact (h.live i hused hcompleted).resolve_right fun heq => hi (Option.some.inj heq).symm
  by_cases hfnext : f = .next
  · subst hfnext
    have hnd := job.fields_nodup
    obtain ⟨stored, hsplit, -⟩ := hf.stored
    have hno : Field.next ∉ fields := by
      rw [hsplit] at hnd
      exact (List.nodup_cons.1 (List.nodup_append'.1 hnd).2.1).1
    obtain ⟨v', hvio, hfree, hfresh, hfresh'⟩ := exists_handed (hf.before List.mem_cons_self)
    have hused {i : ℕ} (hi : v.Used i) : v'.Used i := ⟨hi.1, fun hmem => hi.2 (hfresh i hmem)⟩
    have hused' {i : ℕ} (hi : v'.Used i) (hne : i ≠ e) : v.Used i :=
      ⟨hi.1, fun hmem => hi.2 ((hfresh' i hmem).resolve_left hne)⟩
    have hfill := hf.store hvio (fun hmem => absurd hmem hno) fun _ => hfree
    refine ⟨v', ⟨hfill.taskInv, ?_, ?_, ?_, ?_, ?_, hthread v' hvio⟩, ⟨free, hfill⟩, hvio, hother, hio, haway⟩
    · intro i hi
      exact hused (h.used i (hvio ▸ hi))
    · exact h.head.imp_right hused
    · intro i hi
      by_cases hie : i = e
      · subst hie
        left
        rw [IoWorker.workQueue_set, nexts_update, update_self]
        cases job <;> rfl
      · have hn : nexts (w.set e (Field.next.copy (job.values clock) (w.workQueue e))).workQueue i =
            nexts w.workQueue i := congrArg IoWork.next (hother i hie)
        rw [hn]
        exact (h.next i (hused' hi hie)).imp_right hused
    · exact h.cursor.imp_right hused
    · intro i hi hcompleted
      by_cases hie : i = e
      · exact .inr (hie ▸ rfl)
      · exact .inl (hvio ▸ hlive i hie (hused' hi hie) hcompleted)
  · have hiff : Field.next ∈ f :: fields ↔ Field.next ∈ fields := by
      rw [List.mem_cons, or_iff_right (Ne.symm hfnext)]
    have hfill := hf.store rfl (fun hmem => hf.before (hiff.2 hmem)) fun hno => hf.after (mt hiff.1 hno)
    refine ⟨v, ⟨hfill.taskInv, h.used, h.head, ?_, h.cursor, ?_, hthread v rfl⟩, ⟨free, hfill⟩, rfl, hother, hio,
      haway⟩
    · have hn : nexts (w.set e (f.copy (job.values clock) (w.workQueue e))).workQueue = nexts w.workQueue := by
        rw [IoWorker.workQueue_set, nexts_update,
          show (f.copy (job.values clock) (w.workQueue e)).next = nexts w.workQueue e by
            cases f <;> first | rfl | contradiction]
        exact update_eq_self _ _
      rw [hn]
      exact h.next
    · intro i hi hcompleted
      by_cases hie : i = e
      · exact .inr (hie ▸ rfl)
      · exact .inl (hlive i hie hi hcompleted)

namespace FieldStored

variable {fields : List Field}

theorem waits_iff (hs : FieldStored w th v e job clock fields w' v') (task : Option Task)
    (hi : i ≠ e) (hnone : task.bind Task.filled = none) :
    Waits w' (some (.fill e job clock fields)) th v' i ↔ Waits w task th v i := by
  have hfilled : ((some (Task.fill e job clock fields)).bind Task.filled = some i) ↔ False := by
    refine iff_of_false (fun h => ?_) id
    cases fields with
    | nil => exact hi (Option.some.inj h).symm
    | cons g fields => cases h
  unfold Waits
  rw [hs.io, hs.other i hi, hfilled, hnone]
  simp

/-- **A field of the new entry is stored, and there are more.** -/
theorem keeps {g : Field} (hs : FieldStored w th v e job clock (g :: fields) w' v') (task : Option Task)
    (hnone : task.bind Task.filled = none) :
    Keeps w task th v w' (some (.fill e job clock (g :: fields))) th v' := by
  have hnot {task : Option Task} {w : IoWorker} (hnone : task.bind Task.filled = none) :
      ¬ Waits w task th v e := by
    rintro ⟨hmem, -, -⟩
    rw [hnone] at hmem
    exact hmem.elim hs.apart fun h => (nomatch h)
  refine ⟨hs.inv, fun i => ?_, fun i job hwaits hjob => ?_⟩
  · by_cases hi : i = e
    · subst hi
      refine iff_of_false (fun h => ?_) (hnot hnone)
      obtain ⟨hmem, -, -⟩ := h
      rw [hs.io] at hmem
      exact hmem.elim hs.apart fun h => (nomatch h)
    · exact hs.waits_iff task hi hnone
  · have hi : i ≠ e := fun hie => hnot hnone (hie ▸ hwaits)
    rwa [hs.other i hi]

/-- **The last field of the new entry is stored**: it carries the job, which waits. -/
theorem handed_over (hs : FieldStored w th v e job clock [] w' v') (task : Option Task)
    (hnone : task.bind Task.filled = none) :
    job.CarriedBy (w'.workQueue e) ∧ ¬ Waits w task th v e ∧
      (∀ i, Waits w' (some (.fill e job clock [])) th v' i ↔ i = e ∨ Waits w task th v i) ∧
      ∀ i (job : IoJob), Waits w task th v i → job.CarriedBy (w.workQueue i) → job.CarriedBy (w'.workQueue i) := by
  have hnot : ¬ Waits w task th v e := by
    rintro ⟨hmem, -, -⟩
    rw [hnone] at hmem
    exact hmem.elim hs.apart fun h => (nomatch h)
  obtain ⟨free, hf⟩ := hs.filling
  obtain ⟨-, hcarried, hlive⟩ := hf.apart
  refine ⟨hcarried, hnot, fun i => ?_, fun i job hwaits hjob => ?_⟩
  · by_cases hi : i = e
    · subst hi
      refine iff_of_true ⟨.inr rfl, hlive, ?_⟩ (.inl rfl)
      rintro ⟨hpc, hcurr⟩
      exact hs.away (hpc ▸ trivial) hcurr
    · rw [hs.waits_iff task hi hnone]
      exact (or_iff_right hi).symm
  · have hi : i ≠ e := fun hie => hnot (hie ▸ hwaits)
    rwa [hs.other i hi]

end FieldStored

/-! ## Linking it in -/

theorem Apart.used (h : Apart w e (v.fresh ++ v.recycled) v.io) : v.Used e := by
  refine ⟨List.mem_range.1 (h.perm.mem_iff.1 List.mem_cons_self), fun hmem => ?_⟩
  exact (List.nodup_cons.1 h.nodup).1 (List.mem_append_left _ (List.mem_append_left _ hmem))

theorem Apart.not_mem_io (h : Apart w e free io) : e ∉ io :=
  fun hmem => (List.nodup_cons.1 h.nodup).1 (List.mem_append_right _ hmem)

/-- The last store of `__insert_req_sorted` shows the new entry; the others are not seen. -/
theorem exists_publish (w : IoWorker) (e curr : ℕ) : ∃ init st, w.linkStores e curr = init ++ [st] ∧
    ∀ l : List ℕ, e ∉ l → ∀ s ∈ init, LinkStore.Avoids l s := by
  unfold IoWorker.linkStores
  split_ifs
  · exact ⟨[_, _], _, rfl, fun l hl => by simpa [LinkStore.Avoids] using hl⟩
  · exact ⟨[_, _], _, rfl, fun l hl => by simp [LinkStore.Avoids]⟩
  · exact ⟨[_, _, _], _, rfl, fun l hl => by simpa [LinkStore.Avoids] using hl⟩

/-- The stores lead to entries that have been handed out. -/
theorem linkStores_leads (he : v.Used e) (hhead : w.ioSeq = nil32 ∨ v.Used w.ioSeq)
    (hnext : curr ≠ nil32 → nexts w.workQueue curr = nil32 ∨ v.Used (nexts w.workQueue curr)) :
    ∀ st ∈ w.linkStores e curr, LinkStore.Leads v st := by
  unfold IoWorker.linkStores
  split_ifs with hnil
  · simp [LinkStore.Leads, hhead, he]
  · simp [LinkStore.Leads, he]
  · have hcurr : (w.workQueue curr).next = nil32 ∨ v.Used (w.workQueue curr).next := hnext hnil
    simp [LinkStore.Leads, hcurr, he]

theorem WorkerInv.insert_first (h : WorkerInv w (some (.fill e job clock [])) th v) (hnil : w.ioSeq = nil32) :
    ∃ v', Keeps w (some (.fill e job clock [])) th v w (some (.link e (IoWorker.firstStores e))) th v' := by
  have hapart : Apart w e (v.fresh ++ v.recycled) v.io := h.disp
  have hio : v.io = [] := by
    have hchain := hapart.ioChain
    rw [hnil] at hchain
    exact hchain.eq_nil fun hmem => hapart.ne_nil (by simp [hmem]) rfl
  obtain ⟨pre, post, hsplit, hq, -⟩ := hapart.insertReqSorted job.nsecsTarget
  rw [hio, eq_comm, List.append_eq_nil_iff] at hsplit
  obtain ⟨rfl, rfl⟩ := hsplit
  rw [IoWorker.insertReqSorted, if_pos hnil] at hq
  have hkeep (i : ℕ) : ¬ (i ∈ [e] ∧ i ≠ e) := by simp
  refine ⟨{ v with io := [e] }, Keeps.of_bodies h rfl ⟨hq, List.mem_singleton_self e, ?_, ?_⟩ ?_ h.head h.next rfl
    (fun i _ => ?_) fun i _ hi => ?_⟩
  · exact ⟨fun i hi => absurd hi (hkeep i), fun i hi => absurd hi (hkeep i), fun i hi => absurd hi (hkeep i)⟩
  · have he : ({ v with io := [e] } : View).Used e := hapart.used
    simp [IoWorker.firstStores, LinkStore.Leads, he]
  · intro i hi
    rw [List.mem_singleton.1 hi]
    exact hapart.used
  · rw [hio]
    simp [Task.filled, eq_comm]
  · rw [hio] at hi
    exact .inr (hi.resolve_left (by simp))

theorem WorkerInv.insert_scan (h : WorkerInv w (some (.fill e job clock [])) th v) (hnil : w.ioSeq ≠ nil32) :
    Keeps w (some (.fill e job clock [])) th v w (some (.scan e job.nsecsTarget w.ioSeqEnd)) th v := by
  have hapart : Apart w e (v.fresh ++ v.recycled) v.io := h.disp
  have hne : v.io ≠ [] := by
    intro hio
    have hchain := hapart.ioChain
    rw [hio] at hchain
    exact hnil hchain
  exact Keeps.of_bodies h rfl ⟨hapart, hne, [], _, rfl, hapart.ioBack hne⟩ h.used h.head h.next rfl
    (fun _ _ => Iff.rfl) fun _ _ => id

theorem WorkerInv.scan {nsecsTarget : ℕ} (h : WorkerInv w (some (.scan e nsecsTarget curr)) th v)
    (hnil : curr ≠ nil32) :
    Keeps w (some (.scan e nsecsTarget curr)) th v w (some (.scan e nsecsTarget (w.workQueue curr).prev)) th v := by
  obtain ⟨hapart, hne, back, front, hrev, hchain⟩ := h.disp
  cases front with
  | nil => exact absurd hchain hnil
  | cons c front =>
    obtain ⟨rfl, hchain⟩ := hchain
    exact Keeps.of_bodies h rfl ⟨hapart, hne, back ++ [curr], front, by simpa using hrev, hchain⟩ h.used h.head
      h.next rfl (fun _ _ => Iff.rfl) fun _ _ => id

theorem WorkerInv.publish {nsecsTarget : ℕ} (h : WorkerInv w (some (.scan e nsecsTarget curr)) th v) :
    ∃ v', Keeps w (some (.scan e nsecsTarget curr)) th v w (some (.link e (w.linkStores e curr))) th v' := by
  obtain ⟨hapart, hne, back, front, hrev, hchain⟩ := h.disp
  have hcurr : curr = front.headD nil32 := by
    cases front with
    | nil => exact hchain
    | cons c front => exact hchain.head
  have hio : v.io = front.reverse ++ back.reverse := by
    rw [← List.reverse_append, ← hrev, List.reverse_reverse]
  have hmem (i : ℕ) : i ∈ front.reverse ++ e :: back.reverse ↔ i = e ∨ i ∈ v.io := by
    rw [hio]
    simp only [List.mem_append, List.mem_cons]
    tauto
  have hq : Queues (w.stores (w.linkStores e curr)) (v.fresh ++ v.recycled)
      (front.reverse ++ e :: back.reverse) := by
    rw [stores_linkStores, hcurr, ← List.reverse_reverse front, List.reverse_reverse front.reverse]
    have hap := hapart
    rw [hio] at hap hne
    refine ⟨hap.link hne, ?_⟩
    rw [← List.append_assoc]
    refine List.perm_middle.trans ?_
    rw [List.append_assoc]
    exact hap.perm
  refine ⟨{ v with io := front.reverse ++ e :: back.reverse }, Keeps.of_bodies h rfl
    ⟨hq, (hmem e).2 (.inl rfl), ?_, ?_⟩ ?_ h.head h.next rfl (fun i _ => ?_) fun i _ hi => ?_⟩
  · obtain ⟨init, st, hsplit, havoids⟩ := exists_publish w e curr
    have hkeep (i : ℕ) (hi : i ∈ front.reverse ++ e :: back.reverse ∧ i ≠ e) : i ∈ v.io :=
      ((hmem i).1 hi.1).resolve_left hi.2
    rw [hsplit] at hq ⊢
    refine Stays.concat (Stays.of_avoids hapart.ioChain ?_ hkeep (havoids _ hapart.not_mem_io)) fun i hi => ?_
    · exact fun hnil => hapart.ne_nil (List.mem_cons_of_mem _ (List.mem_append_right _ hnil)) rfl
    · exact hq.pending_iff.2 hi.1
  · refine linkStores_leads hapart.used h.head fun hnil => h.next curr (h.used curr ?_)
    rw [hcurr] at hnil ⊢
    cases front with
    | nil => exact absurd rfl hnil
    | cons c front => simp [hio]
  · intro i hi
    rcases (hmem i).1 hi with rfl | hi
    · exact hapart.used
    · exact h.used i hi
  · rw [hmem]
    simp [Task.filled, eq_comm, or_comm]
  · rw [hmem]
    exact hi.elim (fun hi => .inl (.inr hi)) .inr

/-! ## Stores to the links -/

/-- What the workers follow after a store to the links. -/
theorem LinkStore.follow (hst : LinkStore.Leads v st) (h : WorkerInv w task th v) :
    ((st.apply w).ioSeq = nil32 ∨ v.Used (st.apply w).ioSeq) ∧
      ∀ i, v.Used i → nexts (st.apply w).workQueue i = nil32 ∨ v.Used (nexts (st.apply w).workQueue i) := by
  cases st with
  | next j x =>
    refine ⟨h.head, fun i hi => ?_⟩
    change nexts (w.setNext j x).workQueue i = nil32 ∨ v.Used (nexts (w.setNext j x).workQueue i)
    rw [IoWorker.nexts_setNext]
    by_cases hij : i = j
    · rw [hij, update_self]
      exact hst
    · rw [update_of_ne hij]
      exact h.next i hi
  | prev j x =>
    refine ⟨h.head, fun i hi => ?_⟩
    change nexts (w.setPrev j x).workQueue i = nil32 ∨ v.Used (nexts (w.setPrev j x).workQueue i)
    rw [IoWorker.nexts_setPrev]
    exact h.next i hi
  | ioSeq x => exact ⟨hst, h.next⟩
  | ioSeqEnd x => exact ⟨h.head, h.next⟩
  | freeSeqEnd x => exact ⟨h.head, h.next⟩

theorem WorkerInv.link (h : WorkerInv w (some (.link e (st :: todo))) th v) :
    Keeps w (some (.link e (st :: todo))) th v (st.apply w) (some (.link e todo)) th v := by
  obtain ⟨hq, he, hstays, hleads⟩ := h.disp
  obtain ⟨hhead, hnext⟩ := LinkStore.follow (hleads st List.mem_cons_self) h
  exact Keeps.of_bodies h (st.bodies_apply w) ⟨hq, he, hstays.2, fun st hst => hleads st (List.mem_cons_of_mem _ hst)⟩
    h.used hhead hnext rfl (fun _ _ => Iff.rfl) fun _ _ => id

theorem WorkerInv.link_done (h : WorkerInv w (some (.link e [])) th v) :
    Keeps w (some (.link e [])) th v w none th v := by
  obtain ⟨hq, he, -, -⟩ := h.disp
  refine Keeps.of_bodies h rfl hq h.used h.head h.next rfl (fun i _ => ?_) fun i _ hi => .inl ?_
  · refine ⟨fun hi => .inl (hi.resolve_right (by simp)), fun hi => .inl ?_⟩
    rcases hi with hi | hi
    · exact hi
    · exact Option.some.inj hi ▸ he
  · rcases hi with hi | hi
    · exact hi
    · exact Option.some.inj hi ▸ he

/-! ## Reclaiming -/

theorem WorkerInv.reclaim (h : WorkerInv w none th v) :
    Keeps w none th v w (some (.look w.ioSeq w.ioSeq nil32 .completed)) th v := by
  have hq : Queues w (v.fresh ++ v.recycled) v.io := h.disp
  exact Keeps.of_bodies h rfl ⟨hq, rfl, [], _, rfl, hq.ioChain, rfl, by simp, by simp⟩ h.used h.head h.next rfl
    (fun _ _ => Iff.rfl) fun _ _ => id

theorem WorkerInv.look {check check' : ReclaimCheck} (h : WorkerInv w (some (.look first curr last check)) th v)
    (hcheck : check' ≠ .completed → (w.workQueue curr).isCompleted = true) :
    Keeps w (some (.look first curr last check)) th v w (some (.look first curr last check')) th v := by
  obtain ⟨hq, hfirst, done, rest, hio, hchain, hlast, hdone, -⟩ := h.disp
  exact Keeps.of_bodies h rfl ⟨hq, hfirst, done, rest, hio, hchain, hlast, hdone, hcheck⟩ h.used h.head h.next rfl
    (fun _ _ => Iff.rfl) fun _ _ => id

theorem WorkerInv.look_next (h : WorkerInv w (some (.look first curr last .due)) th v) (hnil : curr ≠ nil32) :
    Keeps w (some (.look first curr last .due)) th v w
      (some (.look first (w.workQueue curr).next curr .completed)) th v := by
  obtain ⟨hq, hfirst, done, rest, hio, hchain, hlast, hdone, hcompleted⟩ := h.disp
  cases rest with
  | nil => exact absurd hchain hnil
  | cons c rest =>
    obtain ⟨rfl, hchain⟩ := hchain
    refine Keeps.of_bodies h rfl ⟨hq, hfirst, done ++ [curr], rest, by simpa using hio, hchain, by simp, ?_, by simp⟩
      h.used h.head h.next rfl (fun _ _ => Iff.rfl) fun _ _ => id
    intro i hi
    rcases List.mem_append.1 hi with hi | hi
    · exact hdone i hi
    · rw [List.mem_singleton.1 hi]
      exact hcompleted (by simp)

theorem WorkerInv.look_done {check : ReclaimCheck} (h : WorkerInv w (some (.look first curr last check)) th v) :
    Keeps w (some (.look first curr last check)) th v w none th v := by
  obtain ⟨hq, -⟩ := h.disp
  exact Keeps.of_bodies h rfl hq h.used h.head h.next rfl (fun _ _ => Iff.rfl) fun _ _ => id

/-- The stores of `__reclaim_completed_reqs` are made out of sight of what stays pending. -/
theorem giveBackStores_stays {pre rest : List ℕ} (h : Queues w free (pre ++ [last] ++ rest)) (first : ℕ) :
    Stays (· ∈ rest) w (w.giveBackStores first last) := by
  obtain ⟨m, hfront, hrest⟩ := linked_append.1 h.ioChain
  have hm : (w.workQueue last).next = m := (linked_concat.1 hfront).2
  obtain ⟨-, hio, hdisj⟩ := List.nodup_append'.1 h.nodup
  have hlast : last ∉ rest := fun hmem => (List.nodup_append'.1 hio).2.2 (by simp) hmem
  have hend : w.freeSeqEnd ∉ rest :=
    fun hmem => hdisj (List.mem_of_mem_getLast? h.freeEnd) (List.mem_append_right _ hmem)
  have hnil : nil32 ∉ rest := fun hmem => h.ne_nil (.inr (List.mem_append_right _ hmem)) rfl
  refine ⟨fun i hi => h.pending_iff.2 (List.mem_append_right _ hi), Stays.of_avoids ?_ hnil (fun _ => id) ?_⟩
  · rw [hm]
    exact hrest
  · intro st hst
    rcases List.mem_append.1 hst with hst | hst
    · split_ifs at hst
      · rw [List.mem_singleton.1 hst]
        trivial
      · cases hst
    · simp only [List.mem_cons, List.not_mem_nil, or_false] at hst
      rcases hst with rfl | rfl | rfl | rfl
      · exact hlast
      · trivial
      · exact hend
      · trivial

/-- **The completed entries are given back.** -/
theorem WorkerInv.give_back {check : ReclaimCheck} (h : WorkerInv w (some (.look first curr last check)) th v)
    (hnil : last ≠ nil32) : ∃ v', Keeps w (some (.look first curr last check)) th v w
      (some (.giveBack (w.giveBackStores first last))) th v' := by
  obtain ⟨hq, rfl, done, rest, hio, hchain, hlast, hdone, -⟩ := h.disp
  obtain ⟨pre, rfl⟩ : ∃ pre, done = pre ++ [last] := by
    rcases List.eq_nil_or_concat' done with rfl | ⟨pre, a, rfl⟩
    · exact absurd hlast hnil
    · rw [List.getLast?_append, List.getLast?_singleton] at hlast
      exact ⟨pre, by rw [show a = last from hlast.symm]⟩
  have hq' := hq
  rw [hio] at hq'
  have hrest {i : ℕ} (hi : i ∈ rest) : i ∈ v.io := hio ▸ List.mem_append_right _ hi
  have hiff (i : ℕ) (hlive : (w.workQueue i).isCompleted = false) : i ∈ rest ↔ i ∈ v.io := by
    refine ⟨hrest, fun hi => ?_⟩
    rw [hio] at hi
    refine (List.mem_append.1 hi).resolve_left fun hmem => ?_
    rw [hdone i hmem] at hlive
    cases hlive
  refine ⟨⟨v.fresh, v.recycled ++ (pre ++ [last]), rest⟩, Keeps.of_bodies h rfl
    ⟨?_, giveBackStores_stays hq' w.ioSeq, ?_⟩ (fun i hi => h.used i (hrest hi)) h.head h.next rfl
    (fun i hlive => ?_) fun i hlive hi => ?_⟩
  · rw [stores_giveBackStores, ← List.append_assoc]
    exact hq'.giveBack.1
  · intro st hst
    have hused : v.Used last := h.used last (hio ▸ by simp)
    rcases List.mem_cons.1 hst with rfl | hst
    · exact h.next last hused
    rcases List.mem_append.1 hst with hst | hst
    · split_ifs at hst
      · rw [List.mem_singleton.1 hst]
        trivial
      · cases hst
    · simp only [List.mem_cons, List.not_mem_nil, or_false] at hst
      rcases hst with rfl | rfl | rfl | rfl
      · exact .inl rfl
      · trivial
      · exact h.head
      · trivial
  · exact or_congr (hiff i hlive) Iff.rfl
  · exact .inl ((hiff i hlive).2 (hi.resolve_right (by simp [Task.entry])))

theorem WorkerInv.giveBack (h : WorkerInv w (some (.giveBack (st :: todo))) th v) :
    Keeps w (some (.giveBack (st :: todo))) th v (st.apply w) (some (.giveBack todo)) th v := by
  obtain ⟨hq, hstays, hleads⟩ := h.disp
  obtain ⟨hhead, hnext⟩ := LinkStore.follow (hleads st List.mem_cons_self) h
  exact Keeps.of_bodies h (st.bodies_apply w) ⟨hq, hstays.2, fun st hst => hleads st (List.mem_cons_of_mem _ hst)⟩
    h.used hhead hnext rfl (fun _ _ => Iff.rfl) fun _ _ => id

theorem WorkerInv.giveBack_done (h : WorkerInv w (some (.giveBack [])) th v) :
    Keeps w (some (.giveBack [])) th v w none th v := by
  obtain ⟨hq, -⟩ := h.disp
  exact Keeps.of_bodies h rfl hq h.used h.head h.next rfl (fun _ _ => Iff.rfl) fun _ _ => id

/-- **An access of the dispatcher**, other than the store of a field. -/
theorem WorkerInv.access {task : Task} (h : WorkerInv w (some task) th v) (hfills : task.halfFilled = none) :
    ∃ v', Keeps w (some task) th v (task.step w).1 (task.step w).2 th v' := by
  have hstop {first curr last : ℕ} {check : ReclaimCheck}
      (h : WorkerInv w (some (.look first curr last check)) th v) : ∃ v', Keeps w (some (.look first curr last check))
        th v w (if last ≠ nil32 then some (.giveBack (w.giveBackStores first last)) else none) th v' := by
    split_ifs with hnil
    · exact h.give_back hnil
    · exact ⟨v, h.look_done⟩
  cases task with
  | fill e job clock fields =>
    cases fields with
    | cons f fields => cases hfills
    | nil =>
      simp only [Task.step]
      split_ifs with hnil
      · exact h.insert_first hnil
      · exact ⟨v, h.insert_scan hnil⟩
  | scan e nsecsTarget curr =>
    simp only [Task.step]
    split_ifs with hnil
    · exact h.publish
    · exact h.publish
    · exact h.publish
    · exact ⟨v, h.scan hnil⟩
  | link e todo =>
    cases todo with
    | nil => exact ⟨v, h.link_done⟩
    | cons st todo => exact ⟨v, h.link⟩
  | look first curr last check =>
    simp only [Task.step]
    by_cases hnil : curr = nil32
    · rw [if_pos hnil]
      exact hstop h
    rw [if_neg hnil]
    cases check with
    | completed =>
      dsimp only
      by_cases hcompleted : (w.workQueue curr).isCompleted = true
      · rw [if_pos hcompleted]
        exact ⟨v, h.look fun _ => hcompleted⟩
      · rw [if_neg hcompleted]
        exact hstop h
    | copied =>
      obtain ⟨-, -, -, -, -, -, -, -, hcompleted⟩ := h.disp
      dsimp only
      by_cases hcopied : (w.workQueue curr).isCopied = true
      · rw [if_pos hcopied]
        exact ⟨v, h.look fun _ => hcompleted (by simp)⟩
      · rw [if_neg hcopied]
        exact hstop h
    | due =>
      dsimp only
      by_cases hdue : (w.workQueue curr).nsecsTarget ≤ w.latestNsecs
      · rw [if_pos hdue]
        exact ⟨v, h.look_next hnil⟩
      · rw [if_neg hdue]
        exact hstop h
  | giveBack todo =>
    cases todo with
    | nil => exact ⟨v, h.giveBack_done⟩
    | cons st todo => exact ⟨v, h.giveBack⟩

end WaitGc

/-
  WAITGC verification — the lists of a work queue.

  `Queues w free io` says that the free entries of a worker are `free` and its
  pending ones `io`: both are chained by `next`, the pending ones by `prev` as
  well, and every entry is in one of them.  Each routine is specified by what it
  does to the two lists: an entry moves from the head of `free` to a slot of
  `io` (`Queues.enqueue`), a prefix of `io` moves to the end of `free`
  (`Queues.reclaim`).
-/
import WaitGc.Lib.Chain
import WaitGc.Io.Worker
import Mathlib.Data.List.Nodup
import Mathlib.Data.List.Perm.Basic
import Mathlib.Data.List.Range

namespace WaitGc

open Function Chain

variable {w w' : IoWorker} {free io pre post : List ℕ} {a c e i j v n t : ℕ}

namespace IoWork

/-- What an entry holds besides its links. -/
def body (e : IoWork) : IoWork := { e with next := 0, prev := 0 }

end IoWork

/-- The links of an array of entries. -/
def nexts (q : ℕ → IoWork) (i : ℕ) : ℕ := (q i).next

def prevs (q : ℕ → IoWork) (i : ℕ) : ℕ := (q i).prev

/-- The rest of it. -/
def bodies (q : ℕ → IoWork) (i : ℕ) : IoWork := (q i).body

theorem nsecsTarget_bodies (q : ℕ → IoWork) (i : ℕ) :
    (bodies q i).nsecsTarget = (q i).nsecsTarget := rfl

theorem isCompleted_bodies (q : ℕ → IoWork) (i : ℕ) :
    (bodies q i).isCompleted = (q i).isCompleted := rfl

/-! ## What the writes change -/

section writes
variable (q : ℕ → IoWork) (e : IoWork)

@[simp] theorem nexts_update (i : ℕ) : nexts (update q i e) = update (nexts q) i e.next := by
  funext j
  simp only [nexts, update_apply]
  split <;> rfl

@[simp] theorem prevs_update (i : ℕ) : prevs (update q i e) = update (prevs q) i e.prev := by
  funext j
  simp only [prevs, update_apply]
  split <;> rfl

@[simp] theorem bodies_update (i : ℕ) : bodies (update q i e) = update (bodies q) i e.body := by
  funext j
  simp only [bodies, update_apply]
  split <;> rfl

end writes

namespace IoWorker
variable (w : IoWorker) (i v : ℕ)

@[simp] theorem workQueue_set (e : IoWork) : (w.set i e).workQueue = update w.workQueue i e := rfl

@[simp] theorem freeSeq_set (e : IoWork) : (w.set i e).freeSeq = w.freeSeq := rfl
@[simp] theorem freeSeqEnd_set (e : IoWork) : (w.set i e).freeSeqEnd = w.freeSeqEnd := rfl
@[simp] theorem ioSeq_set (e : IoWork) : (w.set i e).ioSeq = w.ioSeq := rfl
@[simp] theorem ioSeqEnd_set (e : IoWork) : (w.set i e).ioSeqEnd = w.ioSeqEnd := rfl
@[simp] theorem latestNsecs_set (e : IoWork) : (w.set i e).latestNsecs = w.latestNsecs := rfl

@[simp] theorem nexts_setNext : nexts (w.setNext i v).workQueue = update (nexts w.workQueue) i v :=
  nexts_update _ _ _

@[simp] theorem prevs_setPrev : prevs (w.setPrev i v).workQueue = update (prevs w.workQueue) i v :=
  prevs_update _ _ _

@[simp] theorem nexts_setPrev : nexts (w.setPrev i v).workQueue = nexts w.workQueue := by
  simp only [setPrev, workQueue_set, nexts_update, update_eq_self_iff]
  rfl

@[simp] theorem prevs_setNext : prevs (w.setNext i v).workQueue = prevs w.workQueue := by
  simp only [setNext, workQueue_set, prevs_update, update_eq_self_iff]
  rfl

@[simp] theorem bodies_setNext : bodies (w.setNext i v).workQueue = bodies w.workQueue := by
  simp only [setNext, workQueue_set, bodies_update, update_eq_self_iff]
  rfl

@[simp] theorem bodies_setPrev : bodies (w.setPrev i v).workQueue = bodies w.workQueue := by
  simp only [setPrev, workQueue_set, bodies_update, update_eq_self_iff]
  rfl

@[simp] theorem ioSeq_setNext : (w.setNext i v).ioSeq = w.ioSeq := rfl
@[simp] theorem ioSeq_setPrev : (w.setPrev i v).ioSeq = w.ioSeq := rfl
@[simp] theorem ioSeqEnd_setNext : (w.setNext i v).ioSeqEnd = w.ioSeqEnd := rfl
@[simp] theorem ioSeqEnd_setPrev : (w.setPrev i v).ioSeqEnd = w.ioSeqEnd := rfl
@[simp] theorem freeSeq_setNext : (w.setNext i v).freeSeq = w.freeSeq := rfl
@[simp] theorem freeSeq_setPrev : (w.setPrev i v).freeSeq = w.freeSeq := rfl
@[simp] theorem freeSeqEnd_setNext : (w.setNext i v).freeSeqEnd = w.freeSeqEnd := rfl
@[simp] theorem freeSeqEnd_setPrev : (w.setPrev i v).freeSeqEnd = w.freeSeqEnd := rfl
@[simp] theorem latestNsecs_setNext : (w.setNext i v).latestNsecs = w.latestNsecs := rfl
@[simp] theorem latestNsecs_setPrev : (w.setPrev i v).latestNsecs = w.latestNsecs := rfl

end IoWorker

/-! ## The two lists -/

/-- The free entries of a worker are chained as `free`, the pending ones as
    `io`. -/
structure Lists (w : IoWorker) (free io : List ℕ) : Prop where
  freeChain : Linked (nexts w.workQueue) w.freeSeq free nil32
  freeEnd : free.getLast? = some w.freeSeqEnd
  ioChain : Linked (nexts w.workQueue) w.ioSeq io nil32
  ioBack : io ≠ [] → Linked (prevs w.workQueue) w.ioSeqEnd io.reverse nil32

/-- And every entry is in one of them. -/
structure Queues (w : IoWorker) (free io : List ℕ) : Prop extends Lists w free io where
  perm : (free ++ io).Perm (List.range nrMaxParallelIo)

namespace Queues

theorem nodup (h : Queues w free io) : (free ++ io).Nodup := h.perm.nodup_iff.2 List.nodup_range

theorem mem_iff (h : Queues w free io) : i ∈ free ∨ i ∈ io ↔ i < nrMaxParallelIo := by
  rw [← List.mem_append, h.perm.mem_iff, List.mem_range]

theorem ne_nil (h : Queues w free io) (hi : i ∈ free ∨ i ∈ io) : i ≠ nil32 := by
  rintro rfl
  exact absurd (h.mem_iff.1 hi) (by decide)

theorem disjoint (h : Queues w free io) (hi : i ∈ free) : i ∉ io :=
  List.disjoint_left.1 (List.nodup_append'.1 h.nodup).2.2 hi

theorem length_io (h : Queues w free io) : io.length ≤ nrMaxParallelIo := by
  have hlen := h.perm.length_eq
  simp only [List.length_append, List.length_range] at hlen
  omega

end Queues

private theorem linked_init (id m : ℕ) : ∀ i, i + m = nrMaxParallelIo → 0 < m →
    Linked (nexts (IoWorker.init id).workQueue) i (List.range' i m) nil32 := by
  induction m with
  | zero => omega
  | succ m ih =>
    intro i hi _
    rw [List.range'_succ]
    refine ⟨rfl, ?_⟩
    cases m with
    | zero =>
      have hlast : i = nrMaxParallelIo - 1 := by omega
      simp [nexts, IoWorker.init, hlast]
    | succ m =>
      have hne : i ≠ nrMaxParallelIo - 1 := by omega
      have hnext : (nexts (IoWorker.init id).workQueue) i = i + 1 := by
        simp [nexts, IoWorker.init, hne]
      rw [hnext]
      exact ih (i + 1) (by omega) (by omega)

theorem queues_init (id : ℕ) : Queues (IoWorker.init id) (List.range nrMaxParallelIo) [] where
  freeChain := by
    rw [List.range_eq_range']
    exact linked_init id nrMaxParallelIo 0 (by omega) (by decide)
  freeEnd := by
    rw [List.getLast?_range]
    rfl
  ioChain := rfl
  ioBack := fun h => absurd rfl h
  perm := by simp

/-! ## Inserting an entry -/

/-- The entry `i` is due later than `t`, and not past due. -/
def IoWorker.Later (w : IoWorker) (t i : ℕ) : Prop :=
  w.latestNsecs < (bodies w.workQueue i).nsecsTarget ∧ t < (bodies w.workQueue i).nsecsTarget

/-- The loop of `__insert_req_sorted` passes the entries at the tail that are
    due later. -/
private theorem findSlot_spec (w : IoWorker) (t : ℕ) :
    ∀ (l : List ℕ) (n curr : ℕ), Linked (prevs w.workQueue) curr l nil32 → l.length ≤ n → nil32 ∉ l →
      ∃ back front, l = back ++ front ∧ w.findSlot t n curr = front.headD nil32 ∧
        (∀ i ∈ back, w.Later t i) ∧ ∀ i ∈ front.head?, ¬ w.Later t i := by
  intro l
  induction l with
  | nil =>
    rintro n curr rfl - -
    refine ⟨[], [], rfl, ?_, by simp, by simp⟩
    cases n <;> simp [IoWorker.findSlot]
  | cons c l ih =>
    rintro n curr ⟨rfl, hl⟩ hn hnil
    simp only [List.mem_cons, not_or] at hnil
    obtain ⟨n, rfl⟩ : ∃ m, n = m + 1 := ⟨n - 1, by simp only [List.length_cons] at hn; omega⟩
    by_cases hlater : w.Later t curr
    · obtain ⟨back, front, rfl, hslot, hback, hfront⟩ :=
        ih n _ hl (by simpa using hn) hnil.2
      refine ⟨curr :: back, front, rfl, ?_, ?_, hfront⟩
      · obtain ⟨hdue, ht⟩ := hlater
        rw [nsecsTarget_bodies] at hdue ht
        rw [← hslot, IoWorker.findSlot, if_neg (Ne.symm hnil.1), if_neg (Nat.not_le.2 hdue),
          if_neg (Nat.not_le.2 ht)]
        rfl
      · rintro i hi
        rcases List.mem_cons.1 hi with rfl | hi
        · exact hlater
        · exact hback i hi
    · refine ⟨[], curr :: l, rfl, ?_, by simp, by simpa using hlater⟩
      have hstop : (w.workQueue curr).nsecsTarget ≤ w.latestNsecs ∨
          (w.workQueue curr).nsecsTarget ≤ t := by
        simp only [IoWorker.Later, nsecsTarget_bodies] at hlater
        omega
      rw [IoWorker.findSlot, if_neg (Ne.symm hnil.1)]
      split_ifs <;> first | rfl | omega

variable {curr : ℕ}

/-- The new entry is linked in at the head. -/
private theorem Lists.link_head (h : Lists w free io) (hio : io ≠ []) (hnd : io.Nodup)
    (hfree : e ∉ free) (he : e ∉ io) (hprev : prevs w.workQueue e = nil32) :
    Lists (w.link e nil32) free (e :: io) := by
  obtain ⟨b, l, rfl⟩ := List.exists_cons_of_ne_nil hio
  have hb : w.ioSeq = b := h.ioChain.head
  have heb : e ≠ b := fun heb => he (by simp [heb])
  have hbl : b ∉ l.reverse := by simpa using (List.nodup_cons.1 hnd).1
  have hback := h.ioBack hio
  rw [List.reverse_cons] at hback
  refine ⟨?_, ?_, ?_, fun _ => ?_⟩
  · simpa [IoWorker.link] using h.freeChain.update hfree _
  · simpa [IoWorker.link] using h.freeEnd
  · have hchain := h.ioChain.update he w.ioSeq
    rw [hb] at hchain
    simpa [IoWorker.link, hb] using hchain
  · have hsplit : (e :: b :: l).reverse = l.reverse ++ [b] ++ [e] := by simp
    rw [hsplit]
    refine Linked.append ?_ ?_ (m := e)
    · simpa [IoWorker.link, hb] using hback.set_last hbl e
    · simp [IoWorker.link, hb, update_of_ne heb, hprev]

/-- It is linked in at the tail. -/
private theorem Lists.link_tail (h : Lists w free (pre ++ [c])) (hnd : (pre ++ [c]).Nodup)
    (hcfree : c ∉ free) (he : e ∉ pre ++ [c]) (hc : c ≠ nil32)
    (hnext : nexts w.workQueue e = nil32) : Lists (w.link e c) free (pre ++ [c] ++ [e]) := by
  have hec : e ≠ c := fun hec => he (by simp [hec])
  have hcpre : c ∉ pre := by
    intro hmem
    exact (List.nodup_append'.1 hnd).2.2 hmem (by simp)
  have hnil : (w.workQueue c).next = nil32 := (linked_concat.1 h.ioChain).2
  have hback := h.ioBack (by simp)
  refine ⟨?_, ?_, ?_, fun _ => ?_⟩
  · simpa [IoWorker.link, hc, hnil] using h.freeChain.update hcfree _
  · simpa [IoWorker.link, hc, hnil] using h.freeEnd
  · refine Linked.append ?_ ?_ (m := e)
    · simpa [IoWorker.link, hc, hnil] using h.ioChain.set_last hcpre e
    · simp [IoWorker.link, hc, hnil, update_of_ne hec, hnext]
  · have hhead : w.ioSeqEnd = c := by
      rw [List.reverse_append] at hback
      exact hback.head
    have hrev : e ∉ (pre ++ [c]).reverse := by rwa [List.mem_reverse]
    rw [List.reverse_append, List.reverse_singleton, List.singleton_append]
    have hchain := hback.update hrev c
    rw [hhead] at hchain
    simpa [IoWorker.link, hc, hnil] using hchain

private theorem link_eq {b : ℕ} (hc : c ≠ nil32) (hb : b ≠ nil32)
    (hnext : nexts w.workQueue c = b) :
    w.link e c = (((w.setPrev e c).setNext e b).setPrev b e).setNext c e := by
  have hnext₁ : ((w.setPrev e c).workQueue c).next = b := by
    change nexts (w.setPrev e c).workQueue c = b
    rw [IoWorker.nexts_setPrev, hnext]
  have hnext₂ : (((w.setPrev e c).setNext e b).workQueue e).next = b := by
    change nexts ((w.setPrev e c).setNext e b).workQueue e = b
    rw [IoWorker.nexts_setNext, update_self]
  have hmore : (w.workQueue c).next ≠ nil32 := by
    change nexts w.workQueue c ≠ nil32
    rwa [hnext]
  rw [IoWorker.link, if_neg hc, if_neg hmore]
  simp only [hnext₁, hnext₂]

/-- It is linked in between two entries. -/
private theorem Lists.link_between {b : ℕ} (h : Lists w free (pre ++ [c] ++ b :: post))
    (hnd : (pre ++ [c] ++ b :: post).Nodup) (hfree : e ∉ free) (hcfree : c ∉ free)
    (he : e ∉ pre ++ [c] ++ b :: post) (hc : c ≠ nil32) (hb : b ≠ nil32) :
    Lists (w.link e c) free (pre ++ [c] ++ e :: b :: post) := by
  obtain ⟨hndc, hndb, hdisj⟩ := List.nodup_append'.1 hnd
  have hec : e ≠ c := fun hec => he (by simp [hec])
  have heb : e ≠ b := fun heb => he (by simp [heb])
  have hcpre : c ∉ pre := by
    intro hmem
    exact (List.nodup_append'.1 hndc).2.2 hmem (by simp)
  have hcpost : c ∉ b :: post := hdisj (by simp)
  have hbpost : b ∉ post.reverse := by simpa using (List.nodup_cons.1 hndb).1
  have hbpre : b ∉ (pre ++ [c]).reverse := by
    rw [List.mem_reverse]
    exact fun hmem => hdisj hmem List.mem_cons_self
  have hepre : e ∉ pre ++ [c] := fun hmem => he (List.mem_append_left _ hmem)
  have hepost : e ∉ b :: post := fun hmem => he (List.mem_append_right _ hmem)
  obtain ⟨m, hfront, hrest⟩ := linked_append.1 h.ioChain
  obtain rfl : m = b := hrest.head
  have hnext : nexts w.workQueue c = m := (linked_concat.1 hfront).2
  have hback := h.ioBack (by simp)
  rw [List.reverse_append, List.reverse_cons] at hback
  obtain ⟨c', hpost, hpre⟩ := linked_append.1 hback
  have hc' : c' = c := by
    rw [List.reverse_append] at hpre
    exact hpre.head
  rw [hc'] at hpost hpre
  rw [link_eq hc hb hnext]
  refine ⟨?_, ?_, ?_, fun _ => ?_⟩
  · simpa using (h.freeChain.update hfree _).update hcfree _
  · simpa using h.freeEnd
  · refine Linked.append ?_ ?_ (m := e)
    · simpa using (hfront.update hepre m).set_last hcpre e
    · have hchain := (hrest.update hepost m).update hcpost e
      simpa [update_of_ne hec] using hchain
  · have hsplit : (pre ++ [c] ++ e :: m :: post).reverse =
        post.reverse ++ [m] ++ e :: (pre ++ [c]).reverse := by simp
    have herev : e ∉ post.reverse ++ [m] := by simpa using And.symm (by simpa using hepost)
    rw [hsplit]
    refine Linked.append ?_ ?_ (m := e)
    · simpa using (hpost.update herev c).set_last hbpost e
    · have hchain := (hpre.update (by rwa [List.mem_reverse]) c).update hbpre e
      simpa [update_of_ne heb] using hchain

theorem IoWorker.bodies_link (w : IoWorker) (e c : ℕ) :
    bodies (w.link e c).workQueue = bodies w.workQueue ∧
      (w.link e c).latestNsecs = w.latestNsecs := by
  unfold IoWorker.link
  split_ifs <;> simp

/-- The new entry `e` stands apart from the two lists, which hold every other
    entry. -/
structure Apart (w : IoWorker) (e : ℕ) (free io : List ℕ) : Prop extends Lists w free io where
  perm : (e :: (free ++ io)).Perm (List.range nrMaxParallelIo)
  next : nexts w.workQueue e = nil32
  prev : prevs w.workQueue e = nil32

namespace Apart

theorem nodup (h : Apart w e free io) : (e :: (free ++ io)).Nodup :=
  h.perm.nodup_iff.2 List.nodup_range

theorem ne_nil (h : Apart w e free io) (hi : i ∈ e :: (free ++ io)) : i ≠ nil32 := by
  rintro rfl
  have hlt := List.mem_range.1 (h.perm.mem_iff.1 hi)
  exact absurd hlt (by decide)

theorem link (h : Apart w e free (pre ++ post)) (hne : pre ++ post ≠ []) :
    Lists (w.link e (pre.reverse.headD nil32)) free (pre ++ e :: post) := by
  obtain ⟨he, hnd⟩ := List.nodup_cons.1 h.nodup
  obtain ⟨-, hio, hdisj⟩ := List.nodup_append'.1 hnd
  have hefree : e ∉ free := fun hmem => he (List.mem_append_left _ hmem)
  have heio : e ∉ pre ++ post := fun hmem => he (List.mem_append_right _ hmem)
  have hmem {i : ℕ} (hi : i ∈ pre ++ post) : i ∉ free ∧ i ≠ nil32 :=
    ⟨fun hi' => hdisj hi' hi, h.ne_nil (List.mem_cons_of_mem _ (List.mem_append_right _ hi))⟩
  rcases List.eq_nil_or_concat' pre with rfl | ⟨pre, c, rfl⟩
  · exact h.toLists.link_head hne hio hefree heio h.prev
  · have hc := hmem (i := c) (by simp)
    rw [List.reverse_append, List.reverse_singleton, List.singleton_append, List.headD_cons]
    cases post with
    | nil =>
      rw [List.append_nil] at heio hio
      have hlists := h.toLists
      rw [List.append_nil] at hlists
      exact hlists.link_tail hio hc.1 heio hc.2 h.next
    | cons b post =>
      exact h.toLists.link_between hio hefree hc.1 heio hc.2 (hmem (by simp)).2

/-- **`__insert_req_sorted`**: the entry is put behind the last one that is not due
    later. -/
theorem insertReqSorted (h : Apart w e free io) (t : ℕ) :
    ∃ pre post, io = pre ++ post ∧ Queues (w.insertReqSorted e t) free (pre ++ e :: post) ∧
      bodies (w.insertReqSorted e t).workQueue = bodies w.workQueue ∧
      (w.insertReqSorted e t).latestNsecs = w.latestNsecs ∧
      (∀ i ∈ post, w.Later t i) ∧ ∀ i ∈ pre.getLast?, ¬ w.Later t i := by
  by_cases hnil : w.ioSeq = nil32
  · have hio : io = [] := by
      have hchain := h.ioChain
      rw [hnil] at hchain
      exact hchain.eq_nil fun hmem => h.ne_nil (by simp [hmem]) rfl
    subst hio
    have hins : w.insertReqSorted e t = { w with ioSeq := e, ioSeqEnd := e } := by
      rw [IoWorker.insertReqSorted, if_pos hnil]
    rw [hins]
    refine ⟨[], [], rfl, ⟨⟨?_, ?_, ?_, fun _ => ?_⟩, ?_⟩, rfl, rfl, by simp, by simp⟩
    · exact h.freeChain
    · exact h.freeEnd
    · exact ⟨rfl, h.next⟩
    · exact ⟨rfl, h.prev⟩
    · simpa using List.perm_middle.trans h.perm
  · have hne : io ≠ [] := by
      rintro rfl
      exact hnil h.ioChain
    have hlen : io.reverse.length ≤ nrMaxParallelIo := by
      have := h.perm.length_eq
      simp only [List.length_cons, List.length_append, List.length_range] at this
      rw [List.length_reverse]
      omega
    obtain ⟨back, front, hsplit, hslot, hback, hfront⟩ := findSlot_spec w t io.reverse
      nrMaxParallelIo w.ioSeqEnd (h.ioBack hne) hlen fun hmem => h.ne_nil (by simp_all) rfl
    have hio : io = front.reverse ++ back.reverse := by
      rw [← List.reverse_append, ← hsplit, List.reverse_reverse]
    subst hio
    have hins : w.insertReqSorted e t = w.link e (front.reverse.reverse.headD nil32) := by
      rw [IoWorker.insertReqSorted, if_neg hnil, hslot, List.reverse_reverse]
    obtain ⟨hbodies, hlatest⟩ := w.bodies_link e (front.reverse.reverse.headD nil32)
    rw [hins]
    refine ⟨front.reverse, back.reverse, rfl, ⟨h.link hne, ?_⟩, hbodies, hlatest, ?_, ?_⟩
    · rw [← List.append_assoc]
      refine List.perm_middle.trans ?_
      rw [List.append_assoc]
      exact h.perm
    · intro i hi
      exact hback i (List.mem_reverse.1 hi)
    · rwa [List.getLast?_reverse]

end Apart

/-! ## Taking a free entry -/

/-- The last free entry is not given away. -/
theorem Queues.enqueue_full (h : Queues w [e] io) (clock : ℕ) (job : IoJob) :
    w.enqueue clock job = w := by
  have hnext : (w.workQueue w.freeSeq).next = nil32 := by
    rw [h.freeChain.head]
    exact h.freeChain.2
  have hfull : w.allocateWorkQueueEntry = none := by
    rw [IoWorker.allocateWorkQueueEntry, hnext, if_pos (by decide)]
  rw [IoWorker.enqueue, hfull]

@[simp] theorem IoJob.nsecsTarget_fill (job : IoJob) (x : IoWork) (clock : ℕ) :
    (job.fill x clock).nsecsTarget = job.nsecsTarget := by
  cases job <;> rfl

@[simp] theorem IoJob.next_fill (job : IoJob) (x : IoWork) (clock : ℕ) :
    (job.fill x clock).next = nil32 := by
  cases job <;> rfl

@[simp] theorem IoJob.prev_fill (job : IoJob) (x : IoWork) (clock : ℕ) :
    (job.fill x clock).prev = nil32 := by
  cases job <;> rfl

theorem Queues.enqueue_eq (h : Queues w (e :: a :: free) io) (clock : ℕ) (job : IoJob) :
    w.allocateWorkQueueEntry = some (e, { w with freeSeq := a }) ∧ w.enqueue clock job =
      ({ w with freeSeq := a }.set e (job.fill (w.workQueue e) clock)).insertReqSorted e job.nsecsTarget := by
  have hhead : w.freeSeq = e := h.freeChain.head
  have hnext : (w.workQueue e).next = a := h.freeChain.2.1
  have hlt : a < nrMaxParallelIo := h.mem_iff.1 (by simp)
  have halloc : w.allocateWorkQueueEntry = some (e, { w with freeSeq := a }) := by
    rw [IoWorker.allocateWorkQueueEntry, hhead, hnext, if_neg (by omega)]
  exact ⟨halloc, by rw [IoWorker.enqueue, halloc]⟩

/-- The state of `__enqueue_io_req` before it inserts the entry. -/
theorem Queues.apart (h : Queues w (e :: a :: free) io) (clock : ℕ) (job : IoJob) :
    Apart ({ w with freeSeq := a }.set e (job.fill (w.workQueue e) clock)) e (a :: free) io := by
  obtain ⟨he, hnd⟩ := List.nodup_cons.1 h.nodup
  have hefree : e ∉ a :: free := fun hmem => he (List.mem_append_left _ hmem)
  have heio : e ∉ io := fun hmem => he (List.mem_append_right _ hmem)
  refine ⟨⟨?_, ?_, ?_, fun hio => ?_⟩, h.perm, ?_, ?_⟩
  · have hrest : Linked (nexts w.workQueue) a (a :: free) nil32 := ⟨rfl, h.freeChain.2.2⟩
    simpa using hrest.update hefree nil32
  · have hend := h.freeEnd
    rw [List.getLast?_cons_cons] at hend
    exact hend
  · simpa using h.ioChain.update heio nil32
  · simpa using (h.ioBack hio).update (by rwa [List.mem_reverse]) nil32
  · simp
  · simp

/-- **`__enqueue_io_req` and `schedule_internal_operation`**: the first free entry
    becomes a pending one. -/
theorem Queues.enqueue (h : Queues w (e :: a :: free) io) (clock : ℕ) (job : IoJob) :
    ∃ pre post, io = pre ++ post ∧ Queues (w.enqueue clock job) (a :: free) (pre ++ e :: post) ∧
      bodies (w.enqueue clock job).workQueue =
        update (bodies w.workQueue) e (job.fill (w.workQueue e) clock).body ∧
      (w.enqueue clock job).latestNsecs = w.latestNsecs ∧
      (∀ i ∈ post, w.Later job.nsecsTarget i) ∧ ∀ i ∈ pre.getLast?, ¬ w.Later job.nsecsTarget i := by
  obtain ⟨-, henq⟩ := h.enqueue_eq clock job
  obtain ⟨pre, post, rfl, hq, hbodies', hlatest', hpost, hpre⟩ :=
    (h.apart clock job).insertReqSorted job.nsecsTarget
  generalize hw' : { w with freeSeq := a }.set e (job.fill (w.workQueue e) clock) = w' at *
  have hbodies : bodies w'.workQueue = update (bodies w.workQueue) e (job.fill (w.workQueue e) clock).body := by
    rw [← hw']
    simp
  have hlatest : w'.latestNsecs = w.latestNsecs := hw' ▸ rfl
  have he : e ∉ pre ++ post := fun hmem =>
    (List.nodup_cons.1 h.nodup).1 (List.mem_append_right _ hmem)
  have hlater {i : ℕ} (hi : i ∈ pre ++ post) :
      w'.Later job.nsecsTarget i ↔ w.Later job.nsecsTarget i := by
    have hne : i ≠ e := fun hie => he (hie ▸ hi)
    simp only [IoWorker.Later, hbodies, hlatest, update_of_ne hne]
  rw [henq]
  refine ⟨pre, post, rfl, hq, hbodies'.trans hbodies, hlatest'.trans hlatest, ?_, ?_⟩
  · intro i hi
    exact (hlater (List.mem_append_right _ hi)).1 (hpost i hi)
  · intro i hi
    exact (hlater (List.mem_append_left _ (List.mem_of_mem_getLast? hi))).not.1 (hpre i hi)

/-! ## Giving entries back -/

/-- The entry `i` can be reclaimed. -/
def IoWorker.Done (w : IoWorker) (i : ℕ) : Prop :=
  (bodies w.workQueue i).isCompleted = true ∧ (bodies w.workQueue i).isCopied = true ∧
    (bodies w.workQueue i).nsecsTarget ≤ w.latestNsecs

theorem IoWorker.done_iff : w.Done i ↔ (w.workQueue i).isCompleted = true ∧
    (w.workQueue i).isCopied = true ∧ (w.workQueue i).nsecsTarget ≤ w.latestNsecs := Iff.rfl

/-- The loop of `__reclaim_completed_reqs` passes the completed entries at the
    head. -/
private theorem lastCompleted_spec (w : IoWorker) :
    ∀ (l : List ℕ) (n curr last : ℕ), Linked (nexts w.workQueue) curr l nil32 → l.length ≤ n →
      nil32 ∉ l → ∃ done rest, l = done ++ rest ∧
        w.lastCompleted n curr last = done.getLast?.getD last ∧ (∀ i ∈ done, w.Done i) ∧
        ∀ i ∈ rest.head?, ¬ w.Done i := by
  intro l
  induction l with
  | nil =>
    rintro n curr last rfl - -
    refine ⟨[], [], rfl, ?_, by simp, by simp⟩
    cases n <;> simp [IoWorker.lastCompleted]
  | cons c l ih =>
    rintro n curr last ⟨rfl, hl⟩ hn hnil
    simp only [List.mem_cons, not_or] at hnil
    obtain ⟨n, rfl⟩ : ∃ m, n = m + 1 := ⟨n - 1, by simp only [List.length_cons] at hn; omega⟩
    by_cases hdone : w.Done curr
    · obtain ⟨done, rest, rfl, hlast, hall, hrest⟩ := ih n _ curr hl (by simpa using hn) hnil.2
      refine ⟨curr :: done, rest, rfl, ?_, ?_, hrest⟩
      · rw [IoWorker.lastCompleted, if_neg (Ne.symm hnil.1), if_pos (IoWorker.done_iff.1 hdone),
          show (w.workQueue curr).next = nexts w.workQueue curr from rfl, hlast]
        cases done <;> simp [List.getLast?_cons]
      · rintro i hi
        rcases List.mem_cons.1 hi with rfl | hi
        · exact hdone
        · exact hall i hi
    · refine ⟨[], curr :: l, rfl, ?_, by simp, by simpa using hdone⟩
      rw [IoWorker.lastCompleted, if_neg (Ne.symm hnil.1), if_neg (IoWorker.done_iff.not.1 hdone)]
      rfl

private theorem giveBack_linked {last m : ℕ} (hm : nexts w.workQueue last = m) (first : ℕ) :
    ∃ w' : IoWorker, w.giveBack first last = { w' with freeSeqEnd := last } ∧
      nexts w'.workQueue = update (update (nexts w.workQueue) last nil32) w.freeSeqEnd first ∧
      prevs w'.workQueue = update
        (if m ≠ nil32 then update (prevs w.workQueue) m nil32 else prevs w.workQueue) first
        w.freeSeqEnd ∧
      bodies w'.workQueue = bodies w.workQueue ∧ w'.freeSeq = w.freeSeq ∧ w'.ioSeq = m ∧
      w'.ioSeqEnd = w.ioSeqEnd ∧ w'.latestNsecs = w.latestNsecs := by
  have hm' : (w.workQueue last).next = m := hm
  refine ⟨_, rfl, ?_⟩
  by_cases hnil : m = nil32
  · simp [hm', hnil]
  · simp [hm', hnil]

/-- The completed entries are moved to the end of the free list. -/
theorem Queues.giveBack {last : ℕ} (h : Queues w free (pre ++ [last] ++ post)) :
    Queues (w.giveBack w.ioSeq last) (free ++ (pre ++ [last])) post ∧
      bodies (w.giveBack w.ioSeq last).workQueue = bodies w.workQueue ∧
      (w.giveBack w.ioSeq last).latestNsecs = w.latestNsecs := by
  obtain ⟨hfree, hio, hdisj⟩ := List.nodup_append'.1 h.nodup
  obtain ⟨hdone, hpostnd, hdisj'⟩ := List.nodup_append'.1 hio
  obtain ⟨init, hinit⟩ := List.getLast?_eq_some_iff.1 h.freeEnd
  have hendfree : w.freeSeqEnd ∈ free := by simp [hinit]
  have hendio : w.freeSeqEnd ∉ pre ++ [last] ++ post := fun hmem => hdisj hendfree hmem
  have hendinit : w.freeSeqEnd ∉ init := by
    rw [hinit] at hfree
    exact fun hmem => (List.nodup_append'.1 hfree).2.2 hmem (by simp)
  have hlastpre : last ∉ pre := fun hmem => (List.nodup_append'.1 hdone).2.2 hmem (by simp)
  have hlastpost : last ∉ post := fun hmem => hdisj' (by simp) hmem
  have hlastfree : last ∉ free := fun hmem => hdisj hmem (by simp)
  obtain ⟨m, hfront, hrest⟩ := linked_append.1 h.ioChain
  obtain ⟨w', hw', hnexts, hprevs, hbodies, hseq, hioseq, hend, hlatest⟩ :=
    giveBack_linked (linked_concat.1 hfront).2 w.ioSeq
  have hfirst : w.ioSeq ∈ pre ++ [last] := by
    cases pre with
    | nil => simp [hfront.head]
    | cons p pre => simp [hfront.head]
  rw [hw']
  refine ⟨⟨⟨?_, by simp, ?_, fun hpost => ?_⟩, ?_⟩, hbodies, hlatest⟩
  · refine Linked.append ?_ ?_ (m := w.ioSeq)
    · have hchain := h.freeChain.update hlastfree nil32
      rw [hinit] at hchain ⊢
      rw [hnexts, hseq]
      exact hchain.set_last hendinit w.ioSeq
    · rw [hnexts]
      exact (hfront.set_last hlastpre nil32).update
        (fun hmem => hendio (List.mem_append_left _ hmem)) _
  · rw [hnexts, hioseq]
    exact (hrest.update hlastpost _).update (fun hmem => hendio (List.mem_append_right _ hmem)) _
  · obtain ⟨b, post, rfl⟩ := List.exists_cons_of_ne_nil hpost
    have hb : m = b := hrest.head
    have hnil : m ≠ nil32 := h.ne_nil (.inr (by simp [hb]))
    have hback := h.ioBack (by simp)
    rw [List.reverse_append, List.reverse_cons] at hback
    obtain ⟨c, hback, -⟩ := linked_append.1 hback
    have hbpost : b ∉ post.reverse := by simpa using (List.nodup_cons.1 hpostnd).1
    rw [hprevs, hend, if_pos hnil, hb, List.reverse_cons]
    refine (hback.set_last hbpost nil32).update ?_ _
    intro hmem
    refine hdisj' hfirst ?_
    simpa [or_comm] using hmem
  · simpa only [List.append_assoc] using h.perm

/-- **`__reclaim_completed_reqs`**: a prefix of the pending entries goes to the end of
    the free list. -/
theorem Queues.reclaim (h : Queues w free io) :
    ∃ done rest, io = done ++ rest ∧ Queues w.reclaimCompletedReqs (free ++ done) rest ∧
      bodies w.reclaimCompletedReqs.workQueue = bodies w.workQueue ∧
      w.reclaimCompletedReqs.latestNsecs = w.latestNsecs ∧ (∀ i ∈ done, w.Done i) ∧
      ∀ i ∈ rest.head?, ¬ w.Done i := by
  obtain ⟨done, rest, rfl, hlast, hdone, hrest⟩ := lastCompleted_spec w io nrMaxParallelIo w.ioSeq
    nil32 h.ioChain h.length_io fun hmem => h.ne_nil (.inr hmem) rfl
  rcases List.eq_nil_or_concat' done with rfl | ⟨pre, last, rfl⟩
  · have hsame : w.reclaimCompletedReqs = w := by
      simp only [IoWorker.reclaimCompletedReqs, hlast]
      simp
    rw [hsame]
    exact ⟨[], rest, rfl, by simpa using h, rfl, rfl, hdone, hrest⟩
  · have hne : last ≠ nil32 := h.ne_nil (.inr (by simp))
    have hback : w.reclaimCompletedReqs = w.giveBack w.ioSeq last := by
      simp only [IoWorker.reclaimCompletedReqs, hlast]
      simp [hne]
    rw [hback]
    obtain ⟨hq, hbodies, hlatest⟩ := h.giveBack
    exact ⟨pre ++ [last], rest, rfl, hq, hbodies, hlatest, hdone, hrest⟩

/-! ## The worker -/

theorem Queues.mark (h : Queues w free io) {x : IoWork} (hnext : x.next = (w.workQueue i).next)
    (hprev : x.prev = (w.workQueue i).prev) : Queues (w.set i x) free io := by
  have hnexts : nexts (w.set i x).workQueue = nexts w.workQueue := by
    simp only [IoWorker.workQueue_set, nexts_update, hnext, update_eq_self_iff]
    rfl
  have hprevs : prevs (w.set i x).workQueue = prevs w.workQueue := by
    simp only [IoWorker.workQueue_set, prevs_update, hprev, update_eq_self_iff]
    rfl
  refine ⟨⟨?_, h.freeEnd, ?_, ?_⟩, h.perm⟩
  · rw [hnexts]; exact h.freeChain
  · rw [hnexts]; exact h.ioChain
  · rw [hprevs]; exact h.ioBack

/-- The free list is never empty, and ends at `free_seq_end`. -/
theorem Queues.free_ne_nil (h : Queues w free io) :
    free ≠ [] ∧ nexts w.workQueue w.freeSeqEnd = nil32 := by
  obtain ⟨init, hinit⟩ := List.getLast?_eq_some_iff.1 h.freeEnd
  have hchain := h.freeChain
  rw [hinit, linked_concat] at hchain
  exact ⟨by simp [hinit], hchain.2⟩

theorem Queues.two_free (h : Queues w free io)
    (hroom : (w.workQueue w.freeSeq).next < nrMaxParallelIo) : ∃ e a free', free = e :: a :: free' := by
  cases free with
  | nil => exact absurd rfl h.free_ne_nil.1
  | cons e free =>
    cases free with
    | nil =>
      have hnext : (w.workQueue w.freeSeq).next = nil32 := by
        rw [h.freeChain.head]
        exact h.freeChain.2
      rw [hnext] at hroom
      exact absurd hroom (by decide)
    | cons a free => exact ⟨e, a, free, rfl⟩

end WaitGc

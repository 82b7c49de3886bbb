/-
  WAITGC verification — the priority queue under any sequence of calls.

  A client inserts nodes that are not in the queue and changes and removes
  nodes that are.  `pqueue_refines`: then no call dereferences a word that is
  not a node, each does what it does to a set of nodes with priorities, the
  head that is popped has the best one, and `pqueue_is_valid` accepts the
  queue.  `pqueue_drains`: popping until the queue is empty returns each
  node once, in the order of the priorities.
-/
import WaitGc.Ftl.State
import WaitGc.Lib.Outcome
import WaitGc.Proof.PqueueOrder
import WaitGc.Proof.Shelves
import Mathlib.Data.Set.Card
import Mathlib.Order.Interval.Finset.Nat

namespace WaitGc

open Function Heap Outcome

namespace Pqueue

variable {ν : Type} {ops : PqueueOps ν} {q q' : Pqueue} {ns ns' : ℕ → ν} {M : Set ℕ} {a n : ℕ}

/-! ## The calls of a client -/

/-- A call of the queue. -/
inductive Call where
  | insert (a : ℕ)
  | changePriority (newPri a : ℕ)
  | remove (a : ℕ)
  | pop

/-- The queue, its nodes, and what was popped. -/
structure Client (ν : Type) where
  q : Pqueue
  ns : ℕ → ν
  popped : List (Option ℕ)

/-- The nodes in the queue. -/
def Client.members (r : Client ν) : Set ℕ := {a | ∃ k, 1 ≤ k ∧ k < r.q.size ∧ r.q.d k = .ptr a}

/-- A call dereferences a stray pointer, or it returns. -/
def orWild {α : Type} : Option α → Except Fault α
  | some x => .ok x
  | none => .error .wildPointer

/-- The queue as a machine. -/
def client (ops : PqueueOps ν) : Machine (Client ν) Call Fault where
  step r
    | .insert a => (orWild (pqueueInsert ops r.q r.ns a)).map fun x => ⟨x.1, x.2, r.popped⟩
    | .changePriority newPri a =>
      (orWild (pqueueChangePriority ops r.q r.ns newPri a)).map fun x => ⟨x.1, x.2, r.popped⟩
    | .remove a => (orWild (pqueueRemove ops r.q r.ns a)).map fun x => ⟨x.1, x.2, r.popped⟩
    | .pop => (orWild (pqueuePop ops r.q r.ns)).map fun x => ⟨x.2.1, x.2.2, r.popped ++ [x.1]⟩

/-- What a client keeps to. -/
def Call.Legal (r : Client ν) : Call → Prop
  | .insert a => a ∉ r.members ∧ r.q.size < r.q.avail
  | .changePriority _ a => a ∈ r.members
  | .remove a => a ∈ r.members
  | .pop => True

/-- What a call does to a set of nodes with priorities. -/
def Call.Law (ops : PqueueOps ν) (r r' : Client ν) : Call → Prop
  | .insert a => r'.members = Insert.insert a r.members ∧ r'.popped = r.popped ∧
      ∀ b, ops.getpri (r'.ns b) = ops.getpri (r.ns b)
  | .changePriority newPri a => r'.members = r.members ∧ r'.popped = r.popped ∧
      ∀ b, ops.getpri (r'.ns b) = if b = a then newPri else ops.getpri (r.ns b)
  | .remove a => r'.members = r.members \ {a} ∧ r'.popped = r.popped ∧
      ∀ b, ops.getpri (r'.ns b) = ops.getpri (r.ns b)
  | .pop => (∀ b, ops.getpri (r'.ns b) = ops.getpri (r.ns b)) ∧
      (r.members = ∅ ∧ r'.members = ∅ ∧ r'.popped = r.popped ++ [none] ∨
        ∃ v ∈ r.members, (∀ b ∈ r.members, ops.getpri (r.ns v) ≤ ops.getpri (r.ns b)) ∧
          r'.members = r.members \ {v} ∧ r'.popped = r.popped ++ [some v])

/-- A queue whose slots and positions agree, in its order and inside its array. -/
structure ClientOk (ops : PqueueOps ν) (r : Client ν) : Prop where
  linked : Linked ops r.q r.ns r.members
  sorted : Sorted ops r.q r.ns
  le_avail : r.q.size ≤ r.q.avail

/-! ## `pqueue_is_valid` -/

/-- One child of `subtree_is_valid`. -/
private theorem childIsValid_iff (ho : ops.MinFirst) (h : Linked ops q ns M) {pos : ℕ} (child : ℕ)
    (hpos : 1 ≤ pos) (hpn : pos < q.size) (hc : 1 ≤ child) {below : Option Bool}
    (hbelow : child < q.size → ∃ b, below = some b ∧
      (b = true ↔ OrderedBelow q.size (slotPri ops q ns) child)) :
    ∃ b, (if child < q.size then do
        let p ← q.node pos
        let n ← q.node child
        if ops.cmppri (ops.getpri (ns p)) (ops.getpri (ns n)) then some false else below
      else some true : Option Bool) = some b ∧
      (b = true ↔ (child < q.size → slotPri ops q ns pos ≤ slotPri ops q ns child ∧
        OrderedBelow q.size (slotPri ops q ns) child)) := by
  by_cases hcn : child < q.size
  · obtain ⟨p, -, hp, -⟩ := h.slot pos hpos hpn
    obtain ⟨n, -, hn, -⟩ := h.slot child hc hcn
    obtain ⟨b, hb, hiff⟩ := hbelow hcn
    rw [if_pos hcn, node_ptr hp, node_ptr hn, slotPri_ptr hp, slotPri_ptr hn]
    simp only [Option.bind_eq_bind, Option.bind_some]
    by_cases hcmp : ops.cmppri (ops.getpri (ns p)) (ops.getpri (ns n)) = true
    · rw [if_pos hcmp]
      rw [ho.cmppri_iff] at hcmp
      refine ⟨false, rfl, iff_of_false (by simp) fun himp => ?_⟩
      exact absurd (himp hcn).1 (not_le.2 hcmp)
    · rw [if_neg hcmp]
      rw [ho.cmppri_iff, not_lt] at hcmp
      refine ⟨b, hb, hiff.trans ⟨fun hord _ => ⟨hcmp, hord⟩, fun himp => (himp hcn).2⟩⟩
  · rw [if_neg hcn]
    exact ⟨true, rfl, iff_of_true rfl fun hlt => absurd hlt hcn⟩

/-- **`subtree_is_valid`** decides the order below a slot. -/
theorem subtreeIsValid_iff (ho : ops.MinFirst) (h : Linked ops q ns M) :
    ∀ (fuel : ℕ) {pos : ℕ}, 1 ≤ pos → pos < q.size → q.size ≤ pos + fuel →
      ∃ b, subtreeIsValid ops q ns fuel pos = some b ∧
        (b = true ↔ OrderedBelow q.size (slotPri ops q ns) pos)
  | 0, _, _, hlt, hfuel => absurd hfuel (by omega)
  | fuel + 1, pos, hpos, hlt, hfuel => by
    have hchild (child : ℕ) (hc : child / 2 = pos) :=
      childIsValid_iff ho h child hpos hlt (by omega) fun hcn =>
        subtreeIsValid_iff ho h fuel (by omega) hcn (by omega)
    obtain ⟨bl, hl, hliff⟩ := hchild (2 * pos) (by omega)
    obtain ⟨br, hr, hriff⟩ := hchild (2 * pos + 1) (by omega)
    refine ⟨bl && br, ?_, ?_⟩
    · unfold subtreeIsValid
      dsimp only
      rw [hl, hr]
      cases bl <;> rfl
    · rw [Bool.and_eq_true, hliff, hriff, orderedBelow_iff hpos]
      constructor
      · rintro ⟨hleft, hright⟩ j hj hjn
        have h2 : j = 2 * pos ∨ j = 2 * pos + 1 := by omega
        rcases h2 with rfl | rfl
        · exact hleft hjn
        · exact hright hjn
      · intro hall
        exact ⟨fun hn => hall _ (by omega) hn, fun hn => hall _ (by omega) hn⟩

/-- **`pqueue_is_valid`** decides the order of the queue. -/
theorem pqueueIsValid_iff (ho : ops.MinFirst) (h : Linked ops q ns M) :
    pqueueIsValid ops q ns = some true ↔ Sorted ops q ns := by
  unfold pqueueIsValid Sorted
  rw [ordered_iff_below]
  rcases Nat.lt_or_ge 1 q.size with h1 | h1
  · obtain ⟨b, hb, hiff⟩ := subtreeIsValid_iff ho h q.size le_rfl h1 (by omega)
    rw [hb, Option.some.injEq]
    exact hiff
  · -- an empty queue
    have hsize : q.size = 1 := by
      have := h.size_pos
      omega
    rw [hsize]
    refine iff_of_true ?_ fun k hk hk1 hkn => ?_
    · simp [subtreeIsValid, hsize]
    · have := hk.le
      omega

/-! ## The array keeps its length -/

theorem bubbleUpLoop_avail {pri : ℕ} : ∀ {fuel : ℕ} {q q' : Pqueue} {ns ns' : ℕ → ν} {i i' : ℕ},
    bubbleUpLoop ops pri fuel q ns i = some (q', ns', i') → q'.avail = q.avail
  | 0, q, _, ns, _, i, _, h => by cases h; rfl
  | fuel + 1, q, _, ns, _, i, _, h => by
    unfold bubbleUpLoop at h
    split_ifs at h
    · obtain ⟨p, -, h⟩ := Option.bind_eq_some_iff.1 h
      split_ifs at h
      · exact (bubbleUpLoop_avail h).trans rfl
      · cases h; rfl
    · cases h; rfl

theorem percolateDownLoop_avail {pri : ℕ} : ∀ {fuel : ℕ} {q q' : Pqueue} {ns ns' : ℕ → ν} {i i' : ℕ},
    percolateDownLoop ops pri fuel q ns i = some (q', ns', i') → q'.avail = q.avail
  | 0, q, _, ns, _, i, _, h => by cases h; rfl
  | fuel + 1, q, _, ns, _, i, _, h => by
    unfold percolateDownLoop at h
    obtain ⟨child, -, h⟩ := Option.bind_eq_some_iff.1 h
    split_ifs at h
    · cases h; rfl
    · obtain ⟨b, -, h⟩ := Option.bind_eq_some_iff.1 h
      split_ifs at h
      · exact (percolateDownLoop_avail h).trans rfl
      · cases h; rfl

theorem bubbleUp_avail {i : ℕ} (h : bubbleUp ops q ns i = some (q', ns')) : q'.avail = q.avail := by
  obtain ⟨m, -, h⟩ := Option.bind_eq_some_iff.1 h
  obtain ⟨⟨q₁, ns₁, i₁⟩, h₁, h⟩ := Option.bind_eq_some_iff.1 h
  have havail := bubbleUpLoop_avail h₁
  cases h
  exact havail

theorem percolateDown_avail {i : ℕ} (h : percolateDown ops q ns i = some (q', ns')) :
    q'.avail = q.avail := by
  obtain ⟨m, -, h⟩ := Option.bind_eq_some_iff.1 h
  obtain ⟨⟨q₁, ns₁, i₁⟩, h₁, h⟩ := Option.bind_eq_some_iff.1 h
  have havail := percolateDownLoop_avail h₁
  cases h
  exact havail

theorem pqueueInsert_avail (h : pqueueInsert ops q ns a = some (q', ns')) : q'.avail = q.avail := by
  unfold pqueueInsert at h
  have havail := bubbleUp_avail h
  exact havail

theorem pqueueChangePriority_avail {pri : ℕ} (h : pqueueChangePriority ops q ns pri a = some (q', ns')) :
    q'.avail = q.avail := by
  unfold pqueueChangePriority at h
  dsimp only at h
  split_ifs at h
  · exact bubbleUp_avail h
  · exact percolateDown_avail h

theorem pqueueRemove_avail (h : pqueueRemove ops q ns a = some (q', ns')) : q'.avail = q.avail := by
  obtain ⟨m, -, h⟩ := Option.bind_eq_some_iff.1 h
  split_ifs at h
  · have havail := bubbleUp_avail h
    exact havail
  · have havail := percolateDown_avail h
    exact havail

theorem pqueuePop_avail {v : Option ℕ} (h : pqueuePop ops q ns = some (v, q', ns')) :
    q'.avail = q.avail := by
  unfold pqueuePop at h
  split_ifs at h
  · cases h; rfl
  · obtain ⟨head, -, h⟩ := Option.bind_eq_some_iff.1 h
    obtain ⟨⟨q₁, ns₁⟩, h₁, h⟩ := Option.bind_eq_some_iff.1 h
    have havail := percolateDown_avail h₁
    cases h
    exact havail

/-! ## One call -/

theorem Linked.members_eq (popped : List (Option ℕ)) (h : Linked ops q ns M) :
    (⟨q, ns, popped⟩ : Client ν).members = M := by
  ext a
  constructor
  · rintro ⟨k, hk, hkn, hd⟩
    obtain ⟨b, hb, hd', -⟩ := h.slot k hk hkn
    rw [show q.d k = .ptr a from hd] at hd'
    exact Slot.ptr.inj hd' ▸ hb
  · intro ha
    exact ⟨_, h.node a ha⟩

theorem Linked.ncard_eq (h : Linked ops q ns M) : M.ncard = q.pqueueSize := by
  have hbij : Set.BijOn (fun a => ops.getpos (ns a)) M (Finset.Ico 1 q.size : Set ℕ) := by
    refine ⟨fun a ha => ?_, fun a ha b hb hab => ?_, fun k hk => ?_⟩
    · have := h.node a ha
      exact Finset.mem_coe.2 (Finset.mem_Ico.2 ⟨this.1, this.2.1⟩)
    · have hda := (h.node a ha).2.2
      have hdb := (h.node b hb).2.2
      dsimp only at hab
      rw [hab, hdb] at hda
      exact (Slot.ptr.inj hda).symm
    · obtain ⟨h₁, h₂⟩ := Finset.mem_Ico.1 (Finset.mem_coe.1 hk)
      obtain ⟨a, ha, -, hp⟩ := h.slot k h₁ h₂
      exact ⟨a, ha, hp⟩
  rw [← Set.InjOn.ncard_image hbij.injOn, hbij.image_eq, Set.ncard_coe_finset, Nat.card_Ico]
  rfl

theorem Sorted.head_le (hs : Sorted ops q ns) (h : Linked ops q ns M) {v b : ℕ} (hv : q.d 1 = .ptr v)
    (hb : b ∈ M) : ops.getpri (ns v) ≤ ops.getpri (ns b) := by
  obtain ⟨h₁, hlt, hd⟩ := h.node b hb
  have hroot := Ordered.root_le hs _ h₁ hlt
  rwa [slotPri_ptr hv, slotPri_ptr hd] at hroot

/-- **A legal call** returns, keeps the queue and obeys its law. -/
theorem ClientOk.step (ho : ops.MinFirst) {r : Client ν} (h : ClientOk ops r) (call : Call)
    (hlegal : call.Legal r) :
    ∃ r', (client ops).step r call = .ok r' ∧ ClientOk ops r' ∧ call.Law ops r r' := by
  obtain ⟨q, ns, popped⟩ := r
  obtain ⟨hlk, hs, hle⟩ := h
  have hl := ho.toLawful
  cases call with
  | insert a =>
    obtain ⟨hnot, hroom⟩ := hlegal
    obtain ⟨q', ns', he, hlk', hsize, hrep⟩ := pqueueInsert_linked hl hlk hnot
    have hmem := hlk'.members_eq popped
    refine ⟨⟨q', ns', popped⟩, ?_, ⟨?_, pqueueInsert_sorted ho hlk hs he, ?_⟩, hmem, rfl, hrep.getpri hl⟩
    · change (orWild (pqueueInsert ops q ns a)).map _ = _
      rw [he]
      rfl
    · rw [hmem]
      exact hlk'
    · change q'.size ≤ q'.avail
      rw [hsize, pqueueInsert_avail he]
      exact hroom
  | changePriority newPri a =>
    obtain ⟨q', ns', he, hlk', hsize, hrep⟩ := pqueueChangePriority_linked hl hlk hlegal newPri
    have hmem := hlk'.members_eq popped
    refine ⟨⟨q', ns', popped⟩, ?_,
      ⟨?_, pqueueChangePriority_sorted ho hlk hs hlegal he, ?_⟩, hmem, rfl, fun b => ?_⟩
    · change (orWild (pqueueChangePriority ops q ns newPri a)).map _ = _
      rw [he]
      rfl
    · rw [hmem]
      exact hlk'
    · change q'.size ≤ q'.avail
      rw [hsize, pqueueChangePriority_avail he]
      exact hle
    · change ops.getpri (ns' b) = _
      rw [hrep.getpri hl]
      by_cases hb : b = a
      · rw [hb, update_self, ho.getpri_setpri, if_pos rfl]
      · rw [update_of_ne hb, if_neg hb]
  | remove a =>
    obtain ⟨q', ns', he, hlk', hsize, hrep⟩ := pqueueRemove_linked hl hlk hlegal
    have hmem := hlk'.members_eq popped
    refine ⟨⟨q', ns', popped⟩, ?_, ⟨?_, pqueueRemove_sorted ho hlk hs hlegal he, ?_⟩, hmem, rfl,
      hrep.getpri hl⟩
    · change (orWild (pqueueRemove ops q ns a)).map _ = _
      rw [he]
      rfl
    · rw [hmem]
      exact hlk'
    · change q'.size ≤ q'.avail
      rw [hsize, pqueueRemove_avail he]
      exact (Nat.sub_le _ _).trans hle
  | pop =>
    by_cases h1 : q.size = 1
    · have hempty : (⟨q, ns, popped⟩ : Client ν).members = ∅ := by
        refine Set.eq_empty_of_forall_notMem fun b ⟨k, hk, hkn, _⟩ => ?_
        dsimp only at hkn
        omega
      refine ⟨⟨q, ns, popped ++ [none]⟩, ?_, ⟨hlk, hs, hle⟩, fun _ => rfl, .inl ⟨hempty, hempty, rfl⟩⟩
      change (orWild (pqueuePop ops q ns)).map _ = _
      rw [pqueuePop, if_pos h1]
      rfl
    · have hlt : 1 < q.size := lt_of_le_of_ne hlk.size_pos (Ne.symm h1)
      obtain ⟨v, hv, hd, q', ns', he, hlk', hsize, hrep⟩ := pqueuePop_linked hl hlk hlt
      have hmem := hlk'.members_eq (popped ++ [some v])
      refine ⟨⟨q', ns', popped ++ [some v]⟩, ?_, ⟨?_, pqueuePop_sorted ho hlk hs hlt he, ?_⟩,
        hrep.getpri hl, .inr ⟨v, hv, fun b hb => hs.head_le hlk hd hb, hmem, rfl⟩⟩
      · change (orWild (pqueuePop ops q ns)).map _ = _
        rw [he]
        rfl
      · rw [hmem]
        exact hlk'
      · change q'.size ≤ q'.avail
        rw [hsize, pqueuePop_avail he]
        exact (Nat.sub_le _ _).trans hle

/-! ## Runs -/

/-- The queue after `pqueue_init`. -/
def Client.start (n : ℕ) (junk : ℕ → Slot) (ns : ℕ → ν) : Client ν := ⟨.init n junk, ns, []⟩

theorem clientOk_start (ops : PqueueOps ν) (n : ℕ) (junk : ℕ → Slot) (ns : ℕ → ν) :
    ClientOk ops (.start n junk ns) where
  linked := by
    refine ⟨le_rfl, fun i h₁ hi => absurd hi (Nat.not_lt.2 h₁), ?_⟩
    rintro a ⟨k, h₁, hk, -⟩
    exact absurd hk (Nat.not_lt.2 h₁)
  sorted := ordered_one _
  le_avail := Nat.succ_le_succ (Nat.zero_le n)

/-- What the queue promises after any calls. -/
structure QueueSound (ops : PqueueOps ν) (r : Client ν) : Prop where
  valid : pqueueIsValid ops r.q r.ns = some true
  size : r.q.pqueueSize = r.members.ncard
  le_avail : r.q.size ≤ r.q.avail
  position : ∀ a ∈ r.members, r.q.d (ops.getpos (r.ns a)) = .ptr a
  peek : ∀ v, r.q.pqueuePeek = .ptr v →
    v ∈ r.members ∧ ∀ b ∈ r.members, ops.getpri (r.ns v) ≤ ops.getpri (r.ns b)
  peek_null : r.q.pqueuePeek = .null ↔ r.members = ∅

theorem ClientOk.sound (ho : ops.MinFirst) {r : Client ν} (h : ClientOk ops r) : QueueSound ops r := by
  have hlk := h.linked
  have hsize := hlk.ncard_eq.symm
  refine ⟨(pqueueIsValid_iff ho hlk).2 h.sorted, hsize, h.le_avail, fun a ha => (hlk.node a ha).2.2, ?_, ?_⟩
  · intro v hv
    unfold pqueuePeek at hv
    split_ifs at hv with h1
    have hlt : 1 < r.q.size := lt_of_le_of_ne hlk.size_pos (Ne.symm h1)
    exact ⟨⟨1, le_rfl, hlt, hv⟩, fun b hb => h.sorted.head_le hlk hv hb⟩
  · unfold pqueuePeek
    constructor
    · intro hnull
      refine Set.eq_empty_of_forall_notMem fun b hb => ?_
      obtain ⟨h₁, hlt, -⟩ := hlk.node b hb
      obtain ⟨v, -, hd, -⟩ := hlk.slot 1 le_rfl (by omega)
      rw [if_neg (by omega), hd] at hnull
      cases hnull
    · intro hempty
      rw [hempty, Set.ncard_empty, pqueueSize] at hsize
      have := hlk.size_pos
      exact if_pos (by omega)

/-- **A legal client** never meets a stray pointer, every call obeys its law, and the queue
    stays sound. -/
theorem pqueue_refines (ho : ops.MinFirst) {junk : ℕ → Slot} {calls : List Call}
    (hlegal : (client ops).Along (fun r call => call.Legal r) (.start n junk ns) calls) :
    Sat (fun _ => False) (QueueSound ops) ((client ops).run (.start n junk ns) calls) ∧
      (client ops).Along (fun r call => ∃ r', (client ops).step r call = .ok r' ∧ call.Law ops r r')
        (.start n junk ns) calls := by
  have h₀ := clientOk_start ops n junk ns
  constructor
  · refine (Machine.run_sat (I := ClientOk ops) (fun r call h hlegal => ?_) h₀ hlegal).mono
      (fun _ he => he) fun r h => h.sound ho
    obtain ⟨r', hr, h', -⟩ := h.step ho _ hlegal
    rw [hr]
    exact h'
  · refine hlegal.imp (I := ClientOk ops) (fun r call r' h hlegal hstep => ?_) (fun r call h hlegal => ?_) h₀
    · obtain ⟨r₁, hr, h', -⟩ := h.step ho _ hlegal
      rw [hr] at hstep
      exact Except.ok.inj hstep ▸ h'
    · obtain ⟨r', hr, -, hlaw⟩ := h.step ho _ hlegal
      exact ⟨r', hr, hlaw⟩

/-- What is popped from the queue `r` until it is empty. -/
structure Drained (ops : PqueueOps ν) (r r' : Client ν) (l : List ℕ) : Prop where
  popped : r'.popped = r.popped ++ l.map some
  ordered : l.Pairwise fun a b => ops.getpri (r.ns a) ≤ ops.getpri (r.ns b)
  once : l.Nodup
  mem_iff : ∀ a, a ∈ l ↔ a ∈ r.members
  empty : r'.members = ∅

/-- **Popping the members one by one.** -/
theorem ClientOk.drain (ho : ops.MinFirst) : ∀ (m : ℕ) {r : Client ν}, ClientOk ops r →
    r.q.pqueueSize = m → ∃ l r', (client ops).run r (List.replicate m .pop) = .ok r' ∧ Drained ops r r' l
  | 0, r, h, hm => by
    have hempty : r.members = ∅ := by
      refine Set.eq_empty_of_forall_notMem fun b hb => ?_
      obtain ⟨h₁, hlt, -⟩ := h.linked.node b hb
      unfold pqueueSize at hm
      omega
    refine ⟨[], r, rfl, ?_, .nil, List.nodup_nil, fun a => ?_, hempty⟩
    · rw [List.map_nil, List.append_nil]
    · rw [hempty]
      simp
  | m + 1, r, h, hm => by
    obtain ⟨r₁, hr₁, h₁, hpri, hlaw⟩ := h.step ho .pop trivial
    have hcard := h.linked.ncard_eq
    rw [hm] at hcard
    rcases hlaw with ⟨hempty, -⟩ | ⟨v, hv, hmin, hmem, hpop⟩
    · rw [hempty, Set.ncard_empty] at hcard
      omega
    have hm₁ : r₁.q.pqueueSize = m := by
      rw [← h₁.linked.ncard_eq, hmem, Set.ncard_sdiff_singleton_of_mem hv, hcard, Nat.add_sub_cancel]
    obtain ⟨l, r', hrun, hl⟩ := ClientOk.drain ho m h₁ hm₁
    refine ⟨v :: l, r', ?_, ?_, ?_, ?_, fun a => ?_, hl.empty⟩
    · rw [List.replicate_succ, Machine.run_cons, hr₁]
      exact hrun
    · rw [hl.popped, hpop, List.append_assoc]
      rfl
    · refine List.pairwise_cons.2 ⟨fun b hb => ?_, ?_⟩
      · have hb₁ := (hl.mem_iff b).1 hb
        rw [hmem] at hb₁
        exact hmin b hb₁.1
      · exact hl.ordered.imp fun hab => by rwa [hpri, hpri] at hab
    · refine List.nodup_cons.2 ⟨fun hvl => ?_, hl.once⟩
      have hv₁ := (hl.mem_iff v).1 hvl
      rw [hmem] at hv₁
      exact hv₁.2 rfl
    · rw [List.mem_cons, hl.mem_iff, hmem]
      by_cases hav : a = v
      · rw [hav]
        exact iff_of_true (.inl rfl) hv
      · simp [hav]

/-- **The queue sorts**: after the calls of a legal client, popping until the queue is empty
    returns each member once, in the order of the priorities that the nodes have then. -/
theorem pqueue_drains (ho : ops.MinFirst) {junk : ℕ → Slot} {calls : List Call} {r : Client ν}
    (hlegal : (client ops).Along (fun r call => call.Legal r) (.start n junk ns) calls)
    (hrun : (client ops).run (.start n junk ns) calls = .ok r) :
    ∃ l r', (client ops).run r (List.replicate r.q.pqueueSize .pop) = .ok r' ∧ Drained ops r r' l := by
  have h : ClientOk ops r := by
    refine (Machine.run_sat (E := fun _ => False) (I := ClientOk ops) (fun r call h hlegal => ?_)
      (clientOk_start ops n junk ns) hlegal).of_ok hrun
    obtain ⟨r', hr, h', -⟩ := h.step ho _ hlegal
    rw [hr]
    exact h'
  exact h.drain ho _ rfl

/-! ## Three lines -/

instance (r : Client ν) (a : ℕ) : Decidable (a ∈ r.members) :=
  decidable_of_iff (∃ k ∈ List.range r.q.size, 1 ≤ k ∧ r.q.d k = .ptr a) <| by
    simp only [List.mem_range]
    exact ⟨fun ⟨k, hk, h₁, hd⟩ => ⟨k, h₁, hk, hd⟩, fun ⟨k, h₁, hk, hd⟩ => ⟨k, hk, h₁, hd⟩⟩

instance (r : Client ν) : (call : Call) → Decidable (call.Legal r)
  | .insert a => inferInstanceAs (Decidable (a ∉ r.members ∧ r.q.size < r.q.avail))
  | .changePriority _ a => inferInstanceAs (Decidable (a ∈ r.members))
  | .remove a => inferInstanceAs (Decidable (a ∈ r.members))
  | .pop => .isTrue trivial

/-- Line `i` has `7 - i` valid pages. -/
def threeLines (i : ℕ) : Line := ⟨i, 0, 7 - i, 0, 0, false, 0, 0, 0⟩

/-- Three lines are inserted, one gets more valid pages, one is removed and one is popped. -/
def threeLinesRun : List Call :=
  [.insert 0, .insert 1, .insert 2, .changePriority 9 2, .pop, .insert 1, .remove 0]

theorem pqueue_refines_threeLines :
    Sat (fun _ => False) (QueueSound victimLine)
      ((client victimLine).run (.start 3 (fun _ => .wild) threeLines) threeLinesRun) ∧
    (client victimLine).Along
      (fun r call => ∃ r', (client victimLine).step r call = .ok r' ∧ call.Law victimLine r r')
      (.start 3 (fun _ => .wild) threeLines) threeLinesRun :=
  pqueue_refines victimLine_minFirst (by decide)

theorem pqueue_drains_threeLines : ∃ r l r',
    (client victimLine).run (.start 3 (fun _ => .wild) threeLines) threeLinesRun = .ok r ∧
      (client victimLine).run r (List.replicate r.q.pqueueSize .pop) = .ok r' ∧
      Drained victimLine r r' l := by
  have hlegal : (client victimLine).Along (fun r call => call.Legal r)
      (.start 3 (fun _ => .wild) threeLines) threeLinesRun := by decide
  obtain ⟨r, hrun⟩ : ∃ r, (client victimLine).run (.start 3 (fun _ => .wild) threeLines) threeLinesRun = .ok r :=
    ⟨_, rfl⟩
  obtain ⟨l, r', hpops, hl⟩ := pqueue_drains victimLine_minFirst hlegal hrun
  exact ⟨r, l, r', hrun, hpops, hl⟩

end Pqueue

end WaitGc

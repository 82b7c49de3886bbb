/-
  WAITGC verification — the queue keeps its nodes.

  * `Linked`: the live slots and the position fields of the members point at
    each other.
  * `Hole`: the same for every slot but one, which belongs to the node that is
    on its way.  Both loops move the hole (`Hole.move`) until the node is put
    down (`Hole.close`).
  * `Repos`: an operation changes a node's position and nothing else of it.

  The specifications say that an operation on a linked queue dereferences
  nodes only, and what it does to the set of members.  The order of the heap is
  not needed for any of them.  On a queue that is not linked, an operation that
  returns still changes positions only.
-/
import WaitGc.Pqueue
import Mathlib.Data.Set.Insert
import Mathlib.Order.Basic

namespace WaitGc

open Function

/-- The laws of the callbacks: the position is a field apart from the
    priority, and no priority is worse than itself. -/
structure PqueueOps.Lawful {ν : Type} (ops : PqueueOps ν) : Prop where
  getpri_setpos : ∀ n p, ops.getpri (ops.setpos n p) = ops.getpri n
  getpos_setpos : ∀ n p, ops.getpos (ops.setpos n p) = p
  getpos_setpri : ∀ n p, ops.getpos (ops.setpri n p) = ops.getpos n
  setpos_setpos : ∀ n p p', ops.setpos (ops.setpos n p) p' = ops.setpos n p'
  setpos_getpos : ∀ n, ops.setpos n (ops.getpos n) = n
  cmppri_irrefl : ∀ p, ops.cmppri p p = false

namespace Pqueue

variable {ν : Type} (ops : PqueueOps ν) {q q' : Pqueue} {ns ns' : ℕ → ν} {M : Set ℕ}
  {a i j m : ℕ}

theorem node_ptr (h : q.d i = .ptr a) : q.node i = some a := by simp only [node, h]

/-! ## Stores that differ in positions -/

/-- `ns'` is `ns` with other positions for the nodes of `M`. -/
def Repos (M : Set ℕ) (ns ns' : ℕ → ν) : Prop :=
  ∀ a, (∃ p, ns' a = ops.setpos (ns a) p) ∧ (a ∉ M → ns' a = ns a)

section
variable {ops}

theorem Repos.refl (hl : ops.Lawful) (M : Set ℕ) (ns : ℕ → ν) : Repos ops M ns ns :=
  fun a => ⟨⟨ops.getpos (ns a), (hl.setpos_getpos _).symm⟩, fun _ => rfl⟩

theorem Repos.trans (hl : ops.Lawful) {ns₁ ns₂ ns₃ : ℕ → ν} (h : Repos ops M ns₁ ns₂)
    (h' : Repos ops M ns₂ ns₃) : Repos ops M ns₁ ns₃ := by
  intro a
  obtain ⟨⟨p, hp⟩, hM⟩ := h a
  obtain ⟨⟨p', hp'⟩, hM'⟩ := h' a
  exact ⟨⟨p', by rw [hp', hp, hl.setpos_setpos]⟩, fun ha => by rw [hM' ha, hM ha]⟩

theorem Repos.setpos (hl : ops.Lawful) (ha : a ∈ M) (i : ℕ) :
    Repos ops M ns (update ns a (ops.setpos (ns a) i)) := by
  intro b
  by_cases hb : b = a
  · subst hb
    exact ⟨⟨i, update_self ..⟩, fun h => absurd ha h⟩
  · rw [update_of_ne hb]
    exact ⟨⟨_, (hl.setpos_getpos _).symm⟩, fun _ => rfl⟩

theorem Repos.mono {M' : Set ℕ} (h : Repos ops M ns ns') (hM : M ⊆ M') : Repos ops M' ns ns' :=
  fun a => ⟨(h a).1, fun ha => (h a).2 fun h => ha (hM h)⟩

/-! ## Linked queues and holes -/

/-- The live slots hold the members, each at its position. -/
structure Linked (ops : PqueueOps ν) (q : Pqueue) (ns : ℕ → ν) (M : Set ℕ) : Prop where
  size_pos : 1 ≤ q.size
  slot : ∀ i, 1 ≤ i → i < q.size → ∃ a ∈ M, q.d i = .ptr a ∧ ops.getpos (ns a) = i
  node : ∀ a ∈ M, 1 ≤ ops.getpos (ns a) ∧ ops.getpos (ns a) < q.size ∧
    q.d (ops.getpos (ns a)) = .ptr a

/-- As `Linked`, but slot `i` is reserved for the member `m`. -/
structure Hole (ops : PqueueOps ν) (q : Pqueue) (ns : ℕ → ν) (M : Set ℕ) (m i : ℕ) : Prop where
  mem : m ∈ M
  pos : 1 ≤ i
  lt : i < q.size
  slot : ∀ j, 1 ≤ j → j < q.size → j ≠ i → ∃ a ∈ M, a ≠ m ∧ q.d j = .ptr a ∧ ops.getpos (ns a) = j
  node : ∀ a ∈ M, a ≠ m → 1 ≤ ops.getpos (ns a) ∧ ops.getpos (ns a) < q.size ∧
    ops.getpos (ns a) ≠ i ∧ q.d (ops.getpos (ns a)) = .ptr a

theorem Linked.hole (h : Linked ops q ns M) (hm : m ∈ M) :
    Hole ops q ns M m (ops.getpos (ns m)) where
  mem := hm
  pos := (h.node m hm).1
  lt := (h.node m hm).2.1
  slot j hj hlt hne := by
    obtain ⟨a, ha, hd, hp⟩ := h.slot j hj hlt
    exact ⟨a, ha, fun he => hne (by rw [← hp, he]), hd, hp⟩
  node a ha hne := by
    obtain ⟨h₁, h₂, h₃⟩ := h.node a ha
    refine ⟨h₁, h₂, fun he => hne ?_, h₃⟩
    rw [he, (h.node m hm).2.2] at h₃
    exact (Slot.ptr.inj h₃).symm

theorem place_size : (place ops q ns i a).1.size = q.size := rfl

theorem Hole.move (hl : ops.Lawful) (h : Hole ops q ns M m i) (hj : 1 ≤ j) (hlt : j < q.size)
    (hji : j ≠ i) (hd : q.d j = .ptr a) :
    Hole ops (place ops q ns i a).1 (place ops q ns i a).2 M m j := by
  obtain ⟨a', ha, ham, hd', hp⟩ := h.slot j hj hlt hji
  obtain rfl : a' = a := by rw [hd] at hd'; exact (Slot.ptr.inj hd').symm
  refine ⟨h.mem, hj, hlt, fun k hk hklt hkj => ?_, fun b hb hbm => ?_⟩
  · by_cases hki : k = i
    · subst hki
      exact ⟨a', ha, ham, by simp [place, set], by simp [place, hl.getpos_setpos]⟩
    · obtain ⟨b, hb, hbm, hbd, hbp⟩ := h.slot k hk hklt hki
      have hba : b ≠ a' := fun he => hkj (by rw [← hbp, he, hp])
      exact ⟨b, hb, hbm, by simp [place, set, hki, hbd], by simp [place, hba, hbp]⟩
  · by_cases hba : b = a'
    · subst hba
      simpa [place, set, hl.getpos_setpos] using ⟨h.pos, h.lt, hji.symm⟩
    · obtain ⟨h₁, h₂, h₃, h₄⟩ := h.node b hb hbm
      have hbj : ops.getpos (ns b) ≠ j := fun he => hba (by
        rw [he, hd] at h₄; exact (Slot.ptr.inj h₄).symm)
      simpa [place, set, hba, h₃] using ⟨h₁, h₂, hbj, h₄⟩

theorem Hole.close (hl : ops.Lawful) (h : Hole ops q ns M m i) :
    Linked ops (place ops q ns i m).1 (place ops q ns i m).2 M := by
  refine ⟨h.pos.trans h.lt.le, fun k hk hklt => ?_, fun b hb => ?_⟩
  · by_cases hki : k = i
    · subst hki
      exact ⟨m, h.mem, by simp [place, set], by simp [place, hl.getpos_setpos]⟩
    · obtain ⟨b, hb, hbm, hbd, hbp⟩ := h.slot k hk hklt hki
      exact ⟨b, hb, by simp [place, set, hki, hbd], by simp [place, hbm, hbp]⟩
  · by_cases hbm : b = m
    · subst hbm
      simpa [place, set, hl.getpos_setpos] using ⟨h.pos, h.lt⟩
    · obtain ⟨h₁, h₂, h₃, h₄⟩ := h.node b hb hbm
      simpa [place, set, hbm, h₃] using ⟨h₁, h₂, h₄⟩

/-! ## The loops move the hole -/

theorem bubbleUpLoop_hole (hl : ops.Lawful) (pri : ℕ) : ∀ (fuel : ℕ) {q : Pqueue} {ns : ℕ → ν}
    {i : ℕ}, Hole ops q ns M m i → ∃ q' ns' i', bubbleUpLoop ops pri fuel q ns i = some (q', ns', i') ∧
      Hole ops q' ns' M m i' ∧ q'.size = q.size ∧ Repos ops M ns ns'
  | 0, q, ns, i, h => ⟨q, ns, i, rfl, h, rfl, .refl hl _ _⟩
  | fuel + 1, q, ns, i, h => by
    unfold bubbleUpLoop
    by_cases hi : 1 < i
    · have hlt := h.lt
      obtain ⟨p, hp, -, hd, -⟩ := h.slot (i / 2) (by omega) (by omega) (by omega)
      simp only [hi, if_true, node_ptr hd, Option.bind_eq_bind, Option.bind_some]
      split_ifs
      · obtain ⟨q', ns', i', he, hh, hs, hr⟩ := bubbleUpLoop_hole hl pri fuel
          (h.move hl (j := i / 2) (by omega) (by omega) (by omega) hd)
        exact ⟨q', ns', i', he, hh, hs, (Repos.setpos hl hp i).trans hl hr⟩
      · exact ⟨q, ns, i, rfl, h, rfl, .refl hl _ _⟩
    · simp only [hi, if_false]
      exact ⟨q, ns, i, rfl, h, rfl, .refl hl _ _⟩

/-- `maxchild` on a queue with a hole: no child, or a live slot below the hole. -/
theorem maxchild_hole (h : Hole ops q ns M m i) :
    ∃ child, maxchild ops q ns i = some child ∧ (child = 0 ∨ i < child ∧ child < q.size) := by
  unfold maxchild
  have hi := h.pos
  dsimp only
  split_ifs with h₁ h₂
  · exact ⟨0, rfl, .inl rfl⟩
  · obtain ⟨l, -, -, hdl, -⟩ := h.slot (2 * i) (by omega) (by omega) (by omega)
    obtain ⟨r, -, -, hdr, -⟩ := h.slot (2 * i + 1) (by omega) (by omega) (by omega)
    simp only [node_ptr hdl, node_ptr hdr, Option.bind_eq_bind, Option.bind_some]
    exact ⟨_, rfl, .inr (by split_ifs <;> omega)⟩
  · exact ⟨2 * i, rfl, .inr (by omega)⟩

theorem percolateDownLoop_hole (hl : ops.Lawful) (pri : ℕ) : ∀ (fuel : ℕ) {q : Pqueue}
    {ns : ℕ → ν} {i : ℕ}, Hole ops q ns M m i →
      ∃ q' ns' i', percolateDownLoop ops pri fuel q ns i = some (q', ns', i') ∧
        Hole ops q' ns' M m i' ∧ q'.size = q.size ∧ Repos ops M ns ns'
  | 0, q, ns, i, h => ⟨q, ns, i, rfl, h, rfl, .refl hl _ _⟩
  | fuel + 1, q, ns, i, h => by
    unfold percolateDownLoop
    obtain ⟨child, hc, hchild⟩ := maxchild_hole h
    simp only [hc, Option.bind_eq_bind, Option.bind_some]
    split_ifs with h₀
    · exact ⟨q, ns, i, rfl, h, rfl, .refl hl _ _⟩
    · have hi := h.pos
      have hlt : i < child ∧ child < q.size := hchild.resolve_left h₀
      obtain ⟨b, hb, -, hd, -⟩ := h.slot child (by omega) hlt.2 (by omega)
      simp only [node_ptr hd, Option.bind_some]
      split_ifs
      · obtain ⟨q', ns', i', he, hh, hs, hr⟩ := percolateDownLoop_hole hl pri fuel
          (h.move hl (j := child) (by omega) hlt.2 (by omega) hd)
        exact ⟨q', ns', i', he, hh, hs, (Repos.setpos hl hb i).trans hl hr⟩
      · exact ⟨q, ns, i, rfl, h, rfl, .refl hl _ _⟩

theorem bubbleUp_linked (hl : ops.Lawful) (h : Hole ops q ns M m i) (hd : q.d i = .ptr m) :
    ∃ q' ns', bubbleUp ops q ns i = some (q', ns') ∧ Linked ops q' ns' M ∧ q'.size = q.size ∧
      Repos ops M ns ns' := by
  obtain ⟨q', ns', i', he, hh, hs, hr⟩ := bubbleUpLoop_hole hl (ops.getpri (ns m)) i h
  refine ⟨_, _, ?_, hh.close hl, hs, hr.trans hl (.setpos hl h.mem i')⟩
  simp only [bubbleUp, node_ptr hd, Option.bind_eq_bind, Option.bind_some, he]

theorem percolateDown_linked (hl : ops.Lawful) (h : Hole ops q ns M m i) (hd : q.d i = .ptr m) :
    ∃ q' ns', percolateDown ops q ns i = some (q', ns') ∧ Linked ops q' ns' M ∧
      q'.size = q.size ∧ Repos ops M ns ns' := by
  obtain ⟨q', ns', i', he, hh, hs, hr⟩ := percolateDownLoop_hole hl (ops.getpri (ns m)) q.size h
  refine ⟨_, _, ?_, hh.close hl, hs, hr.trans hl (.setpos hl h.mem i')⟩
  simp only [percolateDown, node_ptr hd, Option.bind_eq_bind, Option.bind_some, he]

/-! ## The operations -/

/-- **`pqueue_insert`** adds a member. -/
theorem pqueueInsert_linked (hl : ops.Lawful) (h : Linked ops q ns M) (ha : a ∉ M) :
    ∃ q' ns', pqueueInsert ops q ns a = some (q', ns') ∧ Linked ops q' ns' (insert a M) ∧
      q'.size = q.size + 1 ∧ Repos ops (insert a M) ns ns' := by
  refine bubbleUp_linked hl ⟨Set.mem_insert _ _, h.size_pos, Nat.lt_succ_self _,
    fun j hj hlt hji => ?_, fun b hb hba => ?_⟩ (by simp)
  · obtain ⟨b, hb, hd, hp⟩ := h.slot j hj (by simp only at hlt; omega)
    exact ⟨b, Set.mem_insert_of_mem _ hb, fun he => ha (he ▸ hb), by simp [hji, hd], hp⟩
  · obtain ⟨h₁, h₂, h₃⟩ := h.node b (hb.resolve_left hba)
    exact ⟨h₁, by simp only; omega, h₂.ne, by simp [h₂.ne, h₃]⟩

/-- **`pqueue_change_priority`** keeps the members. -/
theorem pqueueChangePriority_linked (hl : ops.Lawful) (h : Linked ops q ns M) (ha : a ∈ M)
    (pri : ℕ) : ∃ q' ns', pqueueChangePriority ops q ns pri a = some (q', ns') ∧
      Linked ops q' ns' M ∧ q'.size = q.size ∧
      Repos ops M (update ns a (ops.setpri (ns a) pri)) ns' := by
  have hpos (b : ℕ) : ops.getpos (update ns a (ops.setpri (ns a) pri) b) = ops.getpos (ns b) := by
    by_cases hb : b = a
    · subst hb; simp [hl.getpos_setpri]
    · simp [hb]
  have h' : Linked ops q (update ns a (ops.setpri (ns a) pri)) M :=
    ⟨h.size_pos, by simpa only [hpos] using h.slot, by simpa only [hpos] using h.node⟩
  unfold pqueueChangePriority
  dsimp only
  split_ifs
  · exact bubbleUp_linked hl (h'.hole ha) (h'.node a ha).2.2
  · exact percolateDown_linked hl (h'.hole ha) (h'.node a ha).2.2

/-- Taking the node at slot `i` out: the last live slot moves there. -/
private theorem Linked.remove_last (h : Linked ops q ns M) (hi : 1 ≤ i) (hlt : i < q.size - 1)
    (hd : q.d i = .ptr a) (ha : ops.getpos (ns a) = i) :
    ∃ m, q.d (q.size - 1) = .ptr m ∧
      Hole ops (({ q with size := q.size - 1 } : Pqueue).set i (.ptr m)) ns (M \ {a}) m i := by
  obtain ⟨m, hm, hdm, hpm⟩ := h.slot (q.size - 1) (by omega) (by omega)
  have hma : m ≠ a := fun he => by rw [he, ha] at hpm; omega
  refine ⟨m, hdm, ⟨hm, hma⟩, hi, hlt, fun j hj hjlt hji => ?_, fun b hb hbm => ?_⟩
  · simp only [set] at hjlt
    obtain ⟨b, hb, hbd, hbp⟩ := h.slot j hj (by omega)
    refine ⟨b, ⟨hb, fun he => ?_⟩, fun he => ?_, by simp [set, hji, hbd], hbp⟩
    · rw [Set.mem_singleton_iff] at he; rw [he, ha] at hbp; exact hji hbp.symm
    · rw [he, hpm] at hbp; omega
  · obtain ⟨h₁, h₂, h₃⟩ := h.node b hb.1
    have hbi : ops.getpos (ns b) ≠ i := fun he => hb.2 (by
      rw [he, hd] at h₃; exact (Slot.ptr.inj h₃).symm)
    have hbl : ops.getpos (ns b) ≠ q.size - 1 := fun he => hbm (by
      rw [he, hdm] at h₃; exact (Slot.ptr.inj h₃).symm)
    exact ⟨h₁, by simp only [set]; omega, hbi, by simp [set, hbi, h₃]⟩

private theorem Linked.drop_last (h : Linked ops q ns M) (h1 : 1 < q.size)
    (ha : a ∈ M) (hp : ops.getpos (ns a) = q.size - 1) :
    Linked ops { q with size := q.size - 1 } ns (M \ {a}) := by
  refine ⟨by simp only; omega, fun j hj hlt => ?_, fun b hb => ?_⟩
  · simp only at hlt
    obtain ⟨b, hb, hbd, hbp⟩ := h.slot j hj (by omega)
    refine ⟨b, ⟨hb, fun he => ?_⟩, hbd, hbp⟩
    rw [Set.mem_singleton_iff] at he; rw [he, hp] at hbp; omega
  · obtain ⟨h₁, h₂, h₃⟩ := h.node b hb.1
    have hbl : ops.getpos (ns b) ≠ q.size - 1 := fun he => hb.2 (by
      have h₄ := (h.node a ha).2.2
      rw [he, ← hp, h₄] at h₃; exact (Slot.ptr.inj h₃).symm)
    exact ⟨h₁, by simp only; omega, h₃⟩

/-- Percolating a slot that is not live only puts its node down. -/
theorem percolateDown_dead (hd : q.d i = .ptr a) (hi : 1 ≤ i) (hlt : q.size ≤ i) :
    percolateDown ops q ns i = some (place ops q ns i a) := by
  have hloop (fuel : ℕ) :
      percolateDownLoop ops (ops.getpri (ns a)) fuel q ns i = some (q, ns, i) := by
    cases fuel with
    | zero => rfl
    | succ fuel =>
      have hc : maxchild ops q ns i = some 0 := by
        simp only [maxchild, show q.size ≤ 2 * i by omega, if_true]
      simp only [percolateDownLoop, hc, Option.bind_eq_bind, Option.bind_some, if_true]
  simp only [percolateDown, node_ptr hd, Option.bind_eq_bind, Option.bind_some, hloop]

private theorem Linked.place_dead (h : Linked ops q ns M) (ha : a ∉ M) (hlt : q.size ≤ i) :
    Linked ops (place ops q ns i a).1 (place ops q ns i a).2 M := by
  refine ⟨h.size_pos, fun j hj hjlt => ?_, fun b hb => ?_⟩
  · obtain ⟨b, hb, hd, hp⟩ := h.slot j hj hjlt
    have hji : j ≠ i := by rw [place_size] at hjlt; omega
    exact ⟨b, hb, by simp [place, set, hji, hd], by simp [place, ne_of_mem_of_not_mem hb ha, hp]⟩
  · obtain ⟨h₁, h₂, h₃⟩ := h.node b hb
    have hbi : ops.getpos (ns b) ≠ i := by omega
    simpa [place, set, ne_of_mem_of_not_mem hb ha, hbi] using ⟨h₁, h₂, h₃⟩

/-- **`pqueue_remove`** takes a member out. -/
theorem pqueueRemove_linked (hl : ops.Lawful) (h : Linked ops q ns M) (ha : a ∈ M) :
    ∃ q' ns', pqueueRemove ops q ns a = some (q', ns') ∧ Linked ops q' ns' (M \ {a}) ∧
      q'.size = q.size - 1 ∧ Repos ops M ns ns' := by
  obtain ⟨h₁, h₂, h₃⟩ := h.node a ha
  unfold pqueueRemove
  generalize hi : ops.getpos (ns a) = i at h₁ h₂ h₃
  dsimp only
  by_cases hlast : i = q.size - 1
  · -- the removed node is the last one: it stays in its slot, which is not live any more
    have hset : (({ q with size := q.size - 1 } : Pqueue).set i (q.d (q.size - 1))) =
        { q with size := q.size - 1 } := by
      rw [hlast]; simp [set, update_eq_self]
    have hdead : percolateDown ops { q with size := q.size - 1 } ns i = _ :=
      percolateDown_dead h₃ h₁ (by simp only; omega)
    rw [hset]
    have hnode : ({ q with size := q.size - 1 } : Pqueue).node i = some a := node_ptr h₃
    simp only [hnode, Option.bind_eq_bind, Option.bind_some, hl.cmppri_irrefl,
      Bool.false_eq_true, if_false]
    exact ⟨_, _, hdead, (h.drop_last (by omega) ha (by omega)).place_dead (fun h => h.2 rfl)
      (by simp only; omega), rfl, .setpos hl ha i⟩
  · obtain ⟨m, hdm, hh⟩ := h.remove_last h₁ (by omega) h₃ hi
    have hd : (({ q with size := q.size - 1 } : Pqueue).set i (.ptr m)).d i = .ptr m := by simp [set]
    rw [hdm]
    simp only [node_ptr hd, Option.bind_eq_bind, Option.bind_some]
    split_ifs
    · obtain ⟨q', ns', he, hh, hs, hr⟩ := bubbleUp_linked hl hh hd
      exact ⟨q', ns', he, hh, hs, hr.mono fun _ h => h.1⟩
    · obtain ⟨q', ns', he, hh, hs, hr⟩ := percolateDown_linked hl hh hd
      exact ⟨q', ns', he, hh, hs, hr.mono fun _ h => h.1⟩

/-- **`pqueue_pop`** takes the head out. -/
theorem pqueuePop_linked (hl : ops.Lawful) (h : Linked ops q ns M) (h1 : 1 < q.size) :
    ∃ v ∈ M, q.d 1 = .ptr v ∧ ∃ q' ns', pqueuePop ops q ns = some (some v, q', ns') ∧
      Linked ops q' ns' (M \ {v}) ∧ q'.size = q.size - 1 ∧ Repos ops M ns ns' := by
  obtain ⟨v, hv, hd, hp⟩ := h.slot 1 le_rfl h1
  refine ⟨v, hv, hd, ?_⟩
  unfold pqueuePop
  simp only [show q.size ≠ 1 by omega, if_false, node_ptr hd, Option.bind_eq_bind,
    Option.bind_some]
  by_cases hlast : 1 = q.size - 1
  · have hset : (({ q with size := q.size - 1 } : Pqueue).set 1 (q.d (q.size - 1))) =
        { q with size := q.size - 1 } := by
      rw [← hlast]; simp [set, update_eq_self]
    rw [hset, percolateDown_dead (q := { q with size := q.size - 1 }) hd le_rfl
      (by simp only; omega)]
    exact ⟨_, _, rfl, (h.drop_last h1 hv (by omega)).place_dead (fun h => h.2 rfl)
      (by simp only; omega), rfl, .setpos hl hv 1⟩
  · obtain ⟨m, hdm, hh⟩ := h.remove_last le_rfl (by omega) hd hp
    rw [hdm]
    obtain ⟨q', ns', he, hh, hs, hr⟩ := percolateDown_linked hl hh (by simp [set])
    rw [he]
    exact ⟨q', ns', rfl, hh, hs, hr.mono fun _ h => h.1⟩

/-! ## On any queue -/

theorem bubbleUpLoop_repos (hl : ops.Lawful) {pri : ℕ} : ∀ {fuel : ℕ} {q q' : Pqueue}
    {ns ns' : ℕ → ν} {i i' : ℕ}, bubbleUpLoop ops pri fuel q ns i = some (q', ns', i') →
      q'.size = q.size ∧ Repos ops .univ ns ns'
  | 0, q, _, ns, _, i, _, h => by cases h; exact ⟨rfl, .refl hl _ _⟩
  | fuel + 1, q, _, ns, _, i, _, h => by
    unfold bubbleUpLoop at h
    split_ifs at h
    · obtain ⟨p, -, h⟩ := Option.bind_eq_some_iff.1 h
      split_ifs at h
      · obtain ⟨hs, hr⟩ := bubbleUpLoop_repos hl h
        exact ⟨hs, (Repos.setpos hl (Set.mem_univ p) i).trans hl hr⟩
      · cases h; exact ⟨rfl, .refl hl _ _⟩
    · cases h; exact ⟨rfl, .refl hl _ _⟩

theorem percolateDownLoop_repos (hl : ops.Lawful) {pri : ℕ} : ∀ {fuel : ℕ} {q q' : Pqueue}
    {ns ns' : ℕ → ν} {i i' : ℕ}, percolateDownLoop ops pri fuel q ns i = some (q', ns', i') →
      q'.size = q.size ∧ Repos ops .univ ns ns'
  | 0, q, _, ns, _, i, _, h => by cases h; exact ⟨rfl, .refl hl _ _⟩
  | fuel + 1, q, _, ns, _, i, _, h => by
    unfold percolateDownLoop at h
    obtain ⟨child, -, h⟩ := Option.bind_eq_some_iff.1 h
    split_ifs at h
    · cases h; exact ⟨rfl, .refl hl _ _⟩
    · obtain ⟨b, -, h⟩ := Option.bind_eq_some_iff.1 h
      split_ifs at h
      · obtain ⟨hs, hr⟩ := percolateDownLoop_repos hl h
        exact ⟨hs, (Repos.setpos hl (Set.mem_univ b) i).trans hl hr⟩
      · cases h; exact ⟨rfl, .refl hl _ _⟩

theorem bubbleUp_repos (hl : ops.Lawful) (h : bubbleUp ops q ns i = some (q', ns')) :
    q'.size = q.size ∧ Repos ops .univ ns ns' := by
  obtain ⟨m, -, h⟩ := Option.bind_eq_some_iff.1 h
  obtain ⟨⟨q₁, ns₁, i₁⟩, h₁, h⟩ := Option.bind_eq_some_iff.1 h
  obtain ⟨hs, hr⟩ := bubbleUpLoop_repos hl h₁
  cases h
  exact ⟨hs, hr.trans hl (.setpos hl (Set.mem_univ m) i₁)⟩

theorem percolateDown_repos (hl : ops.Lawful) (h : percolateDown ops q ns i = some (q', ns')) :
    q'.size = q.size ∧ Repos ops .univ ns ns' := by
  obtain ⟨m, -, h⟩ := Option.bind_eq_some_iff.1 h
  obtain ⟨⟨q₁, ns₁, i₁⟩, h₁, h⟩ := Option.bind_eq_some_iff.1 h
  obtain ⟨hs, hr⟩ := percolateDownLoop_repos hl h₁
  cases h
  exact ⟨hs, hr.trans hl (.setpos hl (Set.mem_univ m) i₁)⟩

theorem pqueueInsert_repos (hl : ops.Lawful) (h : pqueueInsert ops q ns a = some (q', ns')) :
    q'.size = q.size + 1 ∧ Repos ops .univ ns ns' := bubbleUp_repos hl h

theorem pqueueChangePriority_repos (hl : ops.Lawful) {pri : ℕ}
    (h : pqueueChangePriority ops q ns pri a = some (q', ns')) :
    q'.size = q.size ∧ Repos ops .univ (update ns a (ops.setpri (ns a) pri)) ns' := by
  unfold pqueueChangePriority at h
  dsimp only at h
  split_ifs at h
  · exact bubbleUp_repos hl h
  · exact percolateDown_repos hl h

theorem pqueueRemove_repos (hl : ops.Lawful) (h : pqueueRemove ops q ns a = some (q', ns')) :
    q'.size = q.size - 1 ∧ Repos ops .univ ns ns' := by
  obtain ⟨m, -, h⟩ := Option.bind_eq_some_iff.1 h
  split_ifs at h
  · exact bubbleUp_repos hl h
  · exact percolateDown_repos hl h

theorem pqueuePop_repos (hl : ops.Lawful) {v : Option ℕ}
    (h : pqueuePop ops q ns = some (v, q', ns')) (h1 : q.size ≠ 1) :
    q'.size = q.size - 1 ∧ Repos ops .univ ns ns' := by
  unfold pqueuePop at h
  rw [if_neg h1] at h
  obtain ⟨head, -, h⟩ := Option.bind_eq_some_iff.1 h
  obtain ⟨⟨q₁, ns₁⟩, h₁, h⟩ := Option.bind_eq_some_iff.1 h
  cases h
  exact percolateDown_repos hl h₁

end

end Pqueue

end WaitGc

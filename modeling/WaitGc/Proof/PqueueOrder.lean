/-
  WAITGC verification — the queue keeps its order.

  The key of a slot is the priority that its node has now (`slotPri`), so the
  order of the heap changes with the nodes: `setLine` says which changes it does
  not see.  The loops carry a vacancy up (`Rising`) or down (`Sinking`) until the
  moving node is in order with its neighbours; the fuel suffices, since slot
  numbers halve on the way up and grow on the way down.
-/
import WaitGc.Lib.Heap
import WaitGc.Proof.Pqueue

namespace WaitGc

open Function Heap

/-- The priorities are compared as numbers, and the least one is the best. -/
structure PqueueOps.MinFirst {ν : Type} (ops : PqueueOps ν) : Prop extends Lawful ops where
  cmppri_iff : ∀ next curr, ops.cmppri next curr = true ↔ curr < next
  getpri_setpri : ∀ n p, ops.getpri (ops.setpri n p) = p

namespace Pqueue

variable {ν : Type} {ops : PqueueOps ν} {q q' : Pqueue} {ns ns' : ℕ → ν} {M : Set ℕ} {a i k m : ℕ}

/-- The priority of the node at slot `k`. -/
def slotPri (ops : PqueueOps ν) (q : Pqueue) (ns : ℕ → ν) (k : ℕ) : ℕ :=
  match q.d k with
  | .ptr a => ops.getpri (ns a)
  | _ => 0

/-- The order of the heap. -/
def Sorted (ops : PqueueOps ν) (q : Pqueue) (ns : ℕ → ν) : Prop := Ordered q.size (slotPri ops q ns)

theorem slotPri_ptr (h : q.d k = .ptr a) : slotPri ops q ns k = ops.getpri (ns a) := by
  simp only [slotPri, h]

theorem ptr_of_node (h : q.node i = some a) : q.d i = .ptr a := by
  unfold Pqueue.node at h
  split at h
  · rename_i hd
    rw [hd, Option.some.inj h]
  · cases h

theorem slotPri_place (hl : ops.Lawful) (q : Pqueue) (ns : ℕ → ν) (i a : ℕ) :
    slotPri ops (place ops q ns i a).1 (place ops q ns i a).2 =
      update (slotPri ops q ns) i (ops.getpri (ns a)) := by
  have hpri (b : ℕ) : ops.getpri (update ns a (ops.setpos (ns a) i) b) = ops.getpri (ns b) := by
    by_cases hb : b = a
    · subst hb; rw [update_self, hl.getpri_setpos]
    · rw [update_of_ne hb]
  funext k
  by_cases hk : k = i
  · subst hk
    simp [slotPri, place, set, hl.getpri_setpos]
  · simp [slotPri, place, set, hk, hpri]

theorem Repos.getpri (hl : ops.Lawful) (h : Repos ops M ns ns') (a : ℕ) :
    ops.getpri (ns' a) = ops.getpri (ns a) := by
  obtain ⟨⟨p, hp⟩, -⟩ := h a
  rw [hp, hl.getpri_setpos]

/-! ## The loops -/

theorem bubbleUpLoop_sorted (ho : ops.MinFirst) {pri : ℕ} : ∀ {fuel : ℕ} {q q' : Pqueue} {ns ns' : ℕ → ν}
    {i i' : ℕ}, bubbleUpLoop ops pri fuel q ns i = some (q', ns', i') → 1 ≤ i → i < q.size → i ≤ fuel →
      Rising q.size (slotPri ops q ns) i pri → Ordered q.size (update (slotPri ops q' ns') i' pri)
  | 0, q, _, ns, _, i, _, h, hi, _, hfuel, _ => by omega
  | fuel + 1, q, _, ns, _, i, _, h, hi, hlt, hfuel, hr => by
    unfold bubbleUpLoop at h
    split_ifs at h with h1
    · obtain ⟨p, hp, h⟩ := Option.bind_eq_some_iff.1 h
      have hkey : slotPri ops q ns (i / 2) = ops.getpri (ns p) := slotPri_ptr (ptr_of_node hp)
      split_ifs at h with hcmp
      · -- the parent comes down
        rw [ho.cmppri_iff, ← hkey] at hcmp
        have hup : Rising (place ops q ns i p).1.size
            (slotPri ops (place ops q ns i p).1 (place ops q ns i p).2) (i / 2) pri := by
          rw [slotPri_place ho.toLawful, place_size, ← hkey]
          exact hr.up h1 hlt hcmp.le
        change bubbleUpLoop ops pri fuel (place ops q ns i p).1 (place ops q ns i p).2 (i / 2) = _ at h
        have hsorted := bubbleUpLoop_sorted ho h (by omega) (by rw [place_size]; omega) (by omega) hup
        rwa [place_size] at hsorted
      · cases h
        rw [ho.cmppri_iff, ← hkey, not_lt] at hcmp
        exact hr.close fun _ => hcmp
    · cases h
      exact hr.close fun h2 => absurd h2 h1

theorem maxchild_least (ho : ops.MinFirst) {child : ℕ} (hi : 1 ≤ i) (h : maxchild ops q ns i = some child) :
    child = 0 ∧ q.size ≤ 2 * i ∨ child ≠ 0 ∧ child / 2 = i ∧ child < q.size ∧
      ∀ k, 2 ≤ k → k < q.size → k / 2 = i → slotPri ops q ns child ≤ slotPri ops q ns k := by
  unfold maxchild at h
  dsimp only at h
  split_ifs at h with h1 h2
  · cases h
    exact .inl ⟨rfl, h1⟩
  · obtain ⟨l, hl, h⟩ := Option.bind_eq_some_iff.1 h
    obtain ⟨r, hr, h⟩ := Option.bind_eq_some_iff.1 h
    have hkl : slotPri ops q ns (2 * i) = ops.getpri (ns l) := slotPri_ptr (ptr_of_node hl)
    have hkr : slotPri ops q ns (2 * i + 1) = ops.getpri (ns r) := slotPri_ptr (ptr_of_node hr)
    have hk (k : ℕ) (hk2 : k / 2 = i) : k = 2 * i ∨ k = 2 * i + 1 := by omega
    split_ifs at h with hcmp
    · cases h
      rw [ho.cmppri_iff, ← hkl, ← hkr] at hcmp
      refine .inr ⟨by omega, by omega, h2, fun k _ _ hk2 => ?_⟩
      rcases hk k hk2 with rfl | rfl
      · exact hcmp.le
      · exact le_rfl
    · cases h
      rw [ho.cmppri_iff, ← hkl, ← hkr, not_lt] at hcmp
      refine .inr ⟨by omega, by omega, by omega, fun k _ _ hk2 => ?_⟩
      rcases hk k hk2 with rfl | rfl
      · exact le_rfl
      · exact hcmp
  · cases h
    refine .inr ⟨by omega, by omega, by omega, fun k _ hkn hk2 => ?_⟩
    obtain rfl : k = 2 * i := by omega
    exact le_rfl

theorem percolateDownLoop_sorted (ho : ops.MinFirst) {pri : ℕ} : ∀ {fuel : ℕ} {q q' : Pqueue}
    {ns ns' : ℕ → ν} {i i' : ℕ}, percolateDownLoop ops pri fuel q ns i = some (q', ns', i') → 1 ≤ i →
      i < q.size → q.size ≤ fuel + i → Sinking q.size (slotPri ops q ns) i pri →
      Ordered q.size (update (slotPri ops q' ns') i' pri)
  | 0, q, _, ns, _, i, _, h, hi, hlt, hfuel, _ => by omega
  | fuel + 1, q, _, ns, _, i, _, h, hi, hlt, hfuel, hs => by
    unfold percolateDownLoop at h
    obtain ⟨child, hchild, h⟩ := Option.bind_eq_some_iff.1 h
    rcases maxchild_least ho hi hchild with ⟨rfl, hsize⟩ | ⟨hne, hhalf, hcsize, hleast⟩
    · rw [if_pos rfl] at h
      cases h
      exact hs.close fun k _ hkn hk2 => by omega
    · rw [if_neg hne] at h
      obtain ⟨c, hc, h⟩ := Option.bind_eq_some_iff.1 h
      have hkey : slotPri ops q ns child = ops.getpri (ns c) := slotPri_ptr (ptr_of_node hc)
      split_ifs at h with hcmp
      · -- the child comes up
        rw [ho.cmppri_iff, ← hkey] at hcmp
        have hdown : Sinking (place ops q ns i c).1.size
            (slotPri ops (place ops q ns i c).1 (place ops q ns i c).2) child pri := by
          rw [slotPri_place ho.toLawful, place_size, ← hkey]
          exact hs.down hhalf hcsize hleast hcmp.le
        change percolateDownLoop ops pri fuel (place ops q ns i c).1 (place ops q ns i c).2 child = _ at h
        have hsorted := percolateDownLoop_sorted ho h (by omega) hcsize (by rw [place_size]; omega) hdown
        rwa [place_size] at hsorted
      · cases h
        rw [ho.cmppri_iff, ← hkey, not_lt] at hcmp
        exact hs.close fun k hk hkn hk2 => hcmp.trans (hleast k hk hkn hk2)

theorem bubbleUp_sorted (ho : ops.MinFirst) (hd : q.d i = .ptr m) (hi : 1 ≤ i) (hlt : i < q.size)
    (hr : Rising q.size (slotPri ops q ns) i (ops.getpri (ns m)))
    (h : bubbleUp ops q ns i = some (q', ns')) : Sorted ops q' ns' := by
  simp only [bubbleUp, node_ptr hd, Option.bind_eq_bind, Option.bind_some] at h
  obtain ⟨⟨q₁, ns₁, i₁⟩, h₁, h⟩ := Option.bind_eq_some_iff.1 h
  obtain ⟨hsize, hrep⟩ := bubbleUpLoop_repos ho.toLawful h₁
  have hs := bubbleUpLoop_sorted ho h₁ hi hlt le_rfl hr
  have hsorted : Sorted ops (place ops q₁ ns₁ i₁ m).1 (place ops q₁ ns₁ i₁ m).2 := by
    rw [Sorted, slotPri_place ho.toLawful, hrep.getpri ho.toLawful, place_size, hsize]
    exact hs
  cases h
  exact hsorted

theorem percolateDown_sorted (ho : ops.MinFirst) (hd : q.d i = .ptr m) (hi : 1 ≤ i) (hlt : i < q.size)
    (hs : Sinking q.size (slotPri ops q ns) i (ops.getpri (ns m)))
    (h : percolateDown ops q ns i = some (q', ns')) : Sorted ops q' ns' := by
  simp only [percolateDown, node_ptr hd, Option.bind_eq_bind, Option.bind_some] at h
  obtain ⟨⟨q₁, ns₁, i₁⟩, h₁, h⟩ := Option.bind_eq_some_iff.1 h
  obtain ⟨hsize, hrep⟩ := percolateDownLoop_repos ho.toLawful h₁
  have hs' := percolateDownLoop_sorted ho h₁ hi hlt (by omega) hs
  have hsorted : Sorted ops (place ops q₁ ns₁ i₁ m).1 (place ops q₁ ns₁ i₁ m).2 := by
    rw [Sorted, slotPri_place ho.toLawful, hrep.getpri ho.toLawful, place_size, hsize]
    exact hs'
  cases h
  exact hsorted

/-! ## The operations -/

/-- The order sees the priorities of the members. -/
theorem Sorted.setNodes (h : Sorted ops q ns) (hlk : Linked ops q ns M)
    (hpri : ∀ a ∈ M, ops.getpri (ns' a) = ops.getpri (ns a)) : Sorted ops q ns' := by
  refine h.congr fun k hk hkn => ?_
  obtain ⟨a, ha, hd, -⟩ := hlk.slot k hk hkn
  rw [slotPri_ptr hd, slotPri_ptr hd, hpri a ha]

theorem pqueueInsert_sorted (ho : ops.MinFirst) (hlk : Linked ops q ns M) (hs : Sorted ops q ns)
    (h : pqueueInsert ops q ns a = some (q', ns')) : Sorted ops q' ns' := by
  refine bubbleUp_sorted ho (update_self ..) hlk.size_pos (Nat.lt_succ_self _) ?_ h
  have hr := Ordered.rising_last hs (ops.getpri (ns a))
  refine { hr.toAround.congr fun k _ _ hk => ?_ with below := fun k _ hkn hk2 => ?_ }
  · simp only [slotPri, update_of_ne hk]
  · have hsize := hlk.size_pos
    simp only at hkn hk2
    omega

theorem slotPri_setpri (hlk : Linked ops q ns M) (pri : ℕ) (hk : 1 ≤ k)
    (hkn : k < q.size) (hki : k ≠ ops.getpos (ns a)) :
    slotPri ops q (update ns a (ops.setpri (ns a) pri)) k = slotPri ops q ns k := by
  obtain ⟨b, -, hd, hpos⟩ := hlk.slot k hk hkn
  have hba : b ≠ a := fun he => hki (by rw [← hpos, he])
  rw [slotPri_ptr hd, slotPri_ptr hd, update_of_ne hba]

theorem pqueueChangePriority_sorted (ho : ops.MinFirst) (hlk : Linked ops q ns M) (hs : Sorted ops q ns)
    (ha : a ∈ M) {pri : ℕ} (h : pqueueChangePriority ops q ns pri a = some (q', ns')) :
    Sorted ops q' ns' := by
  obtain ⟨h₁, h₂, hd⟩ := hlk.node a ha
  have hkey : slotPri ops q ns (ops.getpos (ns a)) = ops.getpri (ns a) := slotPri_ptr hd
  have hkeys (k : ℕ) (hk : 1 ≤ k) (hkn : k < q.size) (hki : k ≠ ops.getpos (ns a)) :=
    slotPri_setpri hlk pri hk hkn hki
  have hpri : ops.getpri (update ns a (ops.setpri (ns a) pri) a) = pri := by
    rw [update_self, ho.getpri_setpri]
  unfold pqueueChangePriority at h
  simp only [update_self, ho.getpos_setpri] at h
  split_ifs at h with hcmp
  · rw [ho.cmppri_iff] at hcmp
    have hr := Ordered.rising hs (x := pri) (hkey ▸ hcmp.le)
    refine bubbleUp_sorted ho hd h₁ h₂ ?_ h
    rw [hpri]
    exact { hr.toAround.congr hkeys with
      below := fun k hk hkn hk2 => by
        rw [hkeys k (by omega) hkn (by omega)]
        exact hr.below k hk hkn hk2 }
  · rw [ho.cmppri_iff, not_lt] at hcmp
    have hr := Ordered.sinking hs h₂ (x := pri) (hkey ▸ hcmp)
    refine percolateDown_sorted ho hd h₁ h₂ ?_ h
    rw [hpri]
    exact { hr.toAround.congr hkeys with
      above := fun hi => by
        rw [hkeys _ (by omega) (by omega) (by omega)]
        exact hr.above hi }

/-- The queue without its last slot, which moved to slot `i`. -/
def dropTo (q : Pqueue) (i : ℕ) : Pqueue :=
  ({ q with size := q.size - 1 } : Pqueue).set i (q.d (q.size - 1))

theorem slotPri_dropTo (hk : k ≠ i) : slotPri ops (q.dropTo i) ns k = slotPri ops q ns k := by
  simp only [slotPri, dropTo, set, update_of_ne hk]

theorem Sorted.around_dropTo (hs : Sorted ops q ns) (i : ℕ) :
    Around (q.dropTo i).size (slotPri ops (q.dropTo i) ns) i :=
  ((Ordered.mono hs (Nat.sub_le _ _)).around i).congr fun _ _ _ hk => slotPri_dropTo hk

/-- The removed node was in the last slot: the other slots stay. -/
theorem Sorted.dropLast (ho : ops.MinFirst) (hs : Sorted ops q ns) (hd : q.d (q.size - 1) = .ptr a)
    (h1 : 1 < q.size) (h : percolateDown ops (q.dropTo (q.size - 1)) ns (q.size - 1) = some (q', ns')) :
    Sorted ops q' ns' := by
  have hdrop : (q.dropTo (q.size - 1)).d (q.size - 1) = .ptr a := by simp [dropTo, set, hd]
  rw [percolateDown_dead hdrop (by omega) le_rfl] at h
  have hsorted : Sorted ops (place ops (q.dropTo (q.size - 1)) ns (q.size - 1) a).1
      (place ops (q.dropTo (q.size - 1)) ns (q.size - 1) a).2 := by
    rw [Sorted, slotPri_place ho.toLawful, place_size]
    refine (Ordered.mono hs (Nat.sub_le _ _)).congr fun k _ hkn => ?_
    have hne : k ≠ q.size - 1 := Nat.ne_of_lt hkn
    rw [update_of_ne hne, slotPri_dropTo hne]
  cases h
  exact hsorted

theorem pqueueRemove_sorted (ho : ops.MinFirst) (hlk : Linked ops q ns M) (hs : Sorted ops q ns)
    (ha : a ∈ M) (h : pqueueRemove ops q ns a = some (q', ns')) : Sorted ops q' ns' := by
  obtain ⟨h₁, h₂, hd⟩ := hlk.node a ha
  obtain ⟨m, -, hdm, -⟩ := hlk.slot (q.size - 1) (by omega) (by omega)
  have hkey : slotPri ops q ns (ops.getpos (ns a)) = ops.getpri (ns a) := slotPri_ptr hd
  have hdrop : (q.dropTo (ops.getpos (ns a))).d (ops.getpos (ns a)) = .ptr m := by
    simp [dropTo, set, hdm]
  have hstep : (if ops.cmppri (ops.getpri (ns a)) (ops.getpri (ns m)) then
      bubbleUp ops (q.dropTo (ops.getpos (ns a))) ns (ops.getpos (ns a))
    else percolateDown ops (q.dropTo (ops.getpos (ns a))) ns (ops.getpos (ns a))) = some (q', ns') := by
    have hnode : (q.dropTo (ops.getpos (ns a))).node (ops.getpos (ns a)) = some m := node_ptr hdrop
    unfold pqueueRemove at h
    change ((q.dropTo (ops.getpos (ns a))).node (ops.getpos (ns a)) >>= _) = _ at h
    rw [hnode] at h
    exact h
  by_cases hlast : ops.getpos (ns a) = q.size - 1
  · -- it is the last node itself, which is not better than itself
    have hma : m = a := Slot.ptr.inj (hdm.symm.trans (hlast ▸ hd))
    rw [hma, ho.cmppri_irrefl, if_neg (by simp), hlast] at hstep
    exact hs.dropLast ho (hma ▸ hdm) (by omega) hstep
  · have hlt : ops.getpos (ns a) < (q.dropTo (ops.getpos (ns a))).size := by
      change _ < q.size - 1
      omega
    split_ifs at hstep with hcmp
    · rw [ho.cmppri_iff, ← hkey] at hcmp
      refine bubbleUp_sorted ho hdrop h₁ hlt ?_ hstep
      have hr := Ordered.rising (Ordered.mono hs (Nat.sub_le q.size 1)) hcmp.le
      exact { hs.around_dropTo _ with
        below := fun k hk hkn hk2 => by
          rw [slotPri_dropTo (by omega)]
          exact hr.below k hk hkn hk2 }
    · rw [ho.cmppri_iff, ← hkey, not_lt] at hcmp
      refine percolateDown_sorted ho hdrop h₁ hlt ?_ hstep
      have hr := Ordered.sinking hs h₂ hcmp
      exact { hs.around_dropTo _ with
        above := fun hi => by
          rw [slotPri_dropTo (by omega)]
          exact hr.above hi }

theorem pqueuePop_sorted (ho : ops.MinFirst) (hlk : Linked ops q ns M) (hs : Sorted ops q ns)
    (h1 : 1 < q.size) {v : Option ℕ} (h : pqueuePop ops q ns = some (v, q', ns')) : Sorted ops q' ns' := by
  obtain ⟨a, -, hd, -⟩ := hlk.slot 1 le_rfl h1
  obtain ⟨m, -, hdm, -⟩ := hlk.slot (q.size - 1) (by omega) (by omega)
  have hdrop : (q.dropTo 1).d 1 = .ptr m := by simp [dropTo, set, hdm]
  have hstep : percolateDown ops (q.dropTo 1) ns 1 = some (q', ns') := by
    unfold pqueuePop at h
    rw [if_neg (by omega), node_ptr hd, Option.bind_eq_bind, Option.bind_some] at h
    obtain ⟨r, hr, h⟩ := Option.bind_eq_some_iff.1 h
    cases h
    exact hr
  by_cases hlast : 1 = q.size - 1
  · rw [hlast] at hstep
    exact hs.dropLast ho hdm h1 hstep
  · refine percolateDown_sorted ho hdrop le_rfl ?_ ?_ hstep
    · change 1 < q.size - 1
      omega
    · exact { hs.around_dropTo 1 with above := fun hi => absurd hi (by omega) }

end Pqueue

end WaitGc

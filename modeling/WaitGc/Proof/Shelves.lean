/-
  WAITGC verification — where the lines are.

  A line is on the free list, on the full list, in the victim queue, open for
  one of the write pointers, or out of all of them while `do_gc` empties it.
  `Shelved c lm place` says that the lists, the queue, the position fields and
  the counters of `lm` all record the same map `place`, so a line is in one
  place only, and that the queue is in order.  Each move of a line is one lemma
  that updates the map at the line.  A line that is on no list and not in the
  queue is `Loose`.
-/
import WaitGc.Ftl.Lines
import WaitGc.Proof.PqueueOrder
import Mathlib.Data.List.Nodup

namespace WaitGc

open Outcome Function Pqueue

/-- The places of a line. -/
inductive Place where
  | free
  | full
  | victim
  | opened (io : IoType)
  | gone
  deriving DecidableEq

/-- On no list and not in the queue. -/
def Place.Loose (p : Place) : Prop := p ≠ .free ∧ p ≠ .full ∧ p ≠ .victim

theorem loose_opened (io : IoType) : (Place.opened io).Loose := by simp [Place.Loose]

theorem loose_gone : Place.gone.Loose := by simp [Place.Loose]

theorem victimLine_lawful : victimLine.Lawful where
  getpri_setpos _ _ := rfl
  getpos_setpos _ _ := rfl
  getpos_setpri _ _ := rfl
  setpos_setpos _ _ _ := rfl
  setpos_getpos _ := rfl
  cmppri_irrefl p := by simp [victimLine]

theorem victimLine_minFirst : victimLine.MinFirst where
  toLawful := victimLine_lawful
  cmppri_iff _ _ := by simp [victimLine]
  getpri_setpri _ _ := rfl

/-- `ls'` is `ls` with other positions. -/
def PosOnly (ls ls' : ℕ → Line) : Prop := ∀ i, ls' i = { ls i with pos := (ls' i).pos }

theorem PosOnly.of_repos {M : Set ℕ} {ls ls' : ℕ → Line} (h : Repos victimLine M ls ls') :
    PosOnly ls ls' := by
  intro i
  obtain ⟨⟨p, hp⟩, -⟩ := h i
  rw [hp]; rfl

theorem PosOnly.refl (ls : ℕ → Line) : PosOnly ls ls := fun _ => rfl

theorem PosOnly.id {ls ls' : ℕ → Line} (h : PosOnly ls ls') (i : ℕ) : (ls' i).id = (ls i).id := by
  rw [h i]

theorem PosOnly.vpc {ls ls' : ℕ → Line} (h : PosOnly ls ls') (i : ℕ) :
    (ls' i).vpc = (ls i).vpc := by rw [h i]

theorem PosOnly.ipc {ls ls' : ℕ → Line} (h : PosOnly ls ls') (i : ℕ) :
    (ls' i).ipc = (ls i).ipc := by rw [h i]

variable {c : Cfg} {lm : LineMgmt} {pl : ℕ → Place} {i j : ℕ} {x : Place}

/-- The lines at a place. -/
def linesAt (c : Cfg) (pl : ℕ → Place) (x : Place) : Set ℕ := {i | i < c.sp.blksPerPl ∧ pl i = x}

/-- `lm` records the places `pl`. -/
structure Shelved (c : Cfg) (lm : LineMgmt) (pl : ℕ → Place) : Prop where
  id_eq : ∀ i < c.sp.blksPerPl, (lm.lines i).id = i
  free_nodup : lm.freeLineList.Nodup
  mem_free : ∀ i, i ∈ lm.freeLineList ↔ i ∈ linesAt c pl .free
  full_nodup : lm.fullLineList.Nodup
  mem_full : ∀ i, i ∈ lm.fullLineList ↔ i ∈ linesAt c pl .full
  linked : Linked victimLine lm.victimLinePq lm.lines (linesAt c pl .victim)
  order : Sorted victimLine lm.victimLinePq lm.lines
  pos_eq : ∀ i < c.sp.blksPerPl, pl i ≠ .victim → (lm.lines i).pos = 0
  freeCnt : lm.freeLineCnt = lm.freeLineList.length
  fullCnt : lm.fullLineCnt = lm.fullLineList.length
  victimCnt : lm.victimLineCnt = lm.victimLinePq.size - 1

/-! ## Lines at a place -/

theorem linesAt_update_ne {y : Place} (hx : x ≠ y) (hi : pl i ≠ y) :
    linesAt c (update pl i x) y = linesAt c pl y := by
  ext j
  by_cases hj : j = i
  · subst hj; simp [linesAt, hx, hi]
  · simp [linesAt, hj]

theorem linesAt_update_self (hi : i < c.sp.blksPerPl) :
    linesAt c (update pl i x) x = insert i (linesAt c pl x) := by
  ext j
  by_cases hj : j = i
  · subst hj; simp [linesAt, hi]
  · simp [linesAt, hj]

theorem linesAt_update_leave {y : Place} (hx : x ≠ y) :
    linesAt c (update pl i x) y = linesAt c pl y \ {i} := by
  ext j
  by_cases hj : j = i
  · subst hj; simp [linesAt, hx]
  · simp [linesAt, hj]

/-! ## Members of the queue -/

theorem Shelved.member (h : Shelved c lm pl) (hi : i < c.sp.blksPerPl) (hp : pl i = .victim) :
    1 ≤ (lm.lines i).pos ∧ (lm.lines i).pos < lm.victimLinePq.size ∧
      lm.victimLinePq.d (lm.lines i).pos = .ptr i :=
  h.linked.node i ⟨hi, hp⟩

theorem Shelved.pos_ne_zero_iff (h : Shelved c lm pl) (hi : i < c.sp.blksPerPl) :
    (lm.lines i).pos ≠ 0 ↔ pl i = .victim := by
  constructor
  · intro hp
    by_contra hv
    exact hp (h.pos_eq i hi hv)
  · intro hv hp
    have := (h.member hi hv).1
    omega

theorem Shelved.slot (h : Shelved c lm pl) {k : ℕ} (h₁ : 1 ≤ k) (hk : k < lm.victimLinePq.size) :
    ∃ i < c.sp.blksPerPl, pl i = .victim ∧ lm.victimLinePq.d k = .ptr i := by
  obtain ⟨i, ⟨hi, hp⟩, hd, -⟩ := h.linked.slot k h₁ hk
  exact ⟨i, hi, hp, hd⟩

/-! ## Lists and counters that do not see a change -/

/-- Writing other fields of the lines than the ones of the queue; `vpc` is one for
    its members. -/
theorem Shelved.lines (h : Shelved c lm pl) {ls : ℕ → Line} (hid : ∀ i, (ls i).id = (lm.lines i).id)
    (hpos : ∀ i, (ls i).pos = (lm.lines i).pos)
    (hvpc : ∀ i, pl i = .victim → (ls i).vpc = (lm.lines i).vpc) :
    Shelved c { lm with lines := ls } pl :=
  { h with
    id_eq := fun i hi => (hid i).trans (h.id_eq i hi)
    linked :=
      ⟨h.linked.size_pos,
        fun k h₁ hk => by
          obtain ⟨a, ha, hd, hp⟩ := h.linked.slot k h₁ hk
          exact ⟨a, ha, hd, (hpos a).trans hp⟩,
        fun a ha => by
          have hn := h.linked.node a ha
          simp only [victimLine, hpos] at hn ⊢
          exact hn⟩
    order := h.order.setNodes h.linked fun a ha => hvpc a ha.2
    pos_eq := fun i hi hp => (hpos i).trans (h.pos_eq i hi hp) }

/-! ## The free list -/

theorem Shelved.takeFree (h : Shelved c lm pl) {rest : List ℕ} (hf : lm.freeLineList = i :: rest)
    (hx : x.Loose) :
    Shelved c { lm with freeLineList := rest, freeLineCnt := lm.freeLineCnt - 1 }
      (update pl i x) := by
  obtain ⟨x₁, x₂, x₃⟩ := hx
  obtain ⟨hi, hp⟩ := (h.mem_free i).1 (hf ▸ List.mem_cons_self)
  have hnd := h.free_nodup
  rw [hf, List.nodup_cons] at hnd
  refine { h with
    free_nodup := hnd.2
    mem_free := fun j => ?_
    mem_full := by rw [linesAt_update_ne x₂ (by simp [hp])]; exact h.mem_full
    linked := by rw [linesAt_update_ne x₃ (by simp [hp])]; exact h.linked
    pos_eq := fun j hj hpj => ?_
    freeCnt := by simp only [h.freeCnt, hf, List.length_cons, Nat.add_sub_cancel] }
  · have hj := h.mem_free j
    rw [hf, List.mem_cons] at hj
    rw [linesAt_update_leave x₁]
    by_cases hji : j = i
    · subst hji; simp [hnd.1]
    · simpa [hji] using hj
  · by_cases hji : j = i
    · subst hji; exact h.pos_eq j hj (by simp [hp])
    · rw [update_of_ne hji] at hpj; exact h.pos_eq j hj hpj

theorem Shelved.toFree (h : Shelved c lm pl) (hi : i < c.sp.blksPerPl) (hp : (pl i).Loose) :
    Shelved c { lm with freeLineList := lm.freeLineList ++ [i], freeLineCnt := lm.freeLineCnt + 1 }
      (update pl i .free) := by
  obtain ⟨p₁, p₂, p₃⟩ := hp
  have hni : i ∉ lm.freeLineList := fun hm => p₁ ((h.mem_free i).1 hm).2
  refine { h with
    free_nodup := h.free_nodup.append (List.nodup_singleton i) (by simpa using hni)
    mem_free := fun j => ?_
    mem_full := by rw [linesAt_update_ne (by simp) p₂]; exact h.mem_full
    linked := by rw [linesAt_update_ne (by simp) p₃]; exact h.linked
    pos_eq := fun j hj hpj => ?_
    freeCnt := by simp only [h.freeCnt, List.length_append, List.length_singleton] }
  · rw [linesAt_update_self hi, List.mem_append, h.mem_free j, List.mem_singleton, Set.mem_insert_iff]
    exact or_comm
  · by_cases hji : j = i
    · subst hji; exact h.pos_eq j hj p₃
    · rw [update_of_ne hji] at hpj; exact h.pos_eq j hj hpj

/-! ## The full list -/

theorem Shelved.toFull (h : Shelved c lm pl) (hi : i < c.sp.blksPerPl) (hp : (pl i).Loose) :
    Shelved c { lm with fullLineList := lm.fullLineList ++ [i], fullLineCnt := lm.fullLineCnt + 1 }
      (update pl i .full) := by
  obtain ⟨p₁, p₂, p₃⟩ := hp
  have hni : i ∉ lm.fullLineList := fun hm => p₂ ((h.mem_full i).1 hm).2
  refine { h with
    full_nodup := h.full_nodup.append (List.nodup_singleton i) (by simpa using hni)
    mem_full := fun j => ?_
    mem_free := by rw [linesAt_update_ne (by simp) p₁]; exact h.mem_free
    linked := by rw [linesAt_update_ne (by simp) p₃]; exact h.linked
    pos_eq := fun j hj hpj => ?_
    fullCnt := by simp only [h.fullCnt, List.length_append, List.length_singleton] }
  · rw [linesAt_update_self hi, List.mem_append, h.mem_full j, List.mem_singleton, Set.mem_insert_iff]
    exact or_comm
  · by_cases hji : j = i
    · subst hji; exact h.pos_eq j hj p₃
    · rw [update_of_ne hji] at hpj; exact h.pos_eq j hj hpj

theorem Shelved.leaveFull (h : Shelved c lm pl) (hi : i < c.sp.blksPerPl) (hp : pl i = .full)
    (hx : x.Loose) :
    Shelved c { lm with fullLineList := lm.fullLineList.erase i, fullLineCnt := lm.fullLineCnt - 1 }
      (update pl i x) := by
  obtain ⟨x₁, x₂, x₃⟩ := hx
  have hm : i ∈ lm.fullLineList := (h.mem_full i).2 ⟨hi, hp⟩
  refine { h with
    full_nodup := h.full_nodup.erase i
    mem_full := fun j => ?_
    mem_free := by rw [linesAt_update_ne x₁ (by simp [hp])]; exact h.mem_free
    linked := by rw [linesAt_update_ne x₃ (by simp [hp])]; exact h.linked
    pos_eq := fun j hj hpj => ?_
    fullCnt := by simp only [h.fullCnt, List.length_erase_of_mem hm] }
  · rw [linesAt_update_leave x₂, h.full_nodup.mem_erase_iff, h.mem_full j]
    exact and_comm
  · by_cases hji : j = i
    · subst hji; exact h.pos_eq j hj (by simp [hp])
    · rw [update_of_ne hji] at hpj; exact h.pos_eq j hj hpj

/-! ## The victim queue -/

/-- `pqueue_insert` of a loose line. -/
theorem Shelved.toVictim (h : Shelved c lm pl) (hi : i < c.sp.blksPerPl) (hp : (pl i).Loose) :
    ∃ q ls, lm.withPq (lm.victimLinePq.pqueueInsert victimLine lm.lines i) =
        .ok { lm with victimLinePq := q, lines := ls } ∧ PosOnly lm.lines ls ∧
      Shelved c { lm with
        victimLinePq := q, lines := ls, victimLineCnt := lm.victimLineCnt + 1 }
        (update pl i .victim) := by
  obtain ⟨p₁, p₂, p₃⟩ := hp
  obtain ⟨q, ls, he, hlk, hs, hr⟩ := pqueueInsert_linked victimLine_lawful h.linked
    (a := i) (fun hm => p₃ hm.2)
  have hpo := PosOnly.of_repos hr
  refine ⟨q, ls, by rw [he]; rfl, hpo, { h with
    id_eq := fun j hj => (hpo.id j).trans (h.id_eq j hj)
    mem_free := by rw [linesAt_update_ne (by simp) p₁]; exact h.mem_free
    mem_full := by rw [linesAt_update_ne (by simp) p₂]; exact h.mem_full
    linked := by rw [linesAt_update_self hi]; exact hlk
    order := pqueueInsert_sorted victimLine_minFirst h.linked h.order he
    pos_eq := fun j hj hpj => ?_
    victimCnt := ?_ }⟩
  · have hji : j ≠ i := fun he => hpj (by rw [he, update_self])
    rw [update_of_ne hji] at hpj
    have hjm : j ∉ insert i (linesAt c pl .victim) := by simp [linesAt, hji, hpj]
    exact (congrArg Line.pos ((hr j).2 hjm)).trans (h.pos_eq j hj hpj)
  · have := h.linked.size_pos
    simp only [h.victimCnt, hs]; omega

/-- `pqueue_change_priority` of a member: its `vpc` is set. -/
theorem Shelved.changePriority (h : Shelved c lm pl) (hi : i < c.sp.blksPerPl)
    (hp : pl i = .victim) (pri : ℕ) :
    ∃ q ls, lm.withPq (lm.victimLinePq.pqueueChangePriority victimLine lm.lines pri i) =
        .ok { lm with victimLinePq := q, lines := ls } ∧
      PosOnly (update lm.lines i { lm.lines i with vpc := pri }) ls ∧
      Shelved c { lm with victimLinePq := q, lines := ls } pl := by
  obtain ⟨q, ls, he, hlk, hs, hr⟩ := pqueueChangePriority_linked victimLine_lawful h.linked
    (a := i) ⟨hi, hp⟩ pri
  have hpo : PosOnly (update lm.lines i { lm.lines i with vpc := pri }) ls := PosOnly.of_repos hr
  refine ⟨q, ls, by rw [he]; rfl, hpo, { h with
    id_eq := fun j hj => (hpo.id j).trans ?_
    linked := hlk
    order := pqueueChangePriority_sorted victimLine_minFirst h.linked h.order ⟨hi, hp⟩ he
    pos_eq := fun j hj hpj => ?_
    victimCnt := by simp only [h.victimCnt, hs] }⟩
  · by_cases hji : j = i
    · subst hji; simpa using h.id_eq j hj
    · simpa [hji] using h.id_eq j hj
  · have hji : j ≠ i := fun he => hpj (by rw [he, hp])
    have hjm : j ∉ linesAt c pl .victim := fun hm => hpj hm.2
    have hls := (hr j).2 hjm
    rw [update_of_ne hji] at hls
    exact (congrArg Line.pos hls).trans (h.pos_eq j hj hpj)

/-- The queue operations that take a member out, with `pos = 0` after them. -/
private theorem Shelved.leave (h : Shelved c lm pl) (hi : i < c.sp.blksPerPl) (hp : pl i = .victim)
    {q : Pqueue} {ls : ℕ → Line} (hlk : Linked victimLine q ls (linesAt c pl .victim \ {i}))
    (ho : Sorted victimLine q ls) (hs : q.size = lm.victimLinePq.size - 1)
    (hr : Repos victimLine (linesAt c pl .victim) lm.lines ls) :
    PosOnly lm.lines (update ls i { ls i with pos := 0 }) ∧
    Shelved c { lm with
      victimLinePq := q, lines := update ls i { ls i with pos := 0 }
      victimLineCnt := lm.victimLineCnt - 1 } (update pl i .gone) := by
  have hpo : PosOnly lm.lines (update ls i { ls i with pos := 0 }) := by
    intro j
    by_cases hji : j = i
    · subst hji; rw [update_self, PosOnly.of_repos hr j]
    · rw [update_of_ne hji]; exact PosOnly.of_repos hr j
  refine ⟨hpo, { h with
    id_eq := fun j hj => (hpo.id j).trans (h.id_eq j hj)
    mem_free := by rw [linesAt_update_ne (by simp) (by simp [hp])]; exact h.mem_free
    mem_full := by rw [linesAt_update_ne (by simp) (by simp [hp])]; exact h.mem_full
    linked := ?_
    order := ho.setNodes hlk fun j hj => congrArg Line.vpc (update_of_ne hj.2 _ _)
    pos_eq := fun j hj hpj => ?_
    victimCnt := by simp only [h.victimCnt, hs] }⟩
  · rw [linesAt_update_leave (by simp)]
    refine ⟨hlk.size_pos, fun k h₁ hk => ?_, fun a ha => ?_⟩
    · obtain ⟨a, ha, hd, hpa⟩ := hlk.slot k h₁ hk
      exact ⟨a, ha, hd, by simp only [update_of_ne ha.2]; exact hpa⟩
    · simp only [update_of_ne ha.2]; exact hlk.node a ha
  · by_cases hji : j = i
    · subst hji; simp
    · rw [update_of_ne hji] at hpj
      have hjm : j ∉ linesAt c pl .victim := fun hm => hpj hm.2
      simp only [update_of_ne hji]
      exact (congrArg Line.pos ((hr j).2 hjm)).trans (h.pos_eq j hj hpj)

/-- `pqueue_pop` and `victim_line->pos = 0`. -/
theorem Shelved.pop (h : Shelved c lm pl) (h1 : 1 < lm.victimLinePq.size) :
    ∃ v < c.sp.blksPerPl, pl v = .victim ∧ lm.victimLinePq.d 1 = .ptr v ∧
      ∃ q ls, lm.withPq ((lm.victimLinePq.pqueuePop victimLine lm.lines).map (·.2)) =
          .ok { lm with victimLinePq := q, lines := ls } ∧
        PosOnly lm.lines (update ls v { ls v with pos := 0 }) ∧
        Shelved c { lm with
          victimLinePq := q, lines := update ls v { ls v with pos := 0 }
          victimLineCnt := lm.victimLineCnt - 1 } (update pl v .gone) := by
  obtain ⟨v, ⟨hv, hp⟩, hd, q, ls, he, hlk, hs, hr⟩ :=
    pqueuePop_linked victimLine_lawful h.linked h1
  have ho := pqueuePop_sorted victimLine_minFirst h.linked h.order h1 he
  exact ⟨v, hv, hp, hd, q, ls, by rw [he]; rfl, h.leave hv hp hlk ho hs hr⟩

/-- `pqueue_remove` and `best->pos = 0`. -/
theorem Shelved.remove (h : Shelved c lm pl) (hi : i < c.sp.blksPerPl) (hp : pl i = .victim) :
    ∃ q ls, lm.withPq (lm.victimLinePq.pqueueRemove victimLine lm.lines i) =
        .ok { lm with victimLinePq := q, lines := ls } ∧
      PosOnly lm.lines (update ls i { ls i with pos := 0 }) ∧
      Shelved c { lm with
        victimLinePq := q, lines := update ls i { ls i with pos := 0 }
        victimLineCnt := lm.victimLineCnt - 1 } (update pl i .gone) := by
  obtain ⟨q, ls, he, hlk, hs, hr⟩ :=
    pqueueRemove_linked victimLine_lawful h.linked (a := i) ⟨hi, hp⟩
  have ho := pqueueRemove_sorted victimLine_minFirst h.linked h.order ⟨hi, hp⟩ he
  exact ⟨q, ls, by rw [he]; rfl, h.leave hi hp hlk ho hs hr⟩

end WaitGc

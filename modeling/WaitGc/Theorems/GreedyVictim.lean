/-
  WAITGC verification — the greedy victim is minimal.

  The garbage of an FTL are its closed lines with an invalid page.  In every
  reachable state the victim queue holds the garbage, each line at its position
  and in the order of the valid pages the lines have now.  `greedy_minimal`:
  `select_victim_greedy` takes a line with the fewest of them, if there is any
  garbage, and leaves a queue of the others.
-/
import WaitGc.Theorems.Lines

namespace WaitGc

open Outcome Function Pqueue

variable {c : Cfg} {s : ConvFtl} {d : Device} {pl : ℕ → Place} {i v part : ℕ}

/-- A closed line: it is not free, and no write pointer stands in it. -/
def ConvFtl.Closed (c : Cfg) (s : ConvFtl) (i : ℕ) : Prop :=
  i < c.sp.ttLines ∧ i ∉ s.lm.freeLineList ∧ ∀ io, i ≠ (s.getWp io).curline

/-- The closed lines with an invalid page. -/
def garbage (c : Cfg) (s : ConvFtl) : Set ℕ :=
  {i | s.Closed c i ∧ ∃ p, IsPage c p ∧ p.line = i ∧ s.status p = .invalid}

/-- The victim queue holds the lines `M`: every live slot points to one, at its
    position, and no line has more valid pages than the lines below it. -/
structure QueueHolds (s : ConvFtl) (M : Set ℕ) : Prop where
  slot : ∀ k, 1 ≤ k → k < s.lm.victimLinePq.size →
    ∃ i ∈ M, s.lm.victimLinePq.d k = .ptr i ∧ (s.lm.lines i).pos = k
  member : ∀ i ∈ M, 1 ≤ (s.lm.lines i).pos ∧ (s.lm.lines i).pos < s.lm.victimLinePq.size ∧
    s.lm.victimLinePq.d (s.lm.lines i).pos = .ptr i
  order : ∀ k a b, 2 ≤ k → k < s.lm.victimLinePq.size → s.lm.victimLinePq.d (k / 2) = .ptr a →
    s.lm.victimLinePq.d k = .ptr b → (s.lm.lines a).vpc ≤ (s.lm.lines b).vpc

/-- The selection `r` from the FTL `s`: a line of the garbage with the fewest valid
    pages, which has left the queue. -/
structure MinimalVictim (c : Cfg) (s : ConvFtl) (r : Option ℕ × ConvFtl) : Prop where
  none_iff : r.1 = none ↔ garbage c s = ∅
  idle : r.1 = none → r.2 = s
  minimal : ∀ v, r.1 = some v → v ∈ garbage c s ∧
    ∀ i ∈ garbage c s, (s.lm.lines v).vpc ≤ (s.lm.lines i).vpc
  leaves : ∀ v, r.1 = some v → (r.2.lm.lines v).pos = 0 ∧ QueueHolds r.2 (garbage c s \ {v})
  counts : ∀ i, (r.2.lm.lines i).vpc = (s.lm.lines i).vpc ∧ (r.2.lm.lines i).ipc = (s.lm.lines i).ipc

/-! ## The queue and the garbage -/

theorem FtlOk.garbage_eq (h : FtlOk c s pl) : garbage c s = linesAt c pl .victim := by
  have hB : c.sp.ttLines = c.sp.blksPerPl := Geometry.ttLines_eq'
  ext i
  constructor
  · rintro ⟨⟨hi, hfree, hopen⟩, p, hp, rfl, hs⟩
    rw [hB] at hi
    have hpg := h.phys.pages p.line hi
    have hst : lineSt c s.blk p.line (p.ord c) = .invalid := by
      rw [hp.lineSt_eq]
      exact hs
    refine ⟨hi, ?_⟩
    cases hx : pl p.line with
    | victim => rfl
    | free => exact absurd ((h.phys.shelved.mem_free _).2 ⟨hi, hx⟩) hfree
    | opened io => exact absurd ((h.phys.opened io _ hi).1 hx) (hopen io)
    | gone => exact absurd hx (h.settled _ hi)
    | full =>
      rw [hx] at hpg
      rw [hpg _ hp.ord_lt] at hst
      cases hst
  · rintro ⟨hi, hx⟩
    have hpg := h.phys.pages i hi
    rw [hx] at hpg
    obtain ⟨k, hk, hst⟩ := hpg.2
    obtain ⟨hp, hline, -⟩ := isPage_pageAt hi hk
    refine ⟨⟨hB ▸ hi, ?_, ?_⟩, pageAt c i k, hp, hline, hst⟩
    · intro hfree
      have hpl := ((h.phys.shelved.mem_free i).1 hfree).2
      rw [hx] at hpl
      cases hpl
    · intro io hcur
      have hpl := (h.phys.opened io i hi).2 hcur
      rw [hx] at hpl
      cases hpl

theorem Shelved.queueHolds (h : Shelved c s.lm pl) : QueueHolds s (linesAt c pl .victim) where
  slot := h.linked.slot
  member := h.linked.node
  order k a b hk hkn ha hb := by
    have hord := h.order k hk hkn
    rwa [slotPri_ptr ha, slotPri_ptr hb] at hord

/-- The head of the queue has the fewest valid pages. -/
theorem Shelved.head_le (h : Shelved c s.lm pl) (hv : s.lm.victimLinePq.d 1 = .ptr v)
    (hi : i ∈ linesAt c pl .victim) : (s.lm.lines v).vpc ≤ (s.lm.lines i).vpc := by
  obtain ⟨h₁, hlt, hd⟩ := h.linked.node i hi
  have hroot := Heap.Ordered.root_le h.order _ h₁ hlt
  rwa [slotPri_ptr hv, slotPri_ptr hd] at hroot

/-! ## The selection -/

theorem selectVictimGreedy_peek (s : ConvFtl) (force : Bool) :
    Yields (fun r => ∀ v, r.1 = some v → s.lm.victimLinePq.pqueuePeek = .ptr v)
      (selectVictimGreedy c s force) := by
  unfold selectVictimGreedy
  refine (derefLine_yields _).bind ?_
  rintro (_ | v) ⟨-, hptr⟩
  · exact fun v hv => nomatch hv
  · dsimp only
    by_cases hf : (!force) = true ∧ c.sp.pgsPerLine / 8 < (s.lm.lines v).vpc
    · rw [if_pos hf]
      exact fun v hv => nomatch hv
    · rw [if_neg hf]
      refine (isotonicSampleCandidates_sampled s).to_yields.bind ?_
      intro s₁ _
      refine Sat.bind (Q := fun _ => True) (yields_iff.2 fun _ _ => trivial) ?_
      rintro lm - w ⟨⟩
      exact (hptr v rfl).1

theorem FtlOk.selectVictimGreedy_minimal (hpol : c.build.policy = .greedy) (h : FtlOk c s pl) :
    Sat (fun e => c.build.isoLogSamples = true ∧ e = .wildPointer) (MinimalVictim c s)
      (selectVictimGreedy c s true) := by
  have hsh := h.phys.shelved
  refine ((selectVictimGreedy_taken hpol h.phys true).yields (selectVictimGreedy_peek s true)).mono
    (fun _ he => he) ?_
  rintro ⟨_ | v, s'⟩ ⟨⟨hsel, htaken⟩, hpeek⟩
  · -- the queue is empty
    obtain ⟨rfl, hnull⟩ := hsel
    have hempty : garbage c s' = ∅ := by
      rw [h.garbage_eq, Set.eq_empty_iff_forall_notMem]
      intro i hi
      obtain ⟨h₁, hlt, -⟩ := hsh.linked.node i hi
      rcases hnull rfl with h0 | hp
      · omega
      · rw [pqueuePeek, if_neg (by omega)] at hp
        obtain ⟨j, -, hd, -⟩ := hsh.linked.slot 1 le_rfl (by omega)
        rw [hp] at hd
        cases hd
    refine ⟨⟨fun _ => hempty, fun _ => rfl⟩, fun _ => rfl, ?_, ?_, fun _ => ⟨rfl, rfl⟩⟩
    · rintro v ⟨⟩
    · rintro v ⟨⟩
  · obtain ⟨hselecting, hlt, hplace, hphys⟩ := htaken v rfl
    have hhead : s.lm.victimLinePq.d 1 = .ptr v := by
      have hp := hpeek v rfl
      unfold pqueuePeek at hp
      split at hp
      · cases hp
      · exact hp
    have hmem : v ∈ garbage c s := by
      rw [h.garbage_eq]
      exact ⟨hlt, hplace⟩
    refine ⟨?_, ?_, ?_, ?_, ?_⟩
    · exact ⟨fun hnone => (by cases hnone), fun hempty => absurd hmem (hempty ▸ Set.notMem_empty v)⟩
    · rintro ⟨⟩
    · rintro w ⟨⟩
      refine ⟨hmem, fun i hi => ?_⟩
      rw [h.garbage_eq] at hi
      exact hsh.head_le hhead hi
    · rintro w ⟨⟩
      refine ⟨hphys.shelved.pos_eq v hlt (by rw [update_self]; simp), ?_⟩
      have hrest := hphys.shelved.queueHolds
      rwa [linesAt_update_leave (by simp), ← h.garbage_eq] at hrest
    · exact fun i => ⟨(hselecting.line i).vpc, (hselecting.line i).ipc⟩

/-- **The greedy selection is minimal in every reachable state.** -/
theorem greedy_minimal (hpol : c.build.policy = .greedy) (h : Reachable c d) (hpart : part < c.nrParts) :
    QueueHolds (d.dev.ftls part) (garbage c (d.dev.ftls part)) ∧
      Sat (fun e => c.build.isoLogSamples = true ∧ e = .wildPointer) (MinimalVictim c (d.dev.ftls part))
        (selectVictimGreedy c (d.dev.ftls part) true) := by
  obtain ⟨⟨pl, hok⟩, -⟩ := greedy_inv hpol h hpart
  refine ⟨?_, hok.selectVictimGreedy_minimal hpol⟩
  rw [hok.garbage_eq]
  exact hok.phys.shelved.queueHolds

/-- The line of the first two copies of a page is closed and is the victim. -/
theorem greedy_minimal_closedLine : ∃ d s', Reachable sixCfg d ∧
    selectVictimGreedy sixCfg (d.dev.ftls 0) true = .ok (some 0, s') ∧
    QueueHolds (d.dev.ftls 0) (garbage sixCfg (d.dev.ftls 0)) ∧
    MinimalVictim sixCfg (d.dev.ftls 0) (some 0, s') := by
  have hcond : (convInitNamespace sixCfg (fun _ _ => .null) (fun _ => 0) >>= fun dev =>
      (device sixCfg).run ⟨dev, none⟩ (pagesRun [0, 0, 0]) >>= fun d =>
        (selectVictimGreedy sixCfg (d.dev.ftls 0) true).map Prod.fst) = .ok (some 0) := by
    decide +kernel
  obtain ⟨dev, hinit, hcond⟩ := bind_eq_ok hcond
  obtain ⟨d, hrun, hcond⟩ := bind_eq_ok hcond
  obtain ⟨⟨v, s'⟩, hsel, rfl⟩ := exists_ok_of_map hcond
  have hd : Reachable sixCfg d := ⟨_, _, dev, _, hinit, hrun⟩
  obtain ⟨hqueue, hmin⟩ := greedy_minimal rfl hd Nat.one_pos
  exact ⟨d, s', hd, hsel, hqueue, hmin.of_ok hsel⟩

end WaitGc

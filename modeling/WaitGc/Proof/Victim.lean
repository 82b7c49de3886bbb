/-
  WAITGC verification — what selecting a victim does.

  * `Sampled`: the sampling of candidates writes the sampling fields of lines,
    one counter and the log.
  * `Selecting`: a selection, of any policy and in any state, changes positions,
    sampling fields and statistics, and takes at most one slot from the queue.
  * `Taken`: where the lines are on their shelves, the selected line left the
    queue and is nowhere.
-/
import WaitGc.Proof.Frame
import WaitGc.Proof.Write

namespace WaitGc

open Outcome Function Pqueue

variable {c : Cfg} {s s' s₁ s₂ s₃ : ConvFtl} {pl : ℕ → Place} {v i : ℕ}

/-! ## Lines that differ in positions and samples -/

/-- The fields of a line that the sampling and the queue do not write. -/
structure Line.Same (l l' : Line) : Prop where
  id : l'.id = l.id
  ipc : l'.ipc = l.ipc
  vpc : l'.vpc = l.vpc
  time : l'.lastModifiedTime = l.lastModifiedTime

theorem Line.Same.refl (l : Line) : l.Same l := ⟨rfl, rfl, rfl, rfl⟩

theorem Line.Same.trans {l₁ l₂ l₃ : Line} (h : l₁.Same l₂) (h' : l₂.Same l₃) : l₁.Same l₃ :=
  ⟨h'.id.trans h.id, h'.ipc.trans h.ipc, h'.vpc.trans h.vpc, h'.time.trans h.time⟩

theorem same_update {ls : ℕ → Line} {l : Line} (h : (ls i).Same l) (j : ℕ) :
    (ls j).Same (update ls i l j) := by
  by_cases hj : j = i
  · subst hj; rw [update_self]; exact h
  · rw [update_of_ne hj]; exact .refl _

theorem PosOnly.same {ls ls' : ℕ → Line} (h : PosOnly ls ls') (j : ℕ) : (ls j).Same (ls' j) := by
  rw [h j]; exact ⟨rfl, rfl, rfl, rfl⟩

/-! ## Sampling -/

/-- `s'` is `s` after some samples. -/
structure Sampled (s s' : ConvFtl) : Prop where
  frame : s' = { s with
    lm := { s.lm with lines := s'.lm.lines }, stats := s'.stats, isoLog := s'.isoLog }
  stats : s'.stats = { s.stats with
    isoSamplesCompleted := s'.stats.isoSamplesCompleted
    isoSamplesCensored := s'.stats.isoSamplesCensored }
  line : ∀ i, (s.lm.lines i).Same (s'.lm.lines i)
  pos : ∀ i, (s'.lm.lines i).pos = (s.lm.lines i).pos

theorem Sampled.refl (s : ConvFtl) : Sampled s s := ⟨rfl, rfl, fun _ => .refl _, fun _ => rfl⟩

theorem Sampled.trans (h : Sampled s₁ s₂) (h' : Sampled s₂ s₃) : Sampled s₁ s₃ := by
  refine ⟨?_, ?_, ?_, ?_⟩
  · rw [h'.frame, h.frame]
  · rw [h'.stats, h.stats]
  · intro i; exact (h.line i).trans (h'.line i)
  · intro i; rw [h'.pos, h.pos]

theorem pos_update {ls : ℕ → Line} {l : Line} (h : l.pos = (ls i).pos) (j : ℕ) :
    (update ls i l j).pos = (ls j).pos := by
  by_cases hj : j = i
  · subst hj; rw [update_self, h]
  · rw [update_of_ne hj]

theorem isotonicSampleLine_sampled (s : ConvFtl) (i : ℕ) : Sampled s (isotonicSampleLine c s i) := by
  unfold isotonicSampleLine
  dsimp only
  generalize (if (s.lm.lines i).isoSampleStartNs < s.curNsecs then
    s.curNsecs - (s.lm.lines i).isoSampleStartNs else 0) = elapsed
  generalize (if (s.lm.lines i).isoSampleIpc ≤ (s.lm.lines i).ipc then
    (s.lm.lines i).ipc - (s.lm.lines i).isoSampleIpc else 0) = futureInvalid
  split_ifs
  · exact .refl s
  · exact ⟨rfl, rfl, same_update ⟨rfl, rfl, rfl, rfl⟩, pos_update rfl⟩
  · exact ⟨rfl, rfl, same_update ⟨rfl, rfl, rfl, rfl⟩, pos_update rfl⟩

/-- **Sampling reads the slots of the queue**, so it can hit a stray pointer. -/
theorem isotonicSampleCandidates_sampled (s : ConvFtl) :
    Sat (fun e => c.build.isoLogSamples = true ∧ e = .wildPointer) (Sampled s)
      (isotonicSampleCandidates c s) := by
  unfold isotonicSampleCandidates
  split_ifs with hiso
  swap
  · exact .refl s
  refine sat_foldlM (fun _ => Sampled s) _ ?_ (.refl s)
  intro pre k post s₁ _ h
  unfold derefLine
  cases s₁.lm.victimLinePq.d k with
  | null => exact h
  | wild => exact ⟨hiso, rfl⟩
  | ptr a =>
    dsimp only
    split_ifs
    · exact h.trans (isotonicSampleLine_sampled s₁ a)
    · exact ⟨hiso, rfl⟩

theorem isotonicCensorSelected_sampled (s : ConvFtl) (i : ℕ) :
    Sampled s (isotonicCensorSelected c s i) := by
  unfold isotonicCensorSelected
  dsimp only
  split_ifs
  · exact ⟨rfl, rfl, same_update ⟨rfl, rfl, rfl, rfl⟩, pos_update rfl⟩
  · exact .refl s

theorem Sampled.ftl (h : Sampled s s') : s'.lm.victimLinePq = s.lm.victimLinePq ∧
    s'.blk = s.blk ∧ s'.wp = s.wp ∧ s'.gcWp = s.gcWp ∧ s'.curNsecs = s.curNsecs := by
  rw [h.frame]; exact ⟨rfl, rfl, rfl, rfl, rfl⟩

theorem Sampled.phys (h : Sampled s s') {pos : IoType → ℕ} (hp : Phys c s pl pos) :
    Phys c s' pl pos := by
  have hl := hp.lines (fun i => (h.line i).id) h.pos (fun i => (h.line i).vpc)
    (fun i => (h.line i).ipc)
  refine hl.congr ?_ ?_ ?_
  · rw [h.frame]
  · rw [h.frame]
  · intro io; rw [h.frame]; exact ConvFtl.getWp_congr rfl rfl io

/-! ## Selections in any state -/

/-- The counters `conv_flush` computes the WAF from. -/
def GcStats.waf (st : GcStats) : ℕ × ℕ × ℕ × ℕ :=
  (st.gcCnt, st.gcValidCopied, st.hostWritePages, st.gcVictimVpcSum)

/-- The slots a scan evaluates. -/
def evaluated (q : Pqueue) : ℕ := (scanSlots q).countP fun i => decide (q.d i ≠ .null)

/-- The evaluations of one selection. -/
def Build.evaluated (b : Build) (q : Pqueue) : ℕ :=
  match b.policy with
  | .greedy => 0
  | _ => WaitGc.evaluated q

/-- `s'` is `s` after the line `v` was selected. -/
structure Selecting (c : Cfg) (s : ConvFtl) (v : ℕ) (s' : ConvFtl) : Prop where
  frame : s' = { s with lm := s'.lm, stats := s'.stats, isoLog := s'.isoLog }
  shelf : s'.lm = { s.lm with
    lines := s'.lm.lines, victimLinePq := s'.lm.victimLinePq
    victimLineCnt := s.lm.victimLineCnt - 1 }
  line : ∀ i, (s.lm.lines i).Same (s'.lm.lines i)
  size : s'.lm.victimLinePq.size = s.lm.victimLinePq.size - 1
  lt : v < c.sp.ttLines
  waf : s'.stats.waf = s.stats.waf
  available : s'.stats.gcCandidatesAvailableSum =
    s.stats.gcCandidatesAvailableSum + s.lm.victimLinePq.size
  evals : s'.stats.gcCandidateEvalCount =
    s.stats.gcCandidateEvalCount + c.build.evaluated s.lm.victimLinePq

/-- What a selection returns: `NULL`, and the FTL as it is, or a line. -/
def Selection (c : Cfg) (s : ConvFtl) (force : Bool) : Option ℕ × ConvFtl → Prop
  | (none, s') => s' = s ∧
      (force = true → s.lm.victimLinePq.size = 0 ∨ s.lm.victimLinePq.pqueuePeek = .null)
  | (some v, s') => (∃ a, s.lm.victimLinePq.pqueuePeek = .ptr a) ∧ Selecting c s v s'

theorem derefLine_yields (sl : Slot) :
    Yields (fun r => (r = none → sl = .null) ∧ ∀ a, r = some a → sl = .ptr a ∧ a < c.sp.ttLines)
      (derefLine c sl) := by
  unfold derefLine
  cases sl with
  | null => exact ⟨fun _ => rfl, fun _ h => nomatch h⟩
  | wild => trivial
  | ptr a =>
    dsimp only
    split_ifs with ha
    · refine ⟨fun h => (nomatch h), ?_⟩
      rintro b ⟨⟩
      exact ⟨rfl, ha⟩
    · trivial

theorem pqueuePop_yields {lm : LineMgmt} (h : lm.victimLinePq.size ≠ 1) :
    Yields (fun lm' => PosOnly lm.lines lm'.lines ∧
        lm'.victimLinePq.size = lm.victimLinePq.size - 1 ∧
        lm' = { lm with victimLinePq := lm'.victimLinePq, lines := lm'.lines })
      (lm.withPq ((lm.victimLinePq.pqueuePop victimLine lm.lines).map (·.2))) := by
  refine withPq_yields ?_
  intro q ls hq
  obtain ⟨⟨v, q', ls'⟩, he, heq⟩ := Option.map_eq_some_iff.1 hq
  cases heq
  obtain ⟨hs, hr⟩ := pqueuePop_repos victimLine_lawful he h
  exact ⟨PosOnly.of_repos hr, hs, rfl⟩

theorem pqueueRemove_yields (lm : LineMgmt) (i : ℕ) :
    Yields (fun lm' => PosOnly lm.lines lm'.lines ∧
        lm'.victimLinePq.size = lm.victimLinePq.size - 1 ∧
        lm' = { lm with victimLinePq := lm'.victimLinePq, lines := lm'.lines })
      (lm.withPq (lm.victimLinePq.pqueueRemove victimLine lm.lines i)) := by
  refine withPq_yields ?_
  intro q ls h
  obtain ⟨hs, hr⟩ := pqueueRemove_repos victimLine_lawful h
  exact ⟨PosOnly.of_repos hr, hs, rfl⟩

/-- A queue with a head has not the size of an empty one. -/
theorem size_ne_of_peek {q : Pqueue} {a : ℕ} (h : q.pqueuePeek = .ptr a) : q.size ≠ 1 := by
  intro hs
  rw [pqueuePeek, if_pos hs] at h
  cases h

private theorem Selecting.mk' {lm : LineMgmt} {stats : GcStats} (hs : Sampled s s₁)
    (hpo : PosOnly s₁.lm.lines lm.lines) (hsz : lm.victimLinePq.size = s₁.lm.victimLinePq.size - 1)
    (hlm : lm = { s₁.lm with victimLinePq := lm.victimLinePq, lines := lm.lines })
    (hv : v < c.sp.ttLines) (hwaf : stats.waf = s₁.stats.waf)
    (hav : stats.gcCandidatesAvailableSum =
      s₁.stats.gcCandidatesAvailableSum + s₁.lm.victimLinePq.size)
    (hev : stats.gcCandidateEvalCount =
      s₁.stats.gcCandidateEvalCount + c.build.evaluated s₁.lm.victimLinePq) :
    Selecting c s v { s₁ with
      stats := stats
      lm := { lm with
        lines := update lm.lines v { lm.lines v with pos := 0 }
        victimLineCnt := lm.victimLineCnt - 1 } } := by
  obtain ⟨hq, -⟩ := hs.ftl
  refine ⟨?_, ?_, ?_, ?_, hv, ?_, ?_, ?_⟩
  · rw [hs.frame]
  · rw [hlm, hs.frame]
  · intro i
    refine ((hs.line i).trans (hpo.same i)).trans ?_
    refine same_update ?_ i
    exact ⟨rfl, rfl, rfl, rfl⟩
  · rw [← hq]; exact hsz
  · refine hwaf.trans ?_
    rw [hs.stats]
    rfl
  · refine hav.trans ?_
    rw [hq, hs.stats]
  · refine hev.trans ?_
    rw [hq, hs.stats]

theorem selectVictimGreedy_yields (hpol : c.build.policy = .greedy) (s : ConvFtl) (force : Bool) :
    Yields (Selection c s force) (selectVictimGreedy c s force) := by
  unfold selectVictimGreedy
  refine (derefLine_yields _).bind ?_
  rintro (_ | v) ⟨hnull, hptr⟩
  · exact ⟨rfl, fun _ => .inr (hnull rfl)⟩
  obtain ⟨hpeek, hv⟩ := hptr v rfl
  dsimp only
  by_cases hf : (!force) = true ∧ c.sp.pgsPerLine / 8 < (s.lm.lines v).vpc
  · rw [if_pos hf]
    refine ⟨rfl, fun h => ?_⟩
    rw [h] at hf
    exact absurd hf.1 (by decide)
  rw [if_neg hf]
  refine (isotonicSampleCandidates_sampled s).to_yields.bind ?_
  intro s₁ hs
  obtain ⟨hq, -⟩ := hs.ftl
  have hne : s₁.lm.victimLinePq.size ≠ 1 := by rw [hq]; exact size_ne_of_peek hpeek
  refine (pqueuePop_yields hne).bind ?_
  rintro lm ⟨hpo, hsz, hlm⟩
  refine ⟨⟨v, hpeek⟩, .mk' hs hpo hsz hlm hv rfl rfl ?_⟩
  rw [Build.evaluated, hpol]
  rfl

/-- The variables of the cost-benefit scan after the slots `pre`. -/
structure Scanned (c : Cfg) (q : Pqueue) (st : GcStats) (pre : List ℕ)
    (acc : Option Candidate × GcStats) : Prop where
  waf : acc.2.waf = st.waf
  available : acc.2.gcCandidatesAvailableSum = st.gcCandidatesAvailableSum
  evals : acc.2.gcCandidateEvalCount =
    st.gcCandidateEvalCount + pre.countP fun i => decide (q.d i ≠ .null)
  lt : ∀ b, acc.1 = some b → b.line < c.sp.ttLines
  null : acc.1 = none → ∀ i ∈ pre, q.d i = .null

theorem scanCandidate_yields {st : GcStats} {pre : List ℕ} {acc : Option Candidate × GcStats}
    (h : Scanned c s.lm.victimLinePq st pre acc) (i : ℕ) :
    Yields (Scanned c s.lm.victimLinePq st (pre ++ [i])) (scanCandidate c s acc i) := by
  unfold scanCandidate
  refine (derefLine_yields _).bind ?_
  rintro (_ | a) ⟨hnull, hptr⟩
  · -- the slot is empty
    have hd := hnull rfl
    refine ⟨h.waf, h.available, ?_, h.lt, ?_⟩
    · rw [h.evals, List.countP_append]
      simp [hd]
    · intro hn j hj
      rcases List.mem_append.1 hj with hj | hj
      · exact h.null hn j hj
      · rw [List.mem_singleton.1 hj, hd]
  · obtain ⟨hd, ha⟩ := hptr a rfl
    have hev : acc.2.gcCandidateEvalCount + 1 = st.gcCandidateEvalCount +
        (pre ++ [i]).countP fun i => decide (s.lm.victimLinePq.d i ≠ .null) := by
      rw [h.evals, List.countP_append]
      simp [hd, Nat.add_assoc]
    have hline : (candidate c s a).line < c.sp.ttLines := ha
    dsimp only
    cases hacc : acc.1 with
    | none =>
      refine ⟨h.waf, h.available, hev, ?_, fun hn => (nomatch hn)⟩
      rintro b ⟨⟩
      exact hline
    | some best =>
      refine ⟨h.waf, h.available, hev, ?_, fun hn => (nomatch hn)⟩
      rintro b ⟨⟩
      split_ifs
      · exact hline
      · exact h.lt best hacc

theorem scanned_of_foldlM (s : ConvFtl) (st : GcStats) :
    Yields (Scanned c s.lm.victimLinePq st (scanSlots s.lm.victimLinePq))
      ((scanSlots s.lm.victimLinePq).foldlM (scanCandidate c s) (none, st)) := by
  refine sat_foldlM (Scanned c s.lm.victimLinePq st) _ ?_ ?_
  · intro pre i post acc _ h
    exact scanCandidate_yields h i
  · exact ⟨rfl, rfl, rfl, fun _ hb => (nomatch hb), fun _ _ hi => (nomatch hi)⟩

theorem selectVictimCostBenefit_yields (hpol : c.build.policy ≠ .greedy) (s : ConvFtl)
    (force : Bool) : Yields (Selection c s force) (selectVictimCostBenefit c s force) := by
  unfold selectVictimCostBenefit
  by_cases h0 : s.lm.victimLinePq.size = 0
  · rw [if_pos h0]
    exact ⟨rfl, fun _ => .inl h0⟩
  rw [if_neg h0]
  refine (derefLine_yields _).bind ?_
  rintro (_ | greedy) ⟨hnull, hptr⟩
  · exact ⟨rfl, fun _ => .inr (hnull rfl)⟩
  obtain ⟨hpeek, hg⟩ := hptr greedy rfl
  dsimp only
  by_cases hf : (!force) = true ∧ c.sp.pgsPerLine / 8 < (s.lm.lines greedy).vpc
  · rw [if_pos hf]
    refine ⟨rfl, fun h => ?_⟩
    rw [h] at hf
    exact absurd hf.1 (by decide)
  rw [if_neg hf]
  refine (isotonicSampleCandidates_sampled s).to_yields.bind ?_
  intro s₁ hs
  obtain ⟨hq, -⟩ := hs.ftl
  refine (scanned_of_foldlM s₁ _).bind ?_
  rintro ⟨best | best, stats⟩ hsc
  · -- the head of the queue is a candidate
    have hne := size_ne_of_peek hpeek
    have hd : s₁.lm.victimLinePq.d 1 = .null := by
      refine hsc.null rfl 1 ?_
      rw [hq, scanSlots, List.mem_range'_1]
      omega
    rw [hq] at hd
    rw [pqueuePeek, if_neg hne, hd] at hpeek
    cases hpeek
  · refine (pqueueRemove_yields s₁.lm best.line).bind ?_
    rintro lm ⟨hpo, hsz, hlm⟩
    refine ⟨⟨greedy, hpeek⟩, .mk' hs hpo hsz hlm (hsc.lt best rfl) hsc.waf
      hsc.available ?_⟩
    have hev : c.build.evaluated s₁.lm.victimLinePq = evaluated s₁.lm.victimLinePq := by
      unfold Build.evaluated
      cases hp : c.build.policy with
      | greedy => exact absurd hp hpol
      | ageCb => rfl
      | isotonic => rfl
    rw [hev]
    exact hsc.evals

/-- **A selection**, in any state and for any policy. -/
theorem selectVictimLine_yields (s : ConvFtl) (force : Bool) :
    Yields (Selection c s force) (selectVictimLine c s force) := by
  unfold selectVictimLine
  cases hp : c.build.policy with
  | greedy => exact selectVictimGreedy_yields hp s force
  | ageCb profile => exact selectVictimCostBenefit_yields (by rw [hp]; simp) s force
  | isotonic table => exact selectVictimCostBenefit_yields (by rw [hp]; simp) s force

/-! ## Selections from a linked queue -/

/-- The line `v` left the queue of `s`. -/
structure Taken (c : Cfg) (s : ConvFtl) (pl : ℕ → Place) (v : ℕ) (s' : ConvFtl) : Prop where
  selecting : Selecting c s v s'
  lt : v < c.sp.blksPerPl
  place : pl v = .victim
  phys : Phys c s' (update pl v .gone) (posOf c s')

theorem Phys.take {pos : IoType → ℕ} {lm : LineMgmt} (h : Phys c s pl pos) (hv : pl v = .victim)
    (hsh : Shelved c lm (update pl v .gone)) (hpo : PosOnly s.lm.lines lm.lines) :
    Phys c { s with lm := lm } (update pl v .gone) pos := by
  refine ⟨hsh, ?_, ?_, h.pos_le, h.blk_counted, ?_, ?_⟩
  · intro io; exact h.wp_ok io
  · intro io i hi
    refine Iff.trans ?_ (h.opened io i hi)
    by_cases hiv : i = v
    · subst hiv; simp [hv]
    · rw [update_of_ne hiv]
  · intro i hi hg
    by_cases hiv : i = v
    · subst hiv; rw [update_self] at hg; exact absurd rfl hg
    · rw [update_of_ne hiv] at hg
      simp only [hpo.vpc, hpo.ipc]
      exact h.line_counted i hi hg
  · intro i hi
    by_cases hiv : i = v
    · subst hiv; rw [update_self]; trivial
    · rw [update_of_ne hiv]; exact h.pages i hi

theorem derefLine_ptr {a : ℕ} (h : a < c.sp.blksPerPl) : derefLine c (.ptr a) = .ok (some a) := by
  have htt : c.sp.ttLines = c.sp.blksPerPl := Geometry.ttLines_eq'
  exact if_pos (htt ▸ h)

theorem Selection.taken {r : Option ℕ × ConvFtl} {force : Bool} (h : Selection c s force r)
    (hr : ∀ v, r.1 = some v → v < c.sp.blksPerPl ∧ pl v = .victim ∧
      Phys c r.2 (update pl v .gone) (posOf c r.2)) (hv : r.1 = some v) : Taken c s pl v r.2 := by
  obtain ⟨_ | w, s'⟩ := r
  · cases hv
  · cases hv
    obtain ⟨h₁, h₂, h₃⟩ := hr v rfl
    exact ⟨h.2, h₁, h₂, h₃⟩

/-- **The greedy selection takes a line of the queue.** -/
theorem selectVictimGreedy_taken (hpol : c.build.policy = .greedy)
    (h : Phys c s pl (posOf c s)) (force : Bool) :
    Sat (fun e => c.build.isoLogSamples = true ∧ e = .wildPointer)
      (fun r => Selection c s force r ∧ ∀ v, r.1 = some v → Taken c s pl v r.2)
      (selectVictimGreedy c s force) := by
  have hy := selectVictimGreedy_yields hpol s force
  suffices hp : Sat (fun e => c.build.isoLogSamples = true ∧ e = .wildPointer)
      (fun r => ∀ v, r.1 = some v → v < c.sp.blksPerPl ∧ pl v = .victim ∧
        Phys c r.2 (update pl v .gone) (posOf c r.2)) (selectVictimGreedy c s force) from
    (hp.yields hy).mono (fun _ he => he) fun r hr => ⟨hr.2, fun v hv => hr.2.taken hr.1 hv⟩
  unfold selectVictimGreedy
  by_cases h1 : s.lm.victimLinePq.size = 1
  · rw [pqueuePeek, if_pos h1]
    exact fun v hv => (nomatch hv)
  have hlt : 1 < s.lm.victimLinePq.size := by
    have := h.shelved.linked.size_pos
    omega
  obtain ⟨v, hv, -, hd, -⟩ := h.shelved.pop hlt
  rw [pqueuePeek, if_neg h1, hd, derefLine_ptr hv, ok_bind]
  dsimp only
  split_ifs
  · exact fun v hv => (nomatch hv)
  refine (isotonicSampleCandidates_sampled s).bind ?_
  intro s₁ hs
  have hp₁ := hs.phys h
  obtain ⟨hq, -, hwp, hgc, -⟩ := hs.ftl
  obtain ⟨w, -, hw, hdw, q, ls, he, hpo, hsh⟩ := hp₁.shelved.pop (by rw [hq]; exact hlt)
  obtain rfl : w = v := by
    rw [hq, hd] at hdw
    exact (Slot.ptr.inj hdw).symm
  rw [he, ok_bind]
  rintro x ⟨⟩
  refine ⟨hv, hw, ?_⟩
  rw [← posOf_congr (c := c) hwp hgc] at hp₁
  exact (hp₁.take hw hsh hpo).congr rfl rfl fun io => ConvFtl.getWp_congr rfl rfl io

end WaitGc

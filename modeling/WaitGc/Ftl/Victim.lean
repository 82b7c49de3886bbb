/-
  WAITGC verification — victim selection (`conv_ftl.c`, from `line_age_ns` to
  `select_victim_line`).

  * The scans over the victim queue run from slot `1` to slot `pq->size`, both
    included; `derefLine` says what reading a slot gives.
  * The profiles of mode 2 and the table of mode 3 are step functions; a step
    function returns the value and the level of an age.
-/
import WaitGc.Ftl.Lines

namespace WaitGc

open Outcome Function

variable (c : Cfg)

/-! ## Ages -/

/-- `CONV_AGE_LEVEL_MAX`. -/
def CONV_AGE_LEVEL_MAX : ℕ := 7

/-- `line_age_ns`. -/
def lineAgeNs (s : ConvFtl) (l : Line) : ℕ :=
  if l.lastModifiedTime < s.curNsecs then s.curNsecs - l.lastModifiedTime else 0

/-- `age_step_lookup`, on a table that is not empty: the value and the level. -/
def ageStepLookup (ageNs : ℕ) (steps : List (ℕ × ℕ)) : ℕ × ℕ :=
  let level := (steps.findIdx? fun st => ageNs < st.1).getD (steps.length - 1)
  ((steps.getD level (0, 0)).2, level)

/-- The upper bound `~0ULL` of a last step. -/
def MAX_AGE : ℕ := 2 ^ 64 - 1

/-- The tables of `cb_age_value`: upper ages and values. -/
def CbAgeProfile.steps : CbAgeProfile → List (ℕ × ℕ)
  | .rawLinear | .flat => []
  | .cat7 => [(10000000000, 1), (20000000000, 2), (45000000000, 3), (90000000000, 4),
      (180000000000, 5), (360000000000, 6), (MAX_AGE, 7)]
  | .coarse3 => [(20000000000, 1), (180000000000, 2), (MAX_AGE, 3)]
  | .earlySat => [(1000000, 1), (2000000, 2), (4000000, 3), (8000000, 4), (16000000, 5),
      (32000000, 6), (MAX_AGE, 7)]
  | .lateRamp => [(60000000000, 1), (300000000000, 2), (900000000000, 3), (1800000000000, 4),
      (3600000000000, 5), (7200000000000, 6), (MAX_AGE, 7)]
  | .aggressive7 => [(10000000000, 1), (20000000000, 2), (45000000000, 4), (90000000000, 8),
      (180000000000, 16), (360000000000, 32), (MAX_AGE, 64)]

/-- `cb_age_value`. -/
def cbAgeValue (profile : CbAgeProfile) (ageNs : ℕ) : ℕ × ℕ :=
  match profile with
  | .rawLinear => (if ageNs ≠ 0 then ageNs else 1, 0)
  | .flat => (1, 0)
  | p => ageStepLookup ageNs p.steps

/-- `isotonic_age_value`. -/
def isotonicAgeValue (table : IsoTable) (ageNs : ℕ) : ℕ × ℕ :=
  let level := ((List.range (table.stepCount - 1)).find? fun i => ageNs < table.boundary i).getD
    (table.stepCount - 1)
  (table.value level, level)

/-- `selected_age_value`; the greedy build has no such function. -/
def selectedAgeValue (policy : GcPolicy) (ageNs : ℕ) : ℕ × ℕ :=
  match policy with
  | .greedy => (0, 0)
  | .ageCb profile => cbAgeValue profile ageNs
  | .isotonic table => isotonicAgeValue table ageNs

/-- `cost_benefit_score`: `AgeValue * IPC / (VPC + 1)`, saturating. -/
def costBenefitScore (l : Line) (ageValue : ℕ) : ℕ :=
  let maxU64 := 2 ^ 64 - 1
  let divisor := l.vpc + 1
  if ageValue = 0 ∨ l.ipc = 0 then 0
  else
    let quotient := ageValue / divisor
    let remainder := ageValue % divisor
    if maxU64 / l.ipc < quotient then maxU64
    else
      let score := quotient * l.ipc
      let tail :=
        if maxU64 / l.ipc < remainder then maxU64 / divisor else remainder * l.ipc / divisor
      if maxU64 - tail < score then maxU64 else score + tail

/-! ## Evidence -/

/-- `evidence_record_selected_age`. -/
def evidenceRecordSelectedAge (st : GcStats) (ageNs : ℕ) (hasLevel : Bool) (level : ℕ) : GcStats :=
  { st with
    gcSelectedAgeNsSum := st.gcSelectedAgeNsSum + ageNs
    gcSelectedAgeNsMin := if ageNs < st.gcSelectedAgeNsMin then ageNs else st.gcSelectedAgeNsMin
    gcSelectedAgeNsMax := if st.gcSelectedAgeNsMax < ageNs then ageNs else st.gcSelectedAgeNsMax
    gcSelectedLevelHist :=
      if hasLevel ∧ level < CONV_AGE_LEVEL_MAX then
        update st.gcSelectedLevelHist level (st.gcSelectedLevelHist level + 1)
      else st.gcSelectedLevelHist }

/-- `evidence_record_candidate`. -/
def evidenceRecordCandidate (st : GcStats) (ageNs level : ℕ) : GcStats :=
  { st with
    gcCandidateEvalCount := st.gcCandidateEvalCount + 1
    gcCandidateAgeNsSum := st.gcCandidateAgeNsSum + ageNs
    gcCandidateAgeNsMin := if ageNs < st.gcCandidateAgeNsMin then ageNs else st.gcCandidateAgeNsMin
    gcCandidateAgeNsMax := if st.gcCandidateAgeNsMax < ageNs then ageNs else st.gcCandidateAgeNsMax
    gcCandidateLevelHist :=
      if level < CONV_AGE_LEVEL_MAX then
        update st.gcCandidateLevelHist level (st.gcCandidateLevelHist level + 1)
      else st.gcCandidateLevelHist }

/-! ## Slots of the queue -/

/-- Reading a slot as a `struct line *`: `none` for `NULL`; a pointer that is
    not into `lm->lines` faults when it is dereferenced. -/
def derefLine (sl : Slot) : Except Fault (Option ℕ) :=
  match sl with
  | .null => .ok none
  | .ptr a => if a < c.sp.ttLines then .ok (some a) else .error .wildPointer
  | .wild => .error .wildPointer

/-- The slots a scan of the queue visits: `i = 1 .. pq->size`. -/
def scanSlots (q : Pqueue) : List ℕ := List.range' 1 q.size

/-- The body of `isotonic_sample_candidates`, for line `i`. -/
def isotonicSampleLine (s : ConvFtl) (i : ℕ) : ConvFtl :=
  let l := s.lm.lines i
  let now := s.curNsecs
  if ¬ l.isoSampleActive then
    { s with lm := { s.lm with lines := update s.lm.lines i { l with
        isoSampleActive := true
        isoSampleIpc := l.ipc
        isoSampleAgeNs := lineAgeNs s l
        isoSampleStartNs := now } } }
  else
    let elapsed := if l.isoSampleStartNs < now then now - l.isoSampleStartNs else 0
    if elapsed < c.build.isoSampleHorizonNs then s
    else
      let futureInvalid := if l.isoSampleIpc ≤ l.ipc then l.ipc - l.isoSampleIpc else 0
      { s with
        stats := { s.stats with isoSamplesCompleted := s.stats.isoSamplesCompleted + 1 }
        isoLog := s.isoLog ++
          [⟨s.partId, l.id, l.isoSampleAgeNs, futureInvalid, elapsed, l.isoSampleIpc, l.ipc⟩]
        -- rearm on the next GC decision to avoid overlapping observations
        lm := { s.lm with lines := update s.lm.lines i { l with isoSampleActive := false } } }

/-- `isotonic_sample_candidates`. -/
def isotonicSampleCandidates (s : ConvFtl) : Except Fault ConvFtl :=
  if c.build.isoLogSamples then
    (scanSlots s.lm.victimLinePq).foldlM (fun s i => do
      match ← derefLine c (s.lm.victimLinePq.d i) with
      | none => pure s
      | some a => pure (isotonicSampleLine c s a)) s
  else pure s

/-- `isotonic_censor_selected`. -/
def isotonicCensorSelected (s : ConvFtl) (i : ℕ) : ConvFtl :=
  let l := s.lm.lines i
  if c.build.isoLogSamples ∧ l.isoSampleActive then
    { s with
      stats := { s.stats with isoSamplesCensored := s.stats.isoSamplesCensored + 1 }
      lm := { s.lm with lines := update s.lm.lines i { l with isoSampleActive := false } } }
  else s

/-! ## Selection -/

/-- `select_victim_greedy`: the line, or `none` for `NULL`. -/
def selectVictimGreedy (s : ConvFtl) (force : Bool) : Except Fault (Option ℕ × ConvFtl) := do
  match ← derefLine c s.lm.victimLinePq.pqueuePeek with
  | none => pure (none, s)
  | some v =>
    if !force ∧ c.sp.pgsPerLine / 8 < (s.lm.lines v).vpc then pure (none, s)
    else
      let s ← isotonicSampleCandidates c s
      let l := s.lm.lines v
      let selectedAgeNs := lineAgeNs s l
      let stats := { s.stats with
        gcCandidatesAvailableSum := s.stats.gcCandidatesAvailableSum + s.lm.victimLinePq.size
        gcGreedyRefVpcSum := s.stats.gcGreedyRefVpcSum + l.vpc
        gcGreedyRefAgeNsSum := s.stats.gcGreedyRefAgeNsSum + selectedAgeNs }
      let lm ← s.lm.withPq ((s.lm.victimLinePq.pqueuePop victimLine s.lm.lines).map (·.2))
      pure (some v, { s with
        stats := evidenceRecordSelectedAge stats selectedAgeNs false 0
        lm := { lm with
          lines := update lm.lines v { lm.lines v with pos := 0 }
          victimLineCnt := lm.victimLineCnt - 1 } })

/-- The `best_*` variables of the cost-benefit scan. -/
structure Candidate where
  line : ℕ
  ageNs : ℕ
  ageLevel : ℕ
  ageValue : ℕ
  score : ℕ
  deriving DecidableEq, Repr

/-- The candidate line `i` makes. -/
def candidate (s : ConvFtl) (i : ℕ) : Candidate :=
  let l := s.lm.lines i
  let ageNs := lineAgeNs s l
  let (ageValue, ageLevel) := selectedAgeValue c.build.policy ageNs
  ⟨i, ageNs, ageLevel, ageValue, costBenefitScore l ageValue⟩

/-- The comparison of the scan: larger score, then fewer valid pages, then
    smaller id. -/
def Beats (s : ConvFtl) (x best : Candidate) : Prop :=
  let ln := s.lm.lines x.line
  let lb := s.lm.lines best.line
  best.score < x.score ∨ (x.score = best.score ∧ ln.vpc < lb.vpc) ∨
    (x.score = best.score ∧ ln.vpc = lb.vpc ∧ ln.id < lb.id)

instance (s : ConvFtl) (x best : Candidate) : Decidable (Beats s x best) :=
  inferInstanceAs (Decidable (_ ∨ _ ∨ _))

/-- The body of the cost-benefit scan, for slot `i`. -/
def scanCandidate (s : ConvFtl) (acc : Option Candidate × GcStats) (i : ℕ) :
    Except Fault (Option Candidate × GcStats) := do
  match ← derefLine c (s.lm.victimLinePq.d i) with
  | none => pure acc
  | some a =>
    let x := candidate c s a
    let stats := evidenceRecordCandidate acc.2 x.ageNs x.ageLevel
    match acc.1 with
    | none => pure (some x, stats)
    | some best => pure (some (if Beats s x best then x else best), stats)

/-- `select_victim_cost_benefit`. -/
def selectVictimCostBenefit (s : ConvFtl) (force : Bool) : Except Fault (Option ℕ × ConvFtl) := do
  if s.lm.victimLinePq.size = 0 then pure (none, s)
  else
    match ← derefLine c s.lm.victimLinePq.pqueuePeek with
    | none => pure (none, s)
    | some greedy =>
      if !force ∧ c.sp.pgsPerLine / 8 < (s.lm.lines greedy).vpc then pure (none, s)
      else
        let s ← isotonicSampleCandidates c s
        let greedyAgeNs := lineAgeNs s (s.lm.lines greedy)
        let stats := { s.stats with
          gcCandidatesAvailableSum := s.stats.gcCandidatesAvailableSum + s.lm.victimLinePq.size }
        let (best, stats) ← (scanSlots s.lm.victimLinePq).foldlM (scanCandidate c s) (none, stats)
        match best with
        | none => pure (none, { s with stats := stats })
        | some best =>
          let lb := s.lm.lines best.line
          let lg := s.lm.lines greedy
          let stats := { stats with
            gcDiffFromGreedy := stats.gcDiffFromGreedy + if greedy ≠ best.line then 1 else 0
            gcGreedyRefVpcSum := stats.gcGreedyRefVpcSum + lg.vpc
            gcGreedyRefAgeNsSum := stats.gcGreedyRefAgeNsSum + greedyAgeNs
            gcExtraVpcVsGreedySum := stats.gcExtraVpcVsGreedySum + (lb.vpc - lg.vpc) }
          let stats := evidenceRecordSelectedAge stats best.ageNs true best.ageLevel
          let stats := { stats with
            gcSelectedAgeValueSum := stats.gcSelectedAgeValueSum + best.ageValue
            gcSelectedScoreSum := stats.gcSelectedScoreSum + best.score }
          let lm ← s.lm.withPq (s.lm.victimLinePq.pqueueRemove victimLine s.lm.lines best.line)
          pure (some best.line, { s with
            stats := stats
            lm := { lm with
              lines := update lm.lines best.line { lm.lines best.line with pos := 0 }
              victimLineCnt := lm.victimLineCnt - 1 } })

/-- `select_victim_line`. -/
def selectVictimLine (s : ConvFtl) (force : Bool) : Except Fault (Option ℕ × ConvFtl) :=
  match c.build.policy with
  | .greedy => selectVictimGreedy c s force
  | .ageCb _ | .isotonic _ => selectVictimCostBenefit c s force

end WaitGc

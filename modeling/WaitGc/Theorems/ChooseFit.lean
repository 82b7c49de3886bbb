/-
  WAITGC verification — the fit that is exported is the best of all.

  `choose_fit` compares the fits of `reduced_fits`, one for each number of steps.
  The objective grows with the error, so what it picks is the best among all
  partitions of the blocks, and the one with the fewest steps of those
  (`chosen_fit_optimal`).

  A larger `--step-penalty` never selects more steps, and never a smaller error
  (`penalty_antitone`).

  Floats are exact rationals, as in `Fit/Isotonic`: where two objectives differ by
  less than a rounding of the program, it may pick the other fit.
-/
import WaitGc.Fit.Choose
import WaitGc.Lib.Best
import WaitGc.Proof.Samples
import WaitGc.Theorems.ReducedFit
import Mathlib.Tactic.Linarith

namespace WaitGc

open Outcome Best

variable {log : ℚ → ℚ} {rows : List Row} {blocks : List Block} {fits : List Fit} {columns : List String}
  {csv : List CsvRow} {prebins maxSteps sampleCount : ℕ} {penalty : Option ℚ} {totalWeight : ℚ}

/-! ## The scan -/

/-- The smaller objective, and of two equal ones the fewer steps. -/
def Preferred (value : Fit → ℚ) (a b : Fit) : Prop :=
  value a < value b ∨ value a = value b ∧ a.steps < b.steps

theorem preferred_ranks (value : Fit → ℚ) (hsorted : fits.Pairwise fun f f' => f.steps < f'.steps) :
    Ranks (Preferred value) {f | f ∈ fits} where
  trans a b c hab hbc := by
    rcases hab with hab | ⟨hab, hab'⟩
    · rcases hbc with hbc | ⟨hbc, -⟩
      · exact .inl (hab.trans hbc)
      · exact .inl (hbc ▸ hab)
    · rcases hbc with hbc | ⟨hbc, hbc'⟩
      · exact .inl (hab ▸ hbc)
      · exact .inr ⟨hab.trans hbc, hab'.trans hbc'⟩
  irrefl a h := by
    rcases h with h | ⟨-, h⟩
    · exact lt_irrefl _ h
    · exact lt_irrefl _ h
  total a ha b hb hne := by
    have hsteps : a.steps ≠ b.steps := by
      obtain ⟨i, hi, rfl⟩ := List.getElem_of_mem ha
      obtain ⟨j, hj, rfl⟩ := List.getElem_of_mem hb
      rcases Nat.lt_trichotomy i j with hij | rfl | hij
      · exact (List.pairwise_iff_getElem.1 hsorted i j hi hj hij).ne
      · exact absurd rfl hne
      · exact (List.pairwise_iff_getElem.1 hsorted j i hj hi hij).ne'
    rcases lt_trichotomy (value a) (value b) with h | h | h
    · exact .inl (.inl h)
    · rcases Nat.lt_or_gt_of_ne hsteps with hlt | hlt
      · exact .inl (.inr ⟨h, hlt⟩)
      · exact .inr (.inr ⟨h.symm, hlt⟩)
    · exact .inr (.inl h)

open Classical in
/-- The loop keeps the preferred fit of those it has seen. -/
theorem chooseStep_scan {value : Fit → Option ℚ} {v : Fit → ℚ} {l : List Fit}
    (hv : ∀ fit ∈ l, value fit = some (v fit)) (hsorted : l.Pairwise fun f f' => f.steps < f'.steps) :
    ∃ best, l.foldl (chooseStep value) none = best.map (fun fit => (fit, v fit)) ∧
      IsBest (Preferred v) {f | f ∈ l} best := by
  induction l using List.reverseRecOn with
  | nil => exact ⟨none, rfl, by simp [IsBest]⟩
  | append_singleton l a ih =>
    obtain ⟨hsl, -, hlt⟩ := List.pairwise_append.1 hsorted
    obtain ⟨best, hfold, hbest⟩ := ih (fun fit hfit => hv fit (List.mem_append_left _ hfit)) hsl
    have hset : {f | f ∈ l ++ [a]} = insert a {f | f ∈ l} := by
      ext f
      simp [or_comm]
    refine ⟨some (better (Preferred v) best a), ?_, ?_⟩
    · have hva := hv a (by simp)
      rw [List.foldl_append, hfold, List.foldl_cons, List.foldl_nil]
      cases best with
      | none => simp only [chooseStep, hva, Option.map_none, Option.map_some, better]
      | some b =>
        -- `a` has more steps than `b`, so it is preferred exactly if its objective is smaller
        have hsteps : b.steps < a.steps := hlt b hbest.1 a (List.mem_singleton_self a)
        have hiff : Preferred v a b ↔ v a < v b := by
          refine ⟨fun h => h.resolve_right fun hc => ?_, .inl⟩
          exact absurd hc.2 hsteps.not_gt
        simp only [chooseStep, hva, Option.map_some, better, hiff]
        split_ifs <;> rfl
    · rw [hset]
      refine hbest.visit ?_
      rw [← hset]
      exact preferred_ranks v hsorted

/-- What `choose_fit` picks of some fits. -/
theorem chooseFit_best {v : Fit → ℚ} (hne : fits ≠ [])
    (hv : ∀ fit ∈ fits, fitObjective log totalWeight sampleCount penalty fit = some (v fit))
    (hsorted : fits.Pairwise fun f f' => f.steps < f'.steps) :
    ∃ fit, chooseFit log fits totalWeight sampleCount penalty = some fit ∧
      IsBest (Preferred v) {f | f ∈ fits} (some fit) := by
  have hsort : fits.mergeSort (fun f f' => f.steps ≤ f'.steps) = fits := by
    refine List.mergeSort_of_pairwise (hsorted.imp fun h => ?_)
    exact decide_eq_true h.le
  obtain ⟨best, hfold, hbest⟩ := chooseStep_scan hv hsorted
  rw [chooseFit, hsort, hfold]
  cases best with
  | none =>
    obtain ⟨fit, l, rfl⟩ := List.exists_cons_of_ne_nil hne
    exact absurd (List.mem_cons_self) (Set.eq_empty_iff_forall_notMem.1 hbest fit)
  | some fit => exact ⟨fit, rfl, hbest⟩

/-! ## The choice -/

/-- `math.log` does not decrease. -/
def LogMono (log : ℚ → ℚ) : Prop := ∀ x y, 0 < x → x ≤ y → log x ≤ log y

theorem objective_mono (hlog : LogMono log) (penalty : Option ℚ) (steps : ℕ) {mse mse' : ℚ}
    (h0 : 0 ≤ mse) (hle : mse ≤ mse') :
    objective log sampleCount penalty steps mse ≤ objective log sampleCount penalty steps mse' := by
  cases penalty with
  | some penalty => exact add_le_add_left hle _
  | none =>
    have hpos : 0 < mse + 1 / 10 ^ 12 := by positivity
    exact add_le_add_left (mul_le_mul_of_nonneg_left (hlog _ _ hpos (add_le_add_left hle _))
      (Nat.cast_nonneg _)) _

/-- The objective of a partition of the blocks. -/
def partitionObjective (log : ℚ → ℚ) (totalWeight : ℚ) (sampleCount : ℕ) (penalty : Option ℚ)
    (parts : List (List Block)) : ℚ :=
  objective log sampleCount penalty parts.length (totalSse parts / totalWeight)

/-- The fit is the best of all coarsenings of the blocks to at most `maxSteps` groups, and the
    one with the fewest groups of those. -/
structure BestChoice (value : List (List Block) → ℚ) (blocks : List Block) (maxSteps : ℕ) (fit : Fit) :
    Prop where
  steps_pos : 1 ≤ fit.steps
  steps_le : fit.steps ≤ maxSteps
  best : ∃ parts, IsPartition blocks fit.steps parts ∧ List.Forall₂ GroupOf parts fit.groups ∧
    ∀ k other, 1 ≤ k → k ≤ maxSteps → IsPartition blocks k other →
      value parts < value other ∨ value parts = value other ∧ fit.steps ≤ k

theorem totalSse_nonneg (parts : List (List Block)) : 0 ≤ totalSse parts := by
  refine List.sum_nonneg fun x hx => ?_
  obtain ⟨g, -, rfl⟩ := List.mem_map.1 hx
  exact le_max_left _ _

theorem optimalFits_steps {ks : List ℕ} (h : List.Forall₂ (OptimalFit blocks) ks fits) :
    fits.map (·.steps) = ks := by
  induction h with
  | nil => rfl
  | cons hfit _ ih => rw [List.map_cons, ih, hfit.steps_eq]

theorem optimalFits_sorted {first n : ℕ}
    (h : List.Forall₂ (OptimalFit blocks) (List.range' first n) fits) :
    fits.Pairwise fun f f' => f.steps < f'.steps := by
  rw [← List.pairwise_map (f := Fit.steps) (R := (· < ·)), optimalFits_steps h]
  exact List.pairwise_lt_range'

theorem optimalFits_value {ks : List ℕ} (h : List.Forall₂ (OptimalFit blocks) ks fits) (fit : Fit)
    (hfit : fit ∈ fits) : fitObjective log totalWeight sampleCount penalty fit =
      some (objective log sampleCount penalty fit.steps ((fit.groups.map Block.sse).sum / totalWeight)) := by
  induction h with
  | nil => cases hfit
  | cons hof _ ih =>
    rcases List.mem_cons.1 hfit with rfl | hfit
    · rw [fitObjective, hof.sse_eq]
      rfl
    · exact ih hfit

theorem optimalFits_mem {ks : List ℕ} (h : List.Forall₂ (OptimalFit blocks) ks fits) {fit : Fit}
    (hfit : fit ∈ fits) : OptimalFit blocks fit.steps fit := by
  induction h with
  | nil => cases hfit
  | cons hof _ ih =>
    rcases List.mem_cons.1 hfit with rfl | hfit
    · exact hof.steps_eq ▸ hof
    · exact ih hfit

theorem optimalFits_get {ks : List ℕ} (h : List.Forall₂ (OptimalFit blocks) ks fits) {k : ℕ}
    (hk : k ∈ ks) : ∃ fit ∈ fits, OptimalFit blocks k fit := by
  induction h with
  | nil => cases hk
  | cons hof _ ih =>
    rcases List.mem_cons.1 hk with rfl | hk
    · exact ⟨_, List.mem_cons_self, hof⟩
    · obtain ⟨fit, hfit, hof'⟩ := ih hk
      exact ⟨fit, List.mem_cons_of_mem _ hfit, hof'⟩

/-- A fit that is no worse than all of `reduced_fits` is no worse than any partition. -/
theorem bestChoice_of_isBest (hlog : LogMono log) (hw : 0 < totalWeight) {fit : Fit}
    (hfits : List.Forall₂ (OptimalFit blocks) (List.range' 1 (min maxSteps blocks.length)) fits)
    (hbest : IsBest (Preferred fun f =>
      objective log sampleCount penalty f.steps ((f.groups.map Block.sse).sum / totalWeight))
      {f | f ∈ fits} (some fit)) :
    BestChoice (partitionObjective log totalWeight sampleCount penalty) blocks maxSteps fit := by
  obtain ⟨hmem, hpref⟩ := hbest
  have hsteps : fit.steps ∈ List.range' 1 (min maxSteps blocks.length) := by
    rw [← optimalFits_steps hfits]
    exact List.mem_map_of_mem hmem
  have hof := optimalFits_mem hfits hmem
  rw [List.mem_range'_1] at hsteps
  obtain ⟨parts, hparts, hgroups, hsse, -⟩ := hof.best
  have herr : totalSse parts = (fit.groups.map Block.sse).sum :=
    Option.some_inj.1 (hsse.symm.trans hof.sse_eq)
  refine ⟨by omega, by omega, parts, hparts, hgroups, fun k other hk hkm hother => ?_⟩
  have hkb := hother.le_length
  obtain ⟨fit', hfit', hof'⟩ := optimalFits_get hfits (k := k) (by rw [List.mem_range'_1]; omega)
  obtain ⟨parts', -, -, hsse', hleast⟩ := hof'.best
  have herr' : totalSse parts' = (fit'.groups.map Block.sse).sum :=
    Option.some_inj.1 (hsse'.symm.trans hof'.sse_eq)
  -- the other partition is no better than the fit for its number of groups
  have hother' : objective log sampleCount penalty k ((fit'.groups.map Block.sse).sum / totalWeight) ≤
      partitionObjective log totalWeight sampleCount penalty other := by
    rw [partitionObjective, hother.length, ← herr']
    exact objective_mono hlog penalty k (div_nonneg (totalSse_nonneg _) hw.le)
      (div_le_div_of_nonneg_right (hleast other hother) hw.le)
  rw [partitionObjective, hparts.length, herr]
  by_cases hsame : fit' = fit
  · subst hsame
    rw [hof'.steps_eq]
    rcases hother'.lt_or_eq with hlt | heq
    · exact .inl hlt
    · exact .inr ⟨heq, le_rfl⟩
  · rcases hpref fit' hfit' hsame with hlt | ⟨heq, hlt⟩
    · dsimp only at hlt
      rw [hof'.steps_eq] at hlt
      exact .inl (hlt.trans_le hother')
    · dsimp only at heq
      rw [hof'.steps_eq] at heq hlt
      rcases hother'.lt_or_eq with hlt' | heq'
      · exact .inl (heq.trans_lt hlt')
      · exact .inr ⟨heq.trans heq', hlt.le⟩

/-! ## The program -/

/-- The blocks that the dynamic program gets. -/
def PavaBlocks (columns : List String) (csv : List CsvRow) (prebins : ℕ) (blocks : List Block) : Prop :=
  ∃ points sampleCount binned, loadPoints columns csv = .ok (points, sampleCount) ∧
    prebin points prebins = .ok binned ∧ pavaDecreasing binned = .ok blocks

/-- What the program computes on its way to the fits. -/
structure Stages (columns : List String) (csv : List CsvRow) (prebins maxSteps : ℕ) (rows : List Row)
    (blocks : List Block) (fits : List Fit) : Prop where
  select : ∀ log penalty, selectFit log columns csv prebins maxSteps penalty =
    .ok (chooseFit log fits (rows.map (·.weight)).sum rows.length penalty)
  pava : PavaBlocks columns csv prebins blocks
  ne_nil : blocks ≠ []
  fitted : ∃ sorted : List Row, sorted.Perm rows ∧ Fitted sorted blocks
  reduced : reducedFits blocks maxSteps = .ok fits
  optimal : List.Forall₂ (OptimalFit blocks) (List.range' 1 (min maxSteps blocks.length)) fits

theorem Fitted.weight {sorted : List Row} (h : Fitted sorted blocks) :
    (blocks.map (·.weight)).sum = (sorted.map (·.weight)).sum := by
  obtain ⟨parts, rfl, rfl, -⟩ := h
  induction parts with
  | nil => rfl
  | cons p parts ih =>
    simp only [List.map_cons, List.sum_cons, List.flatten_cons, List.map_append, List.sum_append,
      p.covers.weight]
    rw [ih]

theorem Covers.errorAt {b : Block} (h : Covers rows b) (m : ℚ) :
    b.errorAt m = (rows.map fun r => r.weight * (r.futureInvalid - m) ^ 2).sum := by
  have hsum (l : List Row) : (l.map fun r => r.weight * (r.futureInvalid - m) ^ 2).sum =
      (l.map fun r => r.futureInvalid * r.futureInvalid * r.weight).sum
        - 2 * m * (l.map fun r => r.futureInvalid * r.weight).sum + m * m * (l.map (·.weight)).sum := by
    induction l with
    | nil => simp
    | cons r l ih =>
      simp only [List.map_cons, List.sum_cons, ih]
      ring
  rw [hsum, Block.errorAt, h.weight, h.weightedY, h.weightedY2]

theorem Covers.sampled {b : Block} (h : Covers rows b) : b.Sampled := by
  have hnonneg : 0 ≤ b.errorAt b.mean := by
    rw [h.errorAt]
    refine List.sum_nonneg fun x hx => ?_
    obtain ⟨r, -, rfl⟩ := List.mem_map.1 hx
    exact mul_nonneg r.weight_pos.le (sq_nonneg _)
  rw [Block.errorAt_eq, sub_self] at hnonneg
  refine (div_le_iff₀ b.weight_pos).1 ?_
  linarith

theorem Fitted.sampled (h : Fitted rows blocks) : ∀ b ∈ blocks, b.Sampled := by
  obtain ⟨parts, rfl, -, -⟩ := h
  intro b hb
  obtain ⟨p, -, rfl⟩ := List.mem_map.1 hb
  exact p.covers.sampled

theorem exists_stages (hload : loadRows columns csv = .ok rows) (hbins : 1 ≤ prebins) (maxSteps : ℕ) :
    ∃ blocks fits, Stages columns csv prebins maxSteps rows blocks fits := by
  obtain ⟨hperm, hsorted⟩ := sortRows_spec rows
  have hpoints := groupRows_fitted hsorted
  obtain ⟨binned, hbinned, hcb⟩ := prebin_coarsens (groupRows _) hbins
  obtain ⟨blocks, hpava, hcp⟩ := pavaDecreasing_coarsens binned
  obtain ⟨fits, hfits, hopt⟩ : ∃ fits, reducedFits blocks maxSteps = .ok fits ∧
      List.Forall₂ (OptimalFit blocks) (List.range' 1 (min maxSteps blocks.length)) fits := by
    refine mapM_ok fun steps hmem => ?_
    rw [List.mem_range'_1] at hmem
    exact reducedFit_optimal (by omega) (by omega)
  have hpoints' : loadPoints columns csv =
      .ok (groupRows (rows.mergeSort fun r r' => r.age ≤ r'.age), rows.length) := by
    rw [loadPoints, hload]
    rfl
  have hne : blocks ≠ [] := by
    refine ((hpoints.coarsens hcb).coarsens hcp).ne_nil fun hnil => loadRows_ne_nil hload ?_
    rw [hnil] at hperm
    exact hperm.nil_eq.symm
  refine ⟨blocks, fits, fun log penalty => ?_, ⟨_, _, binned, hpoints', hbinned, hpava⟩, hne,
    ⟨_, hperm, (hpoints.coarsens hcb).coarsens hcp⟩, hfits, hopt⟩
  have hweight : (binned.map (·.weight)).sum = (rows.map (·.weight)).sum :=
    (hpoints.coarsens hcb).weight.trans (hperm.map _).sum_eq
  rw [selectFit, hpoints', ok_bind, ← hweight]
  change (prebin _ prebins >>= fun binned => _) = _
  rw [hbinned, ok_bind, hpava, ok_bind, hfits]
  rfl

theorem Stages.weight_pos (h : Stages columns csv prebins maxSteps rows blocks fits)
    (hload : loadRows columns csv = .ok rows) : 0 < (rows.map (·.weight)).sum := by
  obtain ⟨row, rows, rfl⟩ := List.exists_cons_of_ne_nil (loadRows_ne_nil hload)
  exact sum_weight_pos Row.weight_pos row rows

/-- What is picked, by the objectives of the fits. -/
theorem Stages.choose (h : Stages columns csv prebins maxSteps rows blocks fits)
    (hsteps : 1 ≤ maxSteps) (log : ℚ → ℚ) (penalty : Option ℚ) :
    ∃ fit, selectFit log columns csv prebins maxSteps penalty = .ok (some fit) ∧
      IsBest (Preferred fun f => objective log rows.length penalty f.steps
        ((f.groups.map Block.sse).sum / (rows.map (·.weight)).sum)) {f | f ∈ fits} (some fit) := by
  have hlen : 0 < fits.length := by
    rw [← h.optimal.length_eq, List.length_range']
    have := List.length_pos_of_ne_nil h.ne_nil
    omega
  obtain ⟨fit, hfit, hbest⟩ := chooseFit_best (List.ne_nil_of_length_pos hlen)
    (optimalFits_value h.optimal) (optimalFits_sorted h.optimal)
  exact ⟨fit, by rw [h.select, hfit], hbest⟩

/-- **The exported fit is the best coarsening.**  For every accepted sample set the program picks,
    by the BIC or with a penalty, a partition of its PAVA blocks into at most
    `--max-steps` groups whose objective no other such partition undercuts, and among
    the best ones one with the fewest groups.  The error of a partition is that of its groups
    against their means. -/
theorem chosen_fit_optimal (hlog : LogMono log) (hload : loadRows columns csv = .ok rows)
    (hbins : 1 ≤ prebins) (hsteps : 1 ≤ maxSteps) (penalty : Option ℚ) :
    ∃ blocks fit, PavaBlocks columns csv prebins blocks ∧
      (∀ k parts, IsPartition blocks k parts → totalSse parts = (parts.map groupError).sum) ∧
      selectFit log columns csv prebins maxSteps penalty = .ok (some fit) ∧
      BestChoice (partitionObjective log (rows.map (·.weight)).sum rows.length penalty)
        blocks maxSteps fit := by
  obtain ⟨blocks, fits, h⟩ := exists_stages hload hbins maxSteps
  obtain ⟨fit, hfit, hbest⟩ := h.choose hsteps log penalty
  obtain ⟨sorted, -, hfitted⟩ := h.fitted
  exact ⟨blocks, fit, h.pava, fun _ _ => totalSse_eq_error hfitted.sampled, hfit,
    bestChoice_of_isBest hlog (h.weight_pos hload) h.optimal hbest⟩

/-- Samples of three ages. -/
def threeAges : List CsvRow :=
  [⟨some 1, some (.finite 9), none⟩, ⟨some 5, some (.finite 2), none⟩, ⟨some 9, some (.finite 1), none⟩]

theorem threeAges_loads : ∃ rows, loadRows requiredColumns threeAges = .ok rows ∧
    rows.map (·.age) = [1, 5, 9] :=
  exists_ok_of_map (show (loadRows requiredColumns threeAges).map (fun rows => rows.map (·.age)) =
    .ok [1, 5, 9] by decide)

/-- Of the three ages, by the BIC; the identity stands for the logarithm. -/
theorem chosen_fit_optimal_bic : ∃ rows blocks fit, loadRows requiredColumns threeAges = .ok rows ∧
    PavaBlocks requiredColumns threeAges 256 blocks ∧
    selectFit id requiredColumns threeAges 256 7 none = .ok (some fit) ∧
    BestChoice (partitionObjective id (rows.map (·.weight)).sum rows.length none) blocks 7 fit := by
  obtain ⟨rows, hload, -⟩ := threeAges_loads
  have hlog : LogMono id := fun _ _ _ h => h
  obtain ⟨blocks, fit, hpava, -, h⟩ := chosen_fit_optimal hlog hload (by decide : 1 ≤ 256) (by decide : 1 ≤ 7) none
  exact ⟨rows, blocks, fit, hload, hpava, h⟩

/-! ## The penalty -/

theorem steps_antitone (error : Fit → ℚ) {p p' : ℚ} (hlt : p < p') {fit fit' : Fit}
    (h : error fit + p * fit.steps ≤ error fit' + p * fit'.steps)
    (h' : error fit' + p' * fit'.steps ≤ error fit + p' * fit.steps) : fit'.steps ≤ fit.steps := by
  by_contra hgt
  have hsteps : (fit.steps : ℚ) < fit'.steps := Nat.cast_lt.2 (Nat.lt_of_not_le hgt)
  have hmul : (p' - p) * fit.steps < (p' - p) * fit'.steps := mul_lt_mul_of_pos_left hsteps (sub_pos.2 hlt)
  linarith

theorem isBest_le {value : Fit → ℚ} {A : Set Fit} {fit fit' : Fit}
    (h : IsBest (Preferred value) A (some fit)) (hmem : fit' ∈ A) : value fit ≤ value fit' := by
  by_cases hsame : fit' = fit
  · rw [hsame]
  · rcases h.2 fit' hmem hsame with hlt | ⟨heq, -⟩
    · exact hlt.le
    · exact heq.le

/-- **A larger penalty gives a coarser fit**: it never selects more steps, and never a smaller
    error, of the same sample set. -/
theorem penalty_antitone (hload : loadRows columns csv = .ok rows) (hbins : 1 ≤ prebins)
    (hsteps : 1 ≤ maxSteps) {p p' : ℚ} (h0 : 0 ≤ p) (hle : p ≤ p') :
    ∃ fit fit', selectFit log columns csv prebins maxSteps (some p) = .ok (some fit) ∧
      selectFit log columns csv prebins maxSteps (some p') = .ok (some fit') ∧
      fit'.steps ≤ fit.steps ∧
      (fit.groups.map Block.sse).sum ≤ (fit'.groups.map Block.sse).sum := by
  obtain ⟨blocks, fits, h⟩ := exists_stages hload hbins maxSteps
  obtain ⟨fit, hfit, hbest⟩ := h.choose hsteps log (some p)
  obtain ⟨fit', hfit', hbest'⟩ := h.choose hsteps log (some p')
  refine ⟨fit, fit', hfit, hfit', ?_⟩
  rcases hle.lt_or_eq with hlt | rfl
  · have hw := h.weight_pos hload
    generalize (rows.map (·.weight)).sum = w at hw hbest hbest'
    let mse (f : Fit) : ℚ := (f.groups.map Block.sse).sum / w
    have hobj : mse fit + p * fit.steps ≤ mse fit' + p * fit'.steps := isBest_le hbest hbest'.1
    have hobj' : mse fit' + p' * fit'.steps ≤ mse fit + p' * fit.steps := isBest_le hbest' hbest.1
    have hfewer := steps_antitone mse hlt hobj hobj'
    have hpen : p * fit'.steps ≤ p * fit.steps := mul_le_mul_of_nonneg_left (Nat.cast_le.2 hfewer) h0
    have hmse : mse fit ≤ mse fit' := by linarith only [hobj, hpen]
    exact ⟨hfewer, (div_le_div_iff_of_pos_right hw).1 hmse⟩
  · have hsame : fit = fit' := by
      rw [hfit] at hfit'
      exact Option.some_inj.1 (Except.ok.inj hfit')
    exact hsame ▸ ⟨le_rfl, le_rfl⟩

theorem penalty_antitone_threeAges : ∃ fit fit',
    selectFit (fun _ => 0) requiredColumns threeAges 256 7 (some 0) = .ok (some fit) ∧
    selectFit (fun _ => 0) requiredColumns threeAges 256 7 (some 20) = .ok (some fit') ∧
    fit'.steps ≤ fit.steps ∧
    (fit.groups.map Block.sse).sum ≤ (fit'.groups.map Block.sse).sum := by
  obtain ⟨rows, hload, -⟩ := threeAges_loads
  exact penalty_antitone hload (by decide) (by decide) le_rfl (by decide)

end WaitGc

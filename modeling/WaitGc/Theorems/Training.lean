/-
  WAITGC verification — from a run of the module to its next build.

  The records of a run are printed, extracted, fitted, exported as a header and
  compiled in.  `training_agrees`: for every run with a record that was observed in
  time, the next build has a table, and its `isotonic_age_value` gives the age of each
  such record the value of the group that the record was fitted in.  Floats are exact
  rationals; what is printed and read back is rounded by `nine`.
-/
import WaitGc.Theorems.ChooseFit
import WaitGc.Theorems.HeaderText
import WaitGc.Theorems.IsotonicFit
import WaitGc.Theorems.SampleLog

namespace WaitGc

open Outcome Best

variable {digit : Char → Option ℕ} {recs : List IsoSample} {log : List (List Char)} {nine : ℚ → ℚ}
  {rows : List Row} {groups : List Block} {values : List ℕ} {header : IsoHeader} {m : Cpp.Macros}

/-! ## The CSV file -/

theorem csvWeight_pos : (0 : ℚ) < 1 := one_pos

/-- The sample of a row. -/
def csvSample (nine : ℚ → ℚ) (r : ℕ × ℚ) : Row := ⟨r.1, nine r.2, 1, csvWeight_pos⟩

theorem loadRow_csv (lineNo : ℕ) {r : ℕ × ℚ} (hr : 0 ≤ nine r.2) :
    loadRow lineNo ⟨some r.1, some (.finite (nine r.2)), some (some (.finite 1))⟩ = .ok (csvSample nine r) := by
  have hneg : ¬ ((r.1 : ℤ) < 0 ∨ nine r.2 < 0) := by
    rintro (h | h)
    · omega
    · exact hr.not_gt h
  simp [loadRow, csvSample, hr.not_gt]

/-- **The CSV file is accepted** as it is written. -/
theorem loadRows_csv {out : Extracted} (hne : out.rows ≠ []) (hpos : ∀ r ∈ out.rows, 0 ≤ nine r.2) :
    loadRows csvColumns (out.csv nine) = .ok (out.rows.map (csvSample nine)) := by
  have hrows (l : List (ℕ × ℚ)) (hl : ∀ r ∈ l, 0 ≤ nine r.2) (lineNo : ℕ) :
      ((l.map fun r => (⟨some r.1, some (.finite (nine r.2)), some (some (.finite 1))⟩ : CsvRow)).zipIdx
        lineNo).mapM (fun r => loadRow r.2 r.1) = .ok (l.map (csvSample nine)) := by
    induction l generalizing lineNo with
    | nil => rfl
    | cons r l ih =>
      rw [List.map_cons, List.zipIdx_cons, List.mapM_cons, loadRow_csv lineNo (hl r List.mem_cons_self),
        ok_bind, ih fun r' hr' => hl r' (List.mem_cons_of_mem r hr')]
      rfl
  have hmissing : requiredColumns.filter (· ∉ csvColumns) = [] := by decide
  have hsome : out.rows.map (csvSample nine) ≠ [] := fun hnil => hne (List.map_eq_nil_iff.1 hnil)
  rw [loadRows, hmissing]
  dsimp only
  rw [if_neg (not_not.2 rfl), Extracted.csv, hrows _ hpos, ok_bind, if_neg hsome]
  rfl

/-! ## The fit -/

variable {columns : List String} {csv : List CsvRow} {prebins maxSteps maxValue : ℕ} {blocks : List Block}
  {fits : List Fit} {epsilon : ℚ}

/-- Each fit is exported, and the lookup agrees with it. -/
theorem Stages.export (h : Stages columns csv prebins maxSteps rows blocks fits) (hsteps : maxSteps ≤ 7)
    (hages : ∀ r ∈ rows, r.age < 2 ^ 64) (heps : 0 < epsilon) (hmax : maxValue < 2 ^ 64) {fit : Fit}
    (hfit : fit ∈ fits) : ∃ groups values header,
      exportFit fit.groups epsilon maxValue = .ok (groups, values, header) ∧ Agrees rows groups values header := by
  obtain ⟨sorted, hperm, hfitted⟩ := h.fitted
  obtain ⟨fits', hfits', hall⟩ := reducedFits_coarsens blocks maxSteps
  obtain rfl : fits = fits' := Except.ok.inj (h.reduced.symm.trans hfits')
  obtain ⟨i, hi, rfl⟩ := List.mem_iff_getElem.1 hfit
  have hi' : i < (List.range' 1 (min maxSteps blocks.length)).length := hall.length_eq ▸ hi
  have hof := (List.forall₂_iff_get.1 hall).2 i hi' hi
  have hmem := List.mem_range'_1.1 (List.getElem_mem hi')
  have hlen : fits[i].groups.length = (List.range' 1 (min maxSteps blocks.length))[i] := hof.length
  refine exportFit_agrees (hfitted.coarsens hof.coarsens) hperm ?_ (by omega) hages heps hmax
  exact List.ne_nil_of_length_pos (by omega)

theorem Agrees.group (h : Agrees rows groups values header) {r : Row} (hr : r ∈ rows) :
    ∃ (j : ℕ) (group : Block), groups[j]? = some group ∧ group.ageMin ≤ r.age ∧ r.age ≤ group.ageMax ∧
      isotonicAgeValue (header.table h.accepted) r.age = (values.getD j 0, j) := by
  obtain ⟨parts, hperm, hcovers, hlookup⟩ := h.parts
  obtain ⟨part, hpart, hrpart⟩ := List.mem_flatten.1 (hperm.mem_iff.2 hr)
  obtain ⟨j, hj, rfl⟩ := List.mem_iff_getElem.1 hpart
  have hj' : j < groups.length := hcovers.length_eq ▸ hj
  have hcov := (List.forall₂_iff_get.1 hcovers).2 j hj hj'
  exact ⟨j, groups[j], List.getElem?_eq_getElem hj', hcov.ageMin_le r hrpart, hcov.le_ageMax r hrpart,
    hlookup j _ (List.getElem?_eq_getElem hj) r hrpart⟩

/-! ## The whole way -/

theorem IsoSample.row_nonneg (args : ExtractArgs) (r : IsoSample) : 0 ≤ (r.row args).2 :=
  div_nonneg (mul_nonneg (Nat.cast_nonneg _) (Nat.cast_nonneg _)) (Nat.cast_nonneg _)

/-- The next build: its macros are those of the header, which is accepted, and its lookup gives the
    age of each record the value of a group that holds it. -/
structure Deployed (recs : List IsoSample) (groups : List Block) (values : List ℕ) (m : Cpp.Macros) :
    Prop where
  accepted : (renderHeader groups values).Accepted
  compiled : Compiled (renderHeader groups values) m
  lookup : ∀ r ∈ recs, ∃ (j : ℕ) (group : Block), groups[j]? = some group ∧
    group.ageMin ≤ r.ageNs ∧ r.ageNs ≤ group.ageMax ∧
    isotonicAgeValue ((renderHeader groups values).table accepted) r.ageNs = (values.getD j 0, j)

/-- **A run trains the next build.**  For every run of the device that printed a record in time, the
    kernel log is extracted, the CSV file is accepted, a fit is selected and exported, and
    the generated header compiles to a table that agrees with the fit on each of those records. -/
theorem training_agrees {c : Cfg} {junk : ℕ → ℕ → Slot} {clock : ℕ → ℕ} {dev : Dev} {d : Device}
    {es : List Event} {args : ExtractArgs} {source : List Char} (ln : ℚ → ℚ) (penalty : Option ℚ)
    (hd : AsciiDigits digit) (hnine : ∀ q, 0 ≤ q → 0 ≤ nine q) (hhorizon : 0 < c.build.isoSampleHorizonNs)
    (hinit : convInitNamespace c junk clock = .ok dev) (hrun : (device c).run ⟨dev, none⟩ es = .ok d)
    (hrecs : recs.Perm (d.dev.isoLog c)) (hlog : LogOf recs log) (hages : ∀ r ∈ recs, r.ageNs < 2 ^ 64)
    (hsome : ∃ r ∈ recs, r.InTime args) (hbins : 1 ≤ prebins) (hsteps : 1 ≤ maxSteps)
    (hsteps' : maxSteps ≤ 7) (heps : 0 < epsilon) (hmax : maxValue < 2 ^ 64) (hsource : '/' ∉ source)
    (hm : Unset m) :
    ∃ out fit groups values m' m'', extractSamples digit args log = .ok out ∧ out.status = 0 ∧
      selectFit ln csvColumns (out.csv nine) prebins maxSteps penalty = .ok (some fit) ∧
      exportFit fit.groups epsilon maxValue = .ok (groups, values, renderHeader groups values) ∧
      Cpp.preprocess m (renderHeaderText groups values source) = some m' ∧
      Cpp.run ⟨m', []⟩ isoDefaults = some ⟨m'', []⟩ ∧
      Deployed (recs.filter (·.InTime args)) groups values m'' := by
  -- the log
  have hout : extractSamples digit args log = .ok (extractedOf args recs) :=
    extractSamples_log hd hlog (recorded_horizon_ne_zero hhorizon hinit hrun hrecs)
  obtain ⟨r, hr, hin⟩ := hsome
  have hne : (extractedOf args recs).rows ≠ [] := by
    have hmem : r ∈ recs.filter (·.InTime args) := List.mem_filter.2 ⟨hr, decide_eq_true hin⟩
    exact List.ne_nil_of_mem (List.mem_map_of_mem hmem)
  -- the CSV file
  have hpos : ∀ q ∈ (extractedOf args recs).rows, 0 ≤ nine q.2 := by
    intro q hq
    obtain ⟨r', -, rfl⟩ := List.mem_map.1 hq
    exact hnine _ (r'.row_nonneg args)
  have hload := loadRows_csv hne hpos
  have hsmall : ∀ row ∈ (extractedOf args recs).rows.map (csvSample nine), row.age < 2 ^ 64 := by
    intro row hrow
    obtain ⟨q, hq, rfl⟩ := List.mem_map.1 hrow
    obtain ⟨r', hr', rfl⟩ := List.mem_map.1 hq
    exact hages r' (List.mem_of_mem_filter hr')
  -- the fit
  obtain ⟨blocks, fits, hstages⟩ := exists_stages hload hbins maxSteps
  obtain ⟨fit, hselect, hbest⟩ := hstages.choose hsteps ln penalty
  obtain ⟨groups, values, header, hexport, hagrees⟩ := hstages.export hsteps' hsmall heps hmax hbest.1
  obtain rfl := hagrees.rendered
  -- the header
  obtain ⟨m', hrunHeader, -, hm'⟩ := run_header (renderHeader groups values) hm
  obtain ⟨m'', hdefaults, hcompleted, -⟩ := run_isoDefaults hm hm'
  refine ⟨_, fit, groups, values, m', m'', hout, (extractedOf_status recs).2 ⟨r, hr, hin⟩, hselect, hexport, ?_,
    hdefaults, hagrees.accepted, hcompleted.compiled, ?_⟩
  · simp [Cpp.preprocess, renderHeaderText_parse hsource, hrunHeader]
  · intro r' hr'
    have hrow : csvSample nine (r'.row args) ∈ (extractedOf args recs).rows.map (csvSample nine) :=
      List.mem_map_of_mem (List.mem_map_of_mem hr')
    exact hagrees.group hrow

/-- Two of three records are in time, and train the next build. -/
theorem training_agrees_sampledRun : ∃ dev d out fit groups values m' m'',
    convInitNamespace sampledCfg (fun _ _ => .null) (fun _ => 0) = .ok dev ∧
      (device sampledCfg).run ⟨dev, none⟩ sampledRun = .ok d ∧
      ((d.dev.isoLog sampledCfg).filter (·.InTime sampledArgs)).length = 2 ∧
      extractSamples asciiDigit sampledArgs ((d.dev.isoLog sampledCfg).map IsoSample.printed) = .ok out ∧
      selectFit (fun _ => 0) csvColumns (out.csv id) 256 7 (some 0) = .ok (some fit) ∧
      exportFit fit.groups 1 64 = .ok (groups, values, renderHeader groups values) ∧
      Cpp.preprocess (fun _ => none) (renderHeaderText groups values []) = some m' ∧
      Cpp.run ⟨m', []⟩ isoDefaults = some ⟨m'', []⟩ ∧
      Deployed ((d.dev.isoLog sampledCfg).filter (·.InTime sampledArgs)) groups values m'' := by
  have hcond : (convInitNamespace sampledCfg (fun _ _ => .null) (fun _ => 0) >>= fun dev =>
      ((device sampledCfg).run ⟨dev, none⟩ sampledRun).map fun d =>
        (decide (∀ r ∈ d.dev.isoLog sampledCfg, r.ageNs < 2 ^ 64),
          ((d.dev.isoLog sampledCfg).filter (·.InTime sampledArgs)).length)) = .ok (true, 2) := by
    decide +kernel
  obtain ⟨dev, hinit, hcond⟩ := bind_eq_ok hcond
  obtain ⟨d, hrun, hcond⟩ := exists_ok_of_map hcond
  obtain ⟨hages, htime⟩ := Prod.mk.inj hcond
  have hsome : ∃ r ∈ d.dev.isoLog sampledCfg, r.InTime sampledArgs := by
    obtain ⟨r, hr⟩ := List.exists_mem_of_length_pos (htime ▸ Nat.two_pos)
    obtain ⟨hr, hin⟩ := List.mem_filter.1 hr
    exact ⟨r, hr, of_decide_eq_true hin⟩
  have hd : AsciiDigits asciiDigit := fun _ _ => rfl
  obtain ⟨out, fit, groups, values, m', m'', hout, -, hfit, hexport, hread, hdefaults, hdeployed⟩ :=
    training_agrees (fun _ => 0) (some 0) hd (fun _ h => h : ∀ q : ℚ, 0 ≤ q → 0 ≤ id q)
      (by decide : 0 < sampledCfg.build.isoSampleHorizonNs) hinit hrun (.refl _) (logOf_printed _)
      (of_decide_eq_true hages) hsome (by decide : 1 ≤ 256) (by decide : 1 ≤ 7) le_rfl
      (by decide : (0 : ℚ) < 1) (by decide : 64 < 2 ^ 64) (by decide : '/' ∉ []) ⟨rfl, fun _ _ => rfl⟩
  exact ⟨dev, d, out, fit, groups, values, m', m'', hinit, hrun, htime, hout, hfit, hexport, hread, hdefaults,
    hdeployed⟩

end WaitGc

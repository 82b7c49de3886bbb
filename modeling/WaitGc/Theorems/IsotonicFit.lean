/-
  WAITGC verification — the fitted header and the lookup of the kernel.

  `isotonic_fit_agrees`: for every accepted sample set and every fit that
  `choose_fit` may pick, the program exports a header that `conv_ftl.h` accepts, and
  `isotonic_age_value` gives every training age the value and the level of the
  exported group that holds its samples.

  The boundary above a group is the least age of the next one, so an age passes
  exactly the boundaries of the groups before its own.
-/
import WaitGc.Fit.Header
import WaitGc.Ftl.Victim
import WaitGc.Proof.Samples

namespace WaitGc

open Outcome

variable {rows : List Row} {groups : List Block} {values : List ℕ} {parts : List Part} {maxValue : ℕ}

/-! ## Boundaries -/

/-- The exported groups, with their samples, and their scores. -/
structure Exported (maxValue : ℕ) (parts : List Part) (values : List ℕ) : Prop where
  before : parts.Pairwise Part.Before
  scores : Scores maxValue parts.length values

/-- The header of some groups. -/
def headerOf (parts : List Part) (values : List ℕ) : IsoHeader :=
  renderHeader (parts.map (·.block)) values

theorem headerOf_stepCount : (headerOf parts values).stepCount = parts.length := List.length_map _

theorem headerOf_boundary {i : ℕ} (h : i + 1 < parts.length) :
    (headerOf parts values).boundary i = parts[i + 1].block.ageMin := by
  have hget : (parts.map (·.block)).tail[i]? = some parts[i + 1].block := by
    rw [List.getElem?_tail, List.getElem?_map, List.getElem?_eq_getElem h]
    rfl
  rw [IsoHeader.boundary, headerOf, renderHeader, List.getD_eq_getElem?_getD, List.getElem?_map, hget]
  rfl

theorem headerOf_value {i : ℕ} (h : i < values.length) :
    (headerOf parts values).value i = values[i] := by
  rw [IsoHeader.value, headerOf, renderHeader, List.getD_eq_getElem?_getD, List.getElem?_eq_getElem h]
  rfl

theorem Exported.lt_ageMin (h : Exported maxValue parts values) {i j : ℕ} (hij : i < j)
    (hj : j < parts.length) {r : Row} (hr : r ∈ parts[i].rows) : r.age < parts[j].block.ageMin := by
  obtain ⟨r', hr', hmin⟩ := parts[j].covers.ageMin_mem
  rw [← hmin]
  exact List.pairwise_iff_getElem.1 h.before i j (hij.trans hj) hj hij r hr r' hr'

theorem Exported.ageMin_lt (h : Exported maxValue parts values) {i j : ℕ} (hij : i < j)
    (hj : j < parts.length) : parts[i].block.ageMin < parts[j].block.ageMin := by
  obtain ⟨r, hr, hmin⟩ := parts[i].covers.ageMin_mem
  exact hmin ▸ h.lt_ageMin hij hj hr

theorem Exported.lt_boundary_iff (h : Exported maxValue parts values) {i j : ℕ} (hi : i + 1 < parts.length)
    (hj : j < parts.length) {r : Row} (hr : r ∈ parts[j].rows) :
    r.age < (headerOf parts values).boundary i ↔ j ≤ i := by
  rw [headerOf_boundary hi]
  constructor
  · intro hlt
    by_contra hle
    have hmin : parts[i + 1].block.ageMin ≤ r.age := by
      rcases Nat.lt_or_eq_of_le (Nat.lt_of_not_le hle : i + 1 ≤ j) with hlt' | rfl
      · exact (h.ageMin_lt hlt' hj).le.trans (parts[j].covers.ageMin_le r hr)
      · exact parts[i + 1].covers.ageMin_le r hr
    exact hmin.not_gt hlt
  · intro hle
    exact h.lt_ageMin (Nat.lt_succ_of_le hle) hi hr

/-! ## The checks of `conv_ftl.h` -/

theorem Exported.accepted (h : Exported maxValue parts values) (hne : parts ≠ [])
    (hlen : parts.length ≤ 7) (hages : ∀ p ∈ parts, ∀ r ∈ p.rows, r.age < 2 ^ 64)
    (hmax : maxValue < 2 ^ 64) : (headerOf parts values).Accepted := by
  have hpos : 0 < parts.length := List.length_pos_of_ne_nil hne
  have hvlen := h.scores.length
  constructor
  · intro n hn
    rcases List.mem_append.1 hn with hn | hn
    · obtain ⟨b, hb, rfl⟩ := List.mem_map.1 hn
      obtain ⟨p, hp, rfl⟩ := List.mem_map.1 (List.mem_of_mem_tail hb)
      obtain ⟨r, hr, hmin⟩ := p.covers.ageMin_mem
      exact hmin ▸ hages p hp r hr
    · exact (h.scores.le n hn).trans_lt (max_lt (by norm_num) hmax)
  · rwa [headerOf_stepCount]
  · rwa [headerOf_stepCount]
  · rw [headerOf_value (by omega)]
    have hhead := h.scores.head
    rw [List.head?_eq_getElem?, List.getElem?_eq_getElem (by omega)] at hhead
    exact Option.some.inj hhead
  · intro htwo
    rw [headerOf_stepCount] at htwo
    rw [headerOf_boundary htwo]
    exact (Nat.zero_le _).trans_lt (h.ageMin_lt Nat.zero_lt_one htwo)
  · intro i hi
    rw [headerOf_stepCount] at hi
    rw [headerOf_boundary (by omega), headerOf_boundary hi]
    exact h.ageMin_lt (Nat.lt_succ_self _) hi
  · intro i hi
    rw [headerOf_stepCount] at hi
    rw [headerOf_value (by omega), headerOf_value (by omega)]
    exact List.pairwise_iff_getElem.1 h.scores.sorted i (i + 1) (by omega) (by omega) (Nat.lt_succ_self i)

/-! ## The lookup -/

/-- **`isotonic_age_value`** on an age of the group `j`. -/
theorem Exported.lookup (h : Exported maxValue parts values) (ha : (headerOf parts values).Accepted)
    {j : ℕ} (hj : j < parts.length) {r : Row} (hr : r ∈ parts[j].rows) :
    isotonicAgeValue ((headerOf parts values).table ha) r.age = (values.getD j 0, j) := by
  have hlevel : ((List.range (parts.length - 1)).find? fun i =>
      r.age < (headerOf parts values).boundary i).getD (parts.length - 1) = j := by
    rcases Nat.lt_or_ge (j + 1) parts.length with hlt | hge
    · have hfind : (List.range (parts.length - 1)).find? (fun i =>
          decide (r.age < (headerOf parts values).boundary i)) = some j := by
        rw [List.find?_range_eq_some]
        refine ⟨decide_eq_true ((h.lt_boundary_iff hlt hj hr).2 le_rfl), List.mem_range.2 (by omega), ?_⟩
        intro i hi
        have hnot := mt (h.lt_boundary_iff (i := i) (by omega) hj hr).1 (Nat.not_le_of_lt hi)
        simpa using hnot
      rw [hfind]
      rfl
    · -- the last group
      have hfind : (List.range (parts.length - 1)).find? (fun i =>
          decide (r.age < (headerOf parts values).boundary i)) = none := by
        rw [List.find?_range_eq_none]
        intro i hi
        have hnot := mt (h.lt_boundary_iff (i := i) (by omega) hj hr).1 (by omega)
        simpa using hnot
      rw [hfind, Option.getD_none]
      omega
  have hvalue : (headerOf parts values).value j = values.getD j 0 := by
    have hlen := h.scores.length
    rw [headerOf_value (by omega), List.getD_eq_getElem?_getD, List.getElem?_eq_getElem (by omega)]
    rfl
  unfold isotonicAgeValue
  simp only [IsoHeader.table, headerOf_stepCount, hlevel, hvalue]

/-! ## The theorem -/

/-- The exported groups are those of parts of the samples, the header is accepted, and
    the lookup of every sample finds its group. -/
structure Agrees (rows : List Row) (groups : List Block) (values : List ℕ) (header : IsoHeader) :
    Prop where
  rendered : header = renderHeader groups values
  accepted : header.Accepted
  parts : ∃ parts : List (List Row), parts.flatten.Perm rows ∧ List.Forall₂ Covers parts groups ∧
    ∀ j part, parts[j]? = some part → ∀ r ∈ part,
      isotonicAgeValue (header.table accepted) r.age = (values.getD j 0, j)

/-- A fit that was coarsened from the blocks of the samples is exported. -/
theorem exportFit_agrees {epsilon : ℚ} {sorted : List Row}
    (hfit : Fitted sorted groups) (hperm : sorted.Perm rows) (hne : groups ≠ [])
    (hlen : groups.length ≤ 7) (hages : ∀ r ∈ rows, r.age < 2 ^ 64) (heps : 0 < epsilon)
    (hmax : maxValue < 2 ^ 64) :
    ∃ groups' values header, exportFit groups epsilon maxValue = .ok (groups', values, header) ∧
      Agrees rows groups' values header := by
  obtain ⟨values, hvalues, hscores⟩ := scoresFromFutureGain_spec maxValue hne heps
  obtain ⟨groups', values', hmerge, hc, hscores'⟩ := mergeEqualScoreSteps_spec hscores
  obtain ⟨parts, rfl, hrows, hbefore⟩ := hfit.coarsens hc
  rw [List.length_map] at hscores'
  have hexp : Exported maxValue parts values' := ⟨hbefore, hscores'⟩
  have hlen' : parts.length ≤ 7 := by
    have := hc.length_le
    rw [List.length_map] at this
    exact this.trans hlen
  have hparts : parts ≠ [] := fun hnil => hc.ne_nil hne (by rw [hnil]; rfl)
  have hmem : ∀ p ∈ parts, ∀ r ∈ p.rows, r.age < 2 ^ 64 := by
    intro p hp r hr
    refine hages r (hperm.subset (hrows ▸ ?_))
    exact List.mem_flatten_of_mem (List.mem_map_of_mem hp) hr
  have hacc := hexp.accepted hparts hlen' hmem hmax
  refine ⟨_, values', headerOf parts values', ?_, rfl, hacc, parts.map (·.rows), hrows ▸ hperm, ?_, ?_⟩
  · rw [exportFit, hvalues, ok_bind, hmerge]
    rfl
  · rw [List.forall₂_map_left_iff, List.forall₂_map_right_iff, List.forall₂_same]
    exact fun p _ => p.covers
  · intro j part hj r hr
    rw [List.getElem?_map, Option.map_eq_some_iff] at hj
    obtain ⟨p, hp, rfl⟩ := hj
    obtain ⟨hlt, rfl⟩ := List.getElem?_eq_some_iff.1 hp
    exact hexp.lookup hacc hlt hr

/-- **The fitted header and the lookup agree.** -/
theorem isotonic_fit_agrees (columns : List String) (csv : List CsvRow) (prebins maxSteps maxValue : ℕ)
    (epsilon : ℚ) (hload : loadRows columns csv = .ok rows) (hages : ∀ r ∈ rows, r.age < 2 ^ 64)
    (hbins : 1 ≤ prebins) (hsteps : 1 ≤ maxSteps) (hsteps' : maxSteps ≤ 7) (heps : 0 < epsilon)
    (hmax : maxValue < 2 ^ 64) :
    ∃ fits, isotonicFits columns csv prebins maxSteps = .ok fits ∧ fits ≠ [] ∧
      ∀ fit ∈ fits, ∃ groups values header,
        exportFit fit.groups epsilon maxValue = .ok (groups, values, header) ∧
          Agrees rows groups values header := by
  obtain ⟨hperm, hsorted⟩ := sortRows_spec rows
  have hpoints := groupRows_fitted hsorted
  obtain ⟨binned, hbinned, hcb⟩ := prebin_coarsens (groupRows _) hbins
  obtain ⟨pava, hpava, hcp⟩ := pavaDecreasing_coarsens binned
  obtain ⟨fits, hfits, hall⟩ := reducedFits_coarsens pava maxSteps
  have hpavaFit := (hpoints.coarsens hcb).coarsens hcp
  have hne : pava ≠ [] := by
    refine hpavaFit.ne_nil fun hnil => loadRows_ne_nil hload ?_
    rw [hnil] at hperm
    exact hperm.nil_eq.symm
  have hpos : 0 < pava.length := List.length_pos_of_ne_nil hne
  refine ⟨fits, ?_, ?_, fun fit hfit => ?_⟩
  · rw [isotonicFits, loadPoints, hload]
    change (prebin _ prebins >>= fun binned => _) = _
    rw [hbinned, ok_bind, hpava, ok_bind, hfits]
  · intro hnil
    have hlen := hall.length_eq
    rw [hnil, List.length_range', List.length_nil] at hlen
    omega
  · obtain ⟨steps, hmem, hof⟩ : ∃ steps ∈ List.range' 1 (min maxSteps pava.length), FitOf pava steps fit := by
      obtain ⟨i, hi, rfl⟩ := List.mem_iff_getElem.1 hfit
      have hi' := hi
      rw [← hall.length_eq] at hi'
      exact ⟨_, List.getElem_mem hi', List.forall₂_iff_get.1 hall |>.2 i hi' hi⟩
    rw [List.mem_range'_1] at hmem
    have hlen := hof.length
    refine exportFit_agrees (hpavaFit.coarsens hof.coarsens) hperm ?_ (by omega) hages heps hmax
    exact List.ne_nil_of_length_pos (by omega)

/-- Five samples of four ages. -/
def fiveSamples : List CsvRow :=
  [⟨some 5, some (.finite 3), none⟩, ⟨some 1, some (.finite 9), none⟩, ⟨some 5, some (.finite 1), none⟩,
    ⟨some 9, some (.finite 4), none⟩, ⟨some 20, some (.finite 0), some (some (.finite 2))⟩]

theorem isotonic_fit_agrees_five : ∃ rows fits,
    loadRows requiredColumns fiveSamples = .ok rows ∧ rows.map (·.age) = [5, 1, 5, 9, 20] ∧
      isotonicFits requiredColumns fiveSamples 256 7 = .ok fits ∧ fits ≠ [] ∧
      ∀ fit ∈ fits, ∃ groups values header, exportFit fit.groups 1 64 = .ok (groups, values, header) ∧
        Agrees rows groups values header := by
  obtain ⟨rows, hload, hages⟩ := exists_ok_of_map (f := fun rows : List Row => rows.map (·.age))
    (show (loadRows requiredColumns fiveSamples).map (fun rows => rows.map (·.age)) =
      .ok [5, 1, 5, 9, 20] by decide +kernel)
  have hsmall : ∀ r ∈ rows, r.age < 2 ^ 64 := by
    intro r hr
    have hmem : r.age ∈ [5, 1, 5, 9, 20] := hages ▸ List.mem_map_of_mem hr
    exact (List.forall_mem_cons.2 (by decide) : ∀ n ∈ [5, 1, 5, 9, 20], n < 2 ^ 64) _ hmem
  obtain ⟨fits, hfits, hne, hall⟩ := isotonic_fit_agrees requiredColumns fiveSamples 256 7 64 1 hload
    hsmall (by norm_num) (by norm_num) le_rfl one_pos (by norm_num)
  exact ⟨rows, fits, hload, hages, hfits, hne, hall⟩

end WaitGc

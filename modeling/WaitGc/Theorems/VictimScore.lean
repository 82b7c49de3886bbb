/-
  WAITGC verification — the score of a victim line.

  `cost_benefit_score_exact`: the 64-bit function computes `AgeValue * IPC / (VPC + 1)`
  rounded down, or the largest 64-bit value if that is too large, and none of
  its operations wraps.  `victim_ranking_monotone`: an older line with more
  invalid and fewer valid pages never has a smaller score, under every age
  profile and every isotonic table.
-/
import WaitGc.Ftl.Victim

namespace WaitGc

/-! ## The function on machine integers -/

/-- `~0ULL` -/
def MAX_U64 : BitVec 64 := ~~~0

/-- `(uint64_t)ln->vpc + 1` -/
def scoreDivisor (vpc : BitVec 32) : BitVec 64 := vpc.signExtend 64 + 1

/-- `tail`: what the remainder of the age value adds. -/
def scoreTail (ipc divisor remainder : BitVec 64) : BitVec 64 :=
  if MAX_U64 / ipc < remainder then MAX_U64 / divisor else remainder * ipc / divisor

/-- `cost_benefit_score`, of a line with the fields `ipc` and `vpc`. -/
def costBenefitScore64 (ipc vpc : BitVec 32) (ageValue : BitVec 64) : BitVec 64 :=
  let ipc := ipc.signExtend 64
  let divisor := scoreDivisor vpc
  if ageValue = 0 ∨ ipc = 0 then 0
  else
    let quotient := ageValue / divisor
    let remainder := ageValue % divisor
    if MAX_U64 / ipc < quotient then MAX_U64
    else
      let score := quotient * ipc
      let tail := scoreTail ipc divisor remainder
      if MAX_U64 - tail < score then MAX_U64 else score + tail

/-- None of the sums and products that `cost_benefit_score` computes wraps. -/
structure ScoreFits (ipc vpc : BitVec 32) (ageValue : BitVec 64) : Prop where
  divisor : (vpc.signExtend 64).toNat + 1 < 2 ^ 64
  product : ageValue ≠ 0 → ipc.signExtend 64 ≠ 0 →
    ageValue / scoreDivisor vpc ≤ MAX_U64 / ipc.signExtend 64 →
    (ageValue / scoreDivisor vpc).toNat * (ipc.signExtend 64).toNat < 2 ^ 64
  tail : ageValue % scoreDivisor vpc ≤ MAX_U64 / ipc.signExtend 64 →
    (ageValue % scoreDivisor vpc).toNat * (ipc.signExtend 64).toNat < 2 ^ 64
  sum : ageValue ≠ 0 → ipc.signExtend 64 ≠ 0 →
    ageValue / scoreDivisor vpc ≤ MAX_U64 / ipc.signExtend 64 →
    let score := ageValue / scoreDivisor vpc * ipc.signExtend 64
    let tail := scoreTail (ipc.signExtend 64) (scoreDivisor vpc) (ageValue % scoreDivisor vpc)
    score ≤ MAX_U64 - tail → score.toNat + tail.toNat < 2 ^ 64

/-! ## The arithmetic -/

section Arithmetic

variable {a n d : ℕ}

theorem mul_div_split (hd : 0 < d) : a * n / d = a / d * n + a % d * n / d := by
  have hsplit : a * n = a % d * n + d * (a / d * n) := by
    calc a * n = (d * (a / d) + a % d) * n := by rw [Nat.div_add_mod]
      _ = a % d * n + d * (a / d * n) := by ring
  rw [hsplit, Nat.add_mul_div_left _ _ hd, Nat.add_comm]

/-- The remainder never reaches the guard: both factors are below 2^31. -/
theorem remainder_mul_lt (hn : n < 2 ^ 31) (hd : d ≤ 2 ^ 31) (hd' : 0 < d) : a % d * n < 2 ^ 62 := by
  have hmod := Nat.mod_lt a hd'
  calc a % d * n < 2 ^ 31 * 2 ^ 31 := Nat.mul_lt_mul'' (by omega) hn
    _ = 2 ^ 62 := rfl

/-- The score in natural numbers. -/
theorem score_min (hd : 0 < d) (hn : 0 < n) (htail : a % d * n / d ≤ 2 ^ 64 - 1) :
    min (2 ^ 64 - 1) (a * n / d) =
      if (2 ^ 64 - 1) / n < a / d then 2 ^ 64 - 1
      else if 2 ^ 64 - 1 - a % d * n / d < a / d * n then 2 ^ 64 - 1
      else a / d * n + a % d * n / d := by
  have hguard := Nat.div_lt_iff_lt_mul (x := 2 ^ 64 - 1) (y := a / d) hn
  rw [mul_div_split hd]
  generalize a % d * n / d = tail at htail ⊢
  generalize a / d * n = score at hguard ⊢
  split_ifs with hquot hsum
  · exact min_eq_left (by omega)
  · exact min_eq_left (by omega)
  · exact min_eq_right (by omega)

end Arithmetic

/-! ## The machine computes it -/

section Machine

variable {ipc vpc : BitVec 32} {ageValue : BitVec 64}

theorem MAX_U64_toNat : MAX_U64.toNat = 2 ^ 64 - 1 := rfl

theorem signExtend_count {x : BitVec 32} (hx : x.toNat ≤ 2 ^ 31 - 1) : (x.signExtend 64).toNat = x.toNat := by
  have hmsb : x.msb = false := by
    rw [BitVec.msb_eq_false_iff_two_mul_lt]
    omega
  rw [BitVec.signExtend_eq_setWidth_of_msb_false hmsb, BitVec.toNat_setWidth]
  exact Nat.mod_eq_of_lt (by omega)

theorem scoreDivisor_toNat (hvpc : vpc.toNat ≤ 2 ^ 31 - 1) : (scoreDivisor vpc).toNat = vpc.toNat + 1 := by
  rw [scoreDivisor, BitVec.toNat_add, signExtend_count hvpc]
  exact Nat.mod_eq_of_lt (show vpc.toNat + 1 < 2 ^ 64 by omega)

/-- What the code computes before it adds, in natural numbers. -/
structure ScoreParts (ipc vpc : BitVec 32) (ageValue : BitVec 64) : Prop where
  ipc_eq : (ipc.signExtend 64).toNat = ipc.toNat
  divisor : (scoreDivisor vpc).toNat = vpc.toNat + 1
  tail : (scoreTail (ipc.signExtend 64) (scoreDivisor vpc) (ageValue % scoreDivisor vpc)).toNat =
    ageValue.toNat % (vpc.toNat + 1) * ipc.toNat / (vpc.toNat + 1)
  tail_lt : ageValue.toNat % (vpc.toNat + 1) * ipc.toNat < 2 ^ 62

theorem scoreParts (hipc : ipc.toNat ≤ 2 ^ 31 - 1) (hvpc : vpc.toNat ≤ 2 ^ 31 - 1)
    (hpos : ipc.signExtend 64 ≠ 0) (ageValue : BitVec 64) : ScoreParts ipc vpc ageValue := by
  have hn := signExtend_count hipc
  have hd := scoreDivisor_toNat hvpc
  have htail : ageValue.toNat % (vpc.toNat + 1) * ipc.toNat < 2 ^ 62 :=
    remainder_mul_lt (by omega) (by omega) (Nat.succ_pos _)
  have hn0 : 0 < ipc.toNat := by
    rw [← hn]
    exact Nat.pos_of_ne_zero fun h => hpos (BitVec.eq_of_toNat_eq h)
  refine ⟨hn, hd, ?_, htail⟩
  have hle : ¬ MAX_U64 / ipc.signExtend 64 < ageValue % scoreDivisor vpc := by
    rw [BitVec.lt_def, BitVec.toNat_udiv, BitVec.toNat_umod, hn, hd, MAX_U64_toNat, Nat.div_lt_iff_lt_mul hn0]
    omega
  rw [scoreTail, if_neg hle, BitVec.toNat_udiv, BitVec.toNat_mul, BitVec.toNat_umod, hn, hd,
    Nat.mod_eq_of_lt (by omega)]

theorem ScoreParts.tail_le (h : ScoreParts ipc vpc ageValue) :
    ageValue.toNat % (vpc.toNat + 1) * ipc.toNat / (vpc.toNat + 1) < 2 ^ 62 :=
  lt_of_le_of_lt (Nat.div_le_self _ _) h.tail_lt

theorem ScoreParts.guard (h : ScoreParts ipc vpc ageValue) :
    MAX_U64 / ipc.signExtend 64 < ageValue / scoreDivisor vpc ↔
    (2 ^ 64 - 1) / ipc.toNat < ageValue.toNat / (vpc.toNat + 1) := by
  rw [BitVec.lt_def, BitVec.toNat_udiv, BitVec.toNat_udiv, h.ipc_eq, h.divisor, MAX_U64_toNat]

/-- Where the guard lets it pass, the product is that of the natural numbers. -/
theorem ScoreParts.product (h : ScoreParts ipc vpc ageValue) (hn : 0 < ipc.toNat)
    (hle : ¬ (2 ^ 64 - 1) / ipc.toNat < ageValue.toNat / (vpc.toNat + 1)) :
    (ageValue / scoreDivisor vpc).toNat * (ipc.signExtend 64).toNat < 2 ^ 64 ∧
      (ageValue / scoreDivisor vpc * ipc.signExtend 64).toNat = ageValue.toNat / (vpc.toNat + 1) * ipc.toNat := by
  rw [Nat.div_lt_iff_lt_mul hn] at hle
  rw [BitVec.toNat_mul, BitVec.toNat_udiv, h.ipc_eq, h.divisor]
  exact ⟨by omega, Nat.mod_eq_of_lt (by omega)⟩

theorem count_pos (hn : (ipc.signExtend 64).toNat = ipc.toNat) (hpos : ipc.signExtend 64 ≠ 0) : 0 < ipc.toNat := by
  rw [← hn]
  exact Nat.pos_of_ne_zero fun h => hpos (BitVec.eq_of_toNat_eq h)

theorem costBenefitScore64_toNat (hipc : ipc.toNat ≤ 2 ^ 31 - 1) (hvpc : vpc.toNat ≤ 2 ^ 31 - 1)
    (ageValue : BitVec 64) : (costBenefitScore64 ipc vpc ageValue).toNat =
      min (2 ^ 64 - 1) (ageValue.toNat * ipc.toNat / (vpc.toNat + 1)) := by
  unfold costBenefitScore64
  dsimp only
  by_cases hzero : ageValue = 0 ∨ ipc.signExtend 64 = 0
  · rw [if_pos hzero]
    have hprod : ageValue.toNat * ipc.toNat = 0 := by
      rcases hzero with rfl | h
      · exact Nat.zero_mul _
      · rw [← signExtend_count hipc, h]
        exact Nat.mul_zero _
    rw [hprod, Nat.zero_div]
    rfl
  rw [if_neg hzero]
  rw [not_or] at hzero
  have hparts := scoreParts hipc hvpc hzero.2 ageValue
  have hn := count_pos hparts.ipc_eq hzero.2
  have htail := hparts.tail_le
  have hd : 0 < vpc.toNat + 1 := Nat.succ_pos _
  rw [score_min hd hn (by omega)]
  by_cases hquot : (2 ^ 64 - 1) / ipc.toNat < ageValue.toNat / (vpc.toNat + 1)
  · rw [if_pos (hparts.guard.2 hquot), if_pos hquot, MAX_U64_toNat]
  rw [if_neg (mt hparts.guard.1 hquot), if_neg hquot]
  obtain ⟨hlt, hscore⟩ := hparts.product hn hquot
  rw [hparts.ipc_eq, BitVec.toNat_udiv, hparts.divisor] at hlt
  generalize ageValue / scoreDivisor vpc * ipc.signExtend 64 = score at hscore ⊢
  have htoNat := hparts.tail
  generalize scoreTail (ipc.signExtend 64) (scoreDivisor vpc) (ageValue % scoreDivisor vpc) = tail at htoNat ⊢
  rw [← hscore, ← htoNat]
  rw [← htoNat] at htail
  have hsub : (MAX_U64 - tail).toNat = 2 ^ 64 - 1 - tail.toNat := by
    rw [BitVec.toNat_sub, MAX_U64_toNat]
    omega
  by_cases hsum : MAX_U64 - tail < score
  · rw [if_pos hsum, if_pos (by rwa [BitVec.lt_def, hsub] at hsum), MAX_U64_toNat]
  · rw [if_neg hsum]
    rw [BitVec.lt_def, hsub] at hsum
    rw [if_neg hsum, BitVec.toNat_add]
    exact Nat.mod_eq_of_lt (by omega)

theorem scoreFits (hipc : ipc.toNat ≤ 2 ^ 31 - 1) (hvpc : vpc.toNat ≤ 2 ^ 31 - 1) (ageValue : BitVec 64) :
    ScoreFits ipc vpc ageValue := by
  constructor
  · rw [signExtend_count hvpc]
    omega
  · intro hage hpos hle
    have hparts := scoreParts hipc hvpc hpos ageValue
    exact (hparts.product (count_pos hparts.ipc_eq hpos) (mt hparts.guard.2 (BitVec.not_lt.2 hle))).1
  · intro _
    rw [BitVec.toNat_umod, signExtend_count hipc, scoreDivisor_toNat hvpc]
    have hlt : ageValue.toNat % (vpc.toNat + 1) * ipc.toNat < 2 ^ 62 :=
      remainder_mul_lt (by omega) (by omega) (Nat.succ_pos _)
    omega
  · intro hage hpos hle
    dsimp only
    intro hsum
    rw [BitVec.le_def, BitVec.toNat_sub, MAX_U64_toNat] at hsum
    generalize scoreTail (ipc.signExtend 64) (scoreDivisor vpc) (ageValue % scoreDivisor vpc) = tail at hsum ⊢
    omega

end Machine

/-- **The score is exact**, up to the largest 64-bit value, and nothing wraps. -/
theorem cost_benefit_score_exact {ipc vpc : BitVec 32} (hipc : ipc.toNat ≤ 2 ^ 31 - 1) (hvpc : vpc.toNat ≤ 2 ^ 31 - 1)
    (ageValue : BitVec 64) :
    (costBenefitScore64 ipc vpc ageValue).toNat =
      min (2 ^ 64 - 1) (ageValue.toNat * ipc.toNat / (vpc.toNat + 1)) ∧ ScoreFits ipc vpc ageValue :=
  ⟨costBenefitScore64_toNat hipc hvpc ageValue, scoreFits hipc hvpc ageValue⟩

/-- The largest age value and page counts. -/
theorem cost_benefit_score_exact_max : (costBenefitScore64 0x7fffffff 0x7fffffff (~~~0)).toNat = 2 ^ 64 - 2 ^ 33 - 1 ∧
    ScoreFits 0x7fffffff 0x7fffffff (~~~0) := by
  have hmax : (0x7fffffff : BitVec 32).toNat ≤ 2 ^ 31 - 1 := by decide
  have hscore := cost_benefit_score_exact hmax hmax (~~~0)
  exact ⟨hscore.1.trans (by decide), hscore.2⟩

/-! ## Ranking -/

theorem costBenefitScore_eq (l : Line) (ageValue : ℕ) (hipc : l.ipc ≤ 2 ^ 31 - 1) (hvpc : l.vpc ≤ 2 ^ 31 - 1) :
    costBenefitScore l ageValue = min (2 ^ 64 - 1) (ageValue * l.ipc / (l.vpc + 1)) := by
  unfold costBenefitScore
  dsimp only
  by_cases hzero : ageValue = 0 ∨ l.ipc = 0
  · rw [if_pos hzero]
    have hprod : ageValue * l.ipc = 0 := by
      rcases hzero with h | h
      · rw [h, Nat.zero_mul]
      · rw [h, Nat.mul_zero]
    rw [hprod, Nat.zero_div]
    rfl
  rw [if_neg hzero]
  rw [not_or] at hzero
  have hd : 0 < l.vpc + 1 := Nat.succ_pos _
  have hn := Nat.pos_of_ne_zero hzero.2
  have htail : ageValue % (l.vpc + 1) * l.ipc < 2 ^ 62 := remainder_mul_lt (by omega) (by omega) hd
  have hle := Nat.div_le_self (ageValue % (l.vpc + 1) * l.ipc) (l.vpc + 1)
  have hguard : ¬ (2 ^ 64 - 1) / l.ipc < ageValue % (l.vpc + 1) := by
    rw [Nat.div_lt_iff_lt_mul hn]
    omega
  rw [if_neg hguard, score_min hd hn (by omega)]

theorem findIdx_bound_mono {a a' : ℕ} (ha : a ≤ a') (steps : List (ℕ × ℕ)) :
    steps.findIdx (fun st => decide (a < st.1)) ≤ steps.findIdx fun st => decide (a' < st.1) := by
  induction steps with
  | nil => exact le_rfl
  | cons st steps ih =>
    rw [List.findIdx_cons, List.findIdx_cons]
    by_cases h : a < st.1
    · simp [h]
    · have h' : ¬ a' < st.1 := fun hlt => h (ha.trans_lt hlt)
      simpa [h, h'] using ih

/-- The level of a step table: the first step above the age, or the last. -/
theorem ageStepLookup_level {steps : List (ℕ × ℕ)} (hpos : 0 < steps.length) (ageNs : ℕ) :
    (ageStepLookup ageNs steps).2 = min (steps.findIdx fun st => decide (ageNs < st.1)) (steps.length - 1) := by
  unfold ageStepLookup
  dsimp only
  rw [List.findIdx_eq_getD_findIdx?]
  cases hfind : steps.findIdx? fun st => decide (ageNs < st.1) with
  | none =>
    rw [Option.getD_none, Option.getD_none]
    omega
  | some i =>
    have hlt := (List.findIdx?_eq_some_iff_findIdx_eq.1 hfind).1
    rw [Option.getD_some, Option.getD_some]
    omega

theorem ageStepLookup_value (ageNs : ℕ) (steps : List (ℕ × ℕ)) :
    (ageStepLookup ageNs steps).1 = (steps.getD (ageStepLookup ageNs steps).2 (0, 0)).2 := rfl

/-- The step tables: as many steps as there are levels at most, and values from 1 on that
    do not decrease. -/
theorem CbAgeProfile.steps_sorted (profile : CbAgeProfile) : profile.steps.length ≤ CONV_AGE_LEVEL_MAX ∧
    ∀ j < profile.steps.length, 1 ≤ (profile.steps.getD j (0, 0)).2 ∧
      ∀ i ≤ j, (profile.steps.getD i (0, 0)).2 ≤ (profile.steps.getD j (0, 0)).2 := by
  cases profile <;> decide

theorem find_range_mono {p q : ℕ → Bool} (h : ∀ i, q i = true → p i = true) (n : ℕ) :
    ((List.range n).find? p).getD n ≤ ((List.range n).find? q).getD n := by
  have hle : ((List.range n).find? p).getD n ≤ n := by
    cases hp : (List.range n).find? p with
    | none => exact le_rfl
    | some i => exact (List.mem_range.1 (List.mem_of_find?_eq_some hp)).le
  cases hq : (List.range n).find? q with
  | none => exact hle
  | some j =>
    have hj := h j (List.find?_some hq)
    have hmem := List.mem_of_find?_eq_some hq
    cases hp : (List.range n).find? p with
    | none => exact absurd hj (List.find?_eq_none.1 hp j hmem)
    | some i =>
      by_contra hlt
      rw [List.find?_range_eq_some] at hp
      have hnot := hp.2.2 j (not_le.1 hlt)
      rw [hj] at hnot
      cases hnot

theorem IsoTable.value_mono (t : IsoTable) {i j : ℕ} (hij : i ≤ j) (hj : j < t.stepCount) :
    t.value i ≤ t.value j := by
  induction j, hij using Nat.le_induction with
  | base => exact le_rfl
  | succ j _ ih => exact (ih (Nat.lt_of_succ_lt hj)).trans (t.value_le j hj)

/-- What the ranking needs of the ages: the value is positive, the level is one of the
    levels, and both follow the age. -/
structure AgeRanked (policy : GcPolicy) (a a' : ℕ) : Prop where
  value_le : (selectedAgeValue policy a).1 ≤ (selectedAgeValue policy a').1
  value_pos : 1 ≤ (selectedAgeValue policy a).1
  level_lt : (selectedAgeValue policy a).2 < CONV_AGE_LEVEL_MAX
  level_le : (selectedAgeValue policy a).2 ≤ (selectedAgeValue policy a').2

variable {a a' : ℕ}

theorem ageRanked_steps {profile : CbAgeProfile} (hpos : 0 < profile.steps.length) (ha : a ≤ a')
    (h : ∀ x, selectedAgeValue (.ageCb profile) x = ageStepLookup x profile.steps) :
    AgeRanked (.ageCb profile) a a' := by
  obtain ⟨hlen, hsorted⟩ := profile.steps_sorted
  have hmono := findIdx_bound_mono ha profile.steps
  have hlevel := ageStepLookup_level hpos
  have hlt (x : ℕ) : (ageStepLookup x profile.steps).2 < profile.steps.length := by
    rw [hlevel]
    omega
  have hle : (ageStepLookup a profile.steps).2 ≤ (ageStepLookup a' profile.steps).2 := by
    rw [hlevel, hlevel]
    omega
  constructor
  · rw [h, h, ageStepLookup_value, ageStepLookup_value]
    exact (hsorted _ (hlt a')).2 _ hle
  · rw [h, ageStepLookup_value]
    exact (hsorted _ (hlt a)).1
  · rw [h]
    exact (hlt a).trans_le hlen
  · rw [h, h]
    exact hle

theorem ageRanked_isotonic (t : IsoTable) (ha : a ≤ a') : AgeRanked (.isotonic t) a a' := by
  have hlt (x : ℕ) : (isotonicAgeValue t x).2 < t.stepCount := by
    have hpos := t.stepCount_pos
    unfold isotonicAgeValue
    cases hfind : (List.range (t.stepCount - 1)).find? fun i => decide (x < t.boundary i) with
    | none =>
      show t.stepCount - 1 < _
      omega
    | some i =>
      have hi := List.mem_range.1 (List.mem_of_find?_eq_some hfind)
      show i < _
      omega
  have hle : (isotonicAgeValue t a).2 ≤ (isotonicAgeValue t a').2 := by
    refine find_range_mono (fun i hi => ?_) _
    rw [decide_eq_true_eq] at hi ⊢
    exact ha.trans_lt hi
  constructor
  · exact t.value_mono hle (hlt a')
  · have hfirst := t.value_mono (Nat.zero_le _) (hlt a)
    rw [t.value_zero] at hfirst
    exact hfirst
  · exact (hlt a).trans_le t.stepCount_le
  · exact hle

/-- **Ages are ranked** under every profile and every table. -/
theorem ageRanked {policy : GcPolicy} (hpolicy : policy ≠ .greedy) (ha : a ≤ a') : AgeRanked policy a a' := by
  cases policy with
  | greedy => exact absurd rfl hpolicy
  | isotonic t => exact ageRanked_isotonic t ha
  | ageCb profile =>
    cases profile with
    | rawLinear =>
      refine ⟨?_, ?_, (by decide : 0 < CONV_AGE_LEVEL_MAX), le_rfl⟩
      · simp only [selectedAgeValue, cbAgeValue]
        split_ifs <;> omega
      · simp only [selectedAgeValue, cbAgeValue]
        split_ifs <;> omega
    | flat => exact ⟨le_rfl, le_rfl, (by decide : 0 < CONV_AGE_LEVEL_MAX), le_rfl⟩
    | _ => exact ageRanked_steps (by decide) ha fun _ => rfl

/-- **The ranking of victims is monotone**: in the age, in the invalid pages, and against
    the valid ones. -/
theorem victim_ranking_monotone {policy : GcPolicy} {l l' : Line} (hpolicy : policy ≠ .greedy) (ha : a ≤ a')
    (hipc : l.ipc ≤ l'.ipc) (hvpc : l'.vpc ≤ l.vpc) (hipc_int : l'.ipc ≤ 2 ^ 31 - 1) (hvpc_int : l.vpc ≤ 2 ^ 31 - 1) :
    AgeRanked policy a a' ∧ costBenefitScore l (selectedAgeValue policy a).1 ≤
      costBenefitScore l' (selectedAgeValue policy a').1 := by
  have hranked := ageRanked hpolicy ha
  refine ⟨hranked, ?_⟩
  rw [costBenefitScore_eq l _ (hipc.trans hipc_int) hvpc_int,
    costBenefitScore_eq l' _ hipc_int (hvpc.trans hvpc_int)]
  refine min_le_min le_rfl ?_
  calc (selectedAgeValue policy a).1 * l.ipc / (l.vpc + 1)
      ≤ (selectedAgeValue policy a').1 * l'.ipc / (l.vpc + 1) :=
        Nat.div_le_div_right (Nat.mul_le_mul hranked.value_le hipc)
    _ ≤ (selectedAgeValue policy a').1 * l'.ipc / (l'.vpc + 1) :=
        Nat.div_le_div_left (Nat.succ_le_succ hvpc) (Nat.succ_pos _)

/-- A line with the given page counts. -/
def pageCounts (ipc vpc : ℕ) : Line := ⟨0, ipc, vpc, 0, 0, false, 0, 0, 0⟩

theorem victim_ranking_monotone_cat7 :
    AgeRanked (.ageCb .cat7) 10000000000 MAX_AGE ∧ costBenefitScore (pageCounts 1 9)
        (selectedAgeValue (.ageCb .cat7) 10000000000).1 ≤
      costBenefitScore (pageCounts 5 3) (selectedAgeValue (.ageCb .cat7) MAX_AGE).1 :=
  victim_ranking_monotone (nofun) (by decide) (by decide) (by decide) (by decide) (by decide)

end WaitGc

/-
  WAITGC verification — the passes of the fit only join adjacent blocks.

  `Block.join` joins two blocks, and every pass coarsens the list it is given
  (`prebin_coarsens`, `pavaDecreasing_coarsens`, `reducedFits_coarsens`,
  `mergeEqualScoreSteps_coarsens`): none raises, drops a block or changes the
  order.  For the dynamic program this is that the parents lead back to the first
  block, for every number of steps.
-/
import WaitGc.Fit.Isotonic
import WaitGc.Lib.Coarsen

namespace WaitGc

open Outcome

variable {blocks : List Block}

/-! ## Joining blocks -/

/-- The block of two neighbours. -/
def Block.join (a b : Block) : Block where
  ageMin := a.ageMin
  ageMax := b.ageMax
  weight := a.weight + b.weight
  weightedY := a.weightedY + b.weightedY
  weightedY2 := a.weightedY2 + b.weightedY2
  samples := a.samples + b.samples
  weight_pos := add_pos a.weight_pos b.weight_pos

theorem mergeBlocks_cons_cons (a b : Block) (l : List Block) :
    mergeBlocks (a :: b :: l) = mergeBlocks (a.join b :: l) := by
  cases l with
  | nil => simp [mergeBlocks, Block.join]
  | cons d l => simp [mergeBlocks, Block.join, add_assoc]

/-- **`merge_blocks`** joins its blocks from the left. -/
theorem mergeBlocks_cons (a : Block) (l : List Block) :
    mergeBlocks (a :: l) = .ok (l.foldl Block.join a) := by
  induction l generalizing a with
  | nil => simp [mergeBlocks]
  | cons b l ih => rw [mergeBlocks_cons_cons, ih, List.foldl_cons]

theorem mergeBlocks_pair (a b : Block) : mergeBlocks [a, b] = .ok (a.join b) := mergeBlocks_cons a [b]

theorem mergeBlocks_coarsens {l : List Block} (hl : l ≠ []) :
    ∃ b, mergeBlocks l = .ok b ∧ Coarsens Block.join l [b] := by
  cases l with
  | nil => exact absurd rfl hl
  | cons a l => exact ⟨_, mergeBlocks_cons a l, coarsens_foldl a l⟩

/-! ## Slices -/

theorem slice_ne_nil (points : List Block) {start stop : ℕ} (h : start < stop) (hstop : stop ≤ points.length) :
    slice points start stop ≠ [] := by
  intro hnil
  have hlen := congrArg List.length hnil
  rw [slice, List.length_drop, List.length_take, List.length_nil] at hlen
  omega

theorem take_append_slice {points : List Block} {start stop : ℕ} (h : start ≤ stop) :
    points.take start ++ slice points start stop = points.take stop := by
  have htake : (points.take stop).take start = points.take start := by
    rw [List.take_take, Nat.min_eq_left h]
  rw [slice, ← htake, List.take_append_drop]

/-! ## Binning and pooling -/

theorem prebin_coarsens (points : List Block) {maxBins : ℕ} (h : 0 < maxBins) :
    ∃ binned, prebin points maxBins = .ok binned ∧ Coarsens Block.join points binned := by
  unfold prebin
  split_ifs with hfew
  · exact ⟨points, rfl, .refl _⟩
  let I (k : ℕ) (result : List Block) : Prop :=
    Coarsens Block.join (points.take (k * points.length / maxBins)) result
  suffices hloop : Sat (fun _ => False) (I maxBins) (_ : Except FitError (List Block)) by
    obtain ⟨binned, hb, hI⟩ := hloop.exists_ok fun _ h => h
    refine ⟨binned, hb, ?_⟩
    simpa only [I, Nat.mul_div_cancel_left _ h, List.take_length] using hI
  refine sat_foldlM_range I maxBins ?_ (by simpa [I] using Coarsens.refl _)
  intro k hk result hI
  have hle : k * points.length / maxBins ≤ (k + 1) * points.length / maxBins :=
    Nat.div_le_div_right (Nat.mul_le_mul_right _ (Nat.le_succ k))
  have hstop : (k + 1) * points.length / maxBins ≤ points.length :=
    Nat.div_le_of_le_mul (Nat.mul_le_mul_right _ hk)
  dsimp only
  split_ifs with hlt
  · obtain ⟨b, hb, hc⟩ := mergeBlocks_coarsens (slice_ne_nil points hlt hstop)
    rw [hb, ok_bind]
    show Coarsens Block.join (points.take _) (result ++ [b])
    rw [← take_append_slice hle]
    exact hI.append hc
  · -- an empty bin
    show Coarsens Block.join (points.take _) result
    rw [← le_antisymm hle (Nat.le_of_not_lt hlt)]
    exact hI

theorem pavaPush_coarsens (last : Block) (fitted : List Block) :
    ∃ pushed, pavaPush last fitted = .ok pushed ∧
      Coarsens Block.join (fitted.reverse ++ [last]) pushed.reverse := by
  induction fitted generalizing last with
  | nil => exact ⟨[last], rfl, .refl _⟩
  | cons prev fitted ih =>
    rw [pavaPush]
    split_ifs with hmean
    · obtain ⟨pushed, hpush, hc⟩ := ih (prev.join last)
      refine ⟨pushed, by rw [mergeBlocks_pair, ok_bind, hpush], Coarsens.trans ?_ hc⟩
      rw [List.reverse_cons, List.append_assoc]
      exact .single fitted.reverse prev last []
    · exact ⟨_, rfl, by rw [List.reverse_cons, List.reverse_cons, List.reverse_cons]; exact .refl _⟩

theorem pavaDecreasing_coarsens (points : List Block) :
    ∃ fitted, pavaDecreasing points = .ok fitted ∧ Coarsens Block.join points fitted := by
  let I (pre fitted : List Block) : Prop := Coarsens Block.join pre fitted.reverse
  have hloop : Sat (fun _ => False) (I points)
      (points.foldlM (fun fitted point => pavaPush point fitted) [] : Except FitError (List Block)) := by
    refine sat_foldlM I points ?_ (.refl _)
    intro pre point post fitted _ hI
    obtain ⟨pushed, hpush, hc⟩ := pavaPush_coarsens point fitted
    rw [hpush]
    exact (hI.append (.refl [point])).trans hc
  obtain ⟨fitted, hf, hI⟩ := hloop.exists_ok fun _ h => h
  exact ⟨fitted.reverse, by rw [pavaDecreasing, hf]; rfl, hI⟩

/-! ## The dynamic program -/

/-- A cell after the loop tried the starts `l`: its parent is one of those that the row
    before reaches, and it has one if there is one. -/
structure CellSpec (prev : ℕ → Cell) (l : List ℕ) (cell : Cell) : Prop where
  parent : ∀ start, cell.parent = some start → start ∈ l ∧ (prev start).cost ≠ none
  found : ∀ start ∈ l, (prev start).cost ≠ none → cell.parent ≠ none
  cost : cell.cost = none ↔ cell.parent = none

theorem CellSpec.step {prev : ℕ → Cell} {l : List ℕ} {cell : Cell} (h : CellSpec prev l cell)
    (blocks : List Block) (stop start : ℕ) : CellSpec prev (l ++ [start]) (fillStep blocks prev stop cell start) := by
  unfold fillStep
  cases hprev : (prev start).cost with
  | none =>
    refine ⟨fun start' hp => ?_, fun start' hmem hreach => ?_, h.cost⟩
    · exact ⟨List.mem_append_left _ (h.parent start' hp).1, (h.parent start' hp).2⟩
    · rcases List.mem_append.1 hmem with hmem | hmem
      · exact h.found start' hmem hreach
      · rw [List.mem_singleton] at hmem
        exact absurd (hmem ▸ hprev) hreach
  | some cost =>
    dsimp only
    split_ifs with hbetter
    · refine ⟨fun start' hp => ?_, fun _ _ _ => Option.some_ne_none _, by simp⟩
      rw [Option.some.injEq] at hp
      subst hp
      exact ⟨by simp, by rw [hprev]; exact Option.some_ne_none _⟩
    · -- no better: the cell has a cost already
      have hcost : cell.cost ≠ none := by
        intro hnone
        exact hbetter (by rw [Cell.isBetter, hnone]; rfl)
      refine ⟨fun start' hp => ?_, fun _ _ _ hp => hcost (h.cost.2 hp), h.cost⟩
      exact ⟨List.mem_append_left _ (h.parent start' hp).1, (h.parent start' hp).2⟩

theorem fillCell_spec (blocks : List Block) (prev : ℕ → Cell) (first stop : ℕ) :
    CellSpec prev (List.range' first (stop - first)) (fillCell blocks prev first stop) := by
  have hfold (l pre : List ℕ) (cell : Cell) (h : CellSpec prev pre cell) :
      CellSpec prev (pre ++ l) (l.foldl (fillStep blocks prev stop) cell) := by
    induction l generalizing pre cell with
    | nil => rwa [List.append_nil]
    | cons start l ih =>
      have hnext := ih (pre ++ [start]) _ (h.step blocks stop start)
      rwa [List.append_assoc] at hnext
  have hempty : CellSpec prev [] ⟨none, none⟩ :=
    ⟨fun _ hp => (nomatch hp), fun _ hmem => absurd hmem List.not_mem_nil, iff_of_true rfl rfl⟩
  exact hfold _ [] _ hempty

/-- **Which cells are reached**: `steps` groups cover `stop` blocks if there are that many. -/
theorem dpRow_cost (steps stop : ℕ) : (dpRow blocks steps stop).cost ≠ none ↔
    (steps = 0 ∧ stop = 0) ∨ (0 < steps ∧ steps ≤ stop ∧ stop ≤ blocks.length) := by
  induction steps generalizing stop with
  | zero =>
    rw [dpRow]
    split_ifs with h <;> simp [h]
  | succ steps ih =>
    rw [dpRow]
    split_ifs with h
    · have hspec := fillCell_spec blocks (dpRow blocks steps) steps stop
      have hreach : (dpRow blocks steps steps).cost ≠ none := by
        rw [ih]
        omega
      have hfound := hspec.found steps (by rw [List.mem_range'_1]; omega) hreach
      exact iff_of_true (mt hspec.cost.1 hfound) (.inr ⟨Nat.succ_pos _, h⟩)
    · refine iff_of_false (not_not_intro rfl) ?_
      rintro (⟨hfalse, -⟩ | ⟨-, hin⟩)
      · exact hfalse
      · exact h hin

/-- The parent of a reached cell is a reached cell before it. -/
theorem dpRow_parent {steps stop : ℕ} (h : (dpRow blocks (steps + 1) stop).cost ≠ none) :
    ∃ start, (dpRow blocks (steps + 1) stop).parent = some start ∧ start < stop ∧
      (dpRow blocks steps start).cost ≠ none := by
  have hcond := (dpRow_cost (steps + 1) stop).1 h
  rw [dpRow, if_pos (by omega)] at h ⊢
  have hspec := fillCell_spec blocks (dpRow blocks steps) steps stop
  obtain ⟨start, hstart⟩ := Option.ne_none_iff_exists'.1 (mt hspec.cost.2 h)
  obtain ⟨hmem, hreach⟩ := hspec.parent start hstart
  rw [List.mem_range'_1] at hmem
  exact ⟨start, hstart, by omega, hreach⟩

/-- **The parents lead back to the first block.** -/
theorem parentRanges_coarsens {steps stop : ℕ} (h : (dpRow blocks steps stop).cost ≠ none) :
    ∃ ranges groups, parentRanges blocks steps stop = .ok ranges ∧
      (ranges.mapM fun r => mergeBlocks (slice blocks r.1 r.2)) = .ok groups ∧
      groups.length = steps ∧ Coarsens Block.join (blocks.take stop) groups := by
  induction steps generalizing stop with
  | zero =>
    have hstop : stop = 0 := by
      have := (dpRow_cost 0 stop).1 h
      omega
    subst hstop
    exact ⟨[], [], rfl, rfl, rfl, .refl _⟩
  | succ steps ih =>
    have hcond := (dpRow_cost (steps + 1) stop).1 h
    obtain ⟨start, hparent, hlt, hreach⟩ := dpRow_parent h
    obtain ⟨ranges, groups, hranges, hgroups, hlen, hc⟩ := ih hreach
    obtain ⟨b, hb, hslice⟩ := mergeBlocks_coarsens (slice_ne_nil blocks hlt (by omega))
    refine ⟨ranges ++ [(start, stop)], groups ++ [b], ?_, ?_, ?_, ?_⟩
    · rw [parentRanges, hparent]
      dsimp only
      rw [hranges]
      rfl
    · rw [List.mapM_append, hgroups, ok_bind, List.mapM_cons, hb]
      rfl
    · rw [List.length_append, hlen]
      rfl
    · rw [← take_append_slice hlt.le]
      exact hc.append hslice

/-- What `reduced_fits` returns for `steps`. -/
structure FitOf (blocks : List Block) (steps : ℕ) (fit : Fit) : Prop where
  steps_eq : fit.steps = steps
  length : fit.groups.length = steps
  coarsens : Coarsens Block.join blocks fit.groups

theorem reducedFits_coarsens (blocks : List Block) (maxSteps : ℕ) :
    ∃ fits, reducedFits blocks maxSteps = .ok fits ∧
      List.Forall₂ (FitOf blocks) (List.range' 1 (min maxSteps blocks.length)) fits := by
  refine mapM_ok fun steps hmem => ?_
  rw [List.mem_range'_1] at hmem
  have hreach : (dpRow blocks steps blocks.length).cost ≠ none := by
    rw [dpRow_cost]
    omega
  obtain ⟨ranges, groups, hranges, hgroups, hlen, hc⟩ := parentRanges_coarsens hreach
  rw [List.take_length] at hc
  refine ⟨⟨steps, (dpRow blocks steps blocks.length).cost, groups⟩, ?_, rfl, hlen, hc⟩
  rw [reducedFit, hranges, ok_bind, hgroups]
  rfl

/-! ## Scores -/

/-- What `scores_from_future_gain` knows after some groups. -/
structure ScoreInv (maxValue n : ℕ) (values : List ℕ × ℕ) : Prop where
  length : values.1.length = n
  sorted : values.1.Pairwise (· ≤ ·)
  le : ∀ v ∈ values.1, v ≤ values.2
  pos : ∀ v ∈ values.1, 1 ≤ v
  previous_pos : 1 ≤ values.2
  previous_le : values.2 ≤ max 1 maxValue

theorem ScoreInv.push {maxValue n v : ℕ} {values : List ℕ × ℕ} (h : ScoreInv maxValue n values)
    (hv : v ≤ max 1 maxValue) :
    ScoreInv maxValue (n + 1) (values.1 ++ [max values.2 v], max values.2 v) := by
  have hpos := h.previous_pos
  refine ⟨?_, ?_, ?_, ?_, ?_, max_le h.previous_le hv⟩
  · rw [List.length_append, h.length]
    rfl
  · rw [List.pairwise_append]
    refine ⟨h.sorted, List.pairwise_singleton _ _, fun u hu w hw => ?_⟩
    rw [List.mem_singleton] at hw
    exact hw ▸ (h.le u hu).trans (le_max_left _ _)
  · intro u hu
    rcases List.mem_append.1 hu with hu | hu
    · exact (h.le u hu).trans (le_max_left _ _)
    · exact (List.mem_singleton.1 hu).le
  · intro u hu
    rcases List.mem_append.1 hu with hu | hu
    · exact h.pos u hu
    · rw [List.mem_singleton.1 hu]
      exact hpos.trans (le_max_left _ _)
  · exact hpos.trans (le_max_left _ _)

/-- The scores of `n` groups: they start at 1 and never decrease. -/
structure Scores (maxValue n : ℕ) (values : List ℕ) : Prop where
  length : values.length = n
  head : values.head? = some 1
  sorted : values.Pairwise (· ≤ ·)
  le : ∀ v ∈ values, v ≤ max 1 maxValue

theorem ScoreInv.anchor {maxValue n : ℕ} {values : List ℕ × ℕ} (h : ScoreInv maxValue n values)
    (hn : 0 < n) : Scores maxValue n (values.1.set 0 1) := by
  obtain ⟨vs, previous⟩ := values
  cases vs with
  | nil => exact absurd h.length hn.ne
  | cons v vs =>
    have hsorted := (List.pairwise_cons.1 h.sorted).2
    rw [List.set_cons_zero]
    refine ⟨h.length, rfl, List.pairwise_cons.2 ⟨fun u hu => ?_, hsorted⟩, fun u hu => ?_⟩
    · exact h.pos u (List.mem_cons_of_mem _ hu)
    · rcases List.mem_cons.1 hu with rfl | hu
      · exact le_max_left _ _
      · exact (h.le u (List.mem_cons_of_mem _ hu)).trans h.previous_le

/-- **`scores_from_future_gain`** -/
theorem scoresFromFutureGain_spec {groups : List Block} {epsilon : ℚ} (maxValue : ℕ)
    (hne : groups ≠ []) (heps : 0 < epsilon) :
    ∃ values, scoresFromFutureGain groups epsilon maxValue = .ok values ∧
      Scores maxValue groups.length values := by
  cases groups with
  | nil => exact absurd rfl hne
  | cons first rest =>
    have hloop : Sat (fun _ => False) (ScoreInv maxValue (first :: rest).length)
        ((first :: rest).foldlM (scoreStep (max 0 first.mean) epsilon maxValue) ([], 1)) := by
      refine sat_foldlM (fun pre => ScoreInv maxValue pre.length) _ ?_
        ⟨rfl, .nil, by simp, by simp, le_rfl, le_max_left _ _⟩
      intro pre group post values _ hinv
      have hdiv : max 0 group.mean + epsilon ≠ 0 :=
        (add_pos_of_nonneg_of_pos (le_max_left _ _) heps).ne'
      rw [scoreStep, if_neg hdiv, List.length_append]
      exact hinv.push ((min_le_left _ _).trans (le_max_right _ _))
    obtain ⟨values, hvalues, hinv⟩ := hloop.exists_ok fun _ h => h
    refine ⟨values.1.set 0 1, ?_, hinv.anchor (Nat.succ_pos _)⟩
    rw [scoresFromFutureGain, hvalues]
    rfl

/-- What `merge_equal_score_steps` knows after the groups and scores `pre`. -/
structure MergeInv (pre merged : List (Block × ℕ)) : Prop where
  coarsens : Coarsens Block.join (pre.map Prod.fst) (merged.reverse.map Prod.fst)
  sublist : (merged.reverse.map Prod.snd).Sublist (pre.map Prod.snd)
  head : (merged.reverse.map Prod.snd).head? = (pre.map Prod.snd).head?

theorem MergeInv.step {pre merged : List (Block × ℕ)} (h : MergeInv pre merged) (gv : Block × ℕ) :
    ∃ merged', mergeEqualStep merged gv = .ok merged' ∧ MergeInv (pre ++ [gv]) merged' := by
  have hpush : MergeInv (pre ++ [gv]) (gv :: merged) := by
    obtain ⟨hc, hs, hh⟩ := h
    refine ⟨?_, ?_, ?_⟩
    · simpa using hc.append (.refl [gv.1])
    · simpa using hs.append (List.Sublist.refl [gv.2])
    · simp only [List.reverse_cons, List.map_append, List.head?_append, hh]
  cases merged with
  | nil => exact ⟨[gv], rfl, hpush⟩
  | cons last rest =>
    obtain ⟨group, value⟩ := last
    rw [mergeEqualStep]
    split_ifs with heq
    · refine ⟨(group.join gv.1, value) :: rest, by rw [mergeBlocks_pair]; rfl, ?_, ?_, ?_⟩
      · -- the last two groups of `hpush` are joined
        refine hpush.coarsens.trans ?_
        simpa using Coarsens.single (rest.reverse.map Prod.fst) group gv.1 []
      · simpa using h.sublist.trans (List.sublist_append_left _ [gv.2])
      · have hne : pre.map Prod.snd ≠ [] := by
          intro hnil
          have := h.sublist
          rw [hnil] at this
          simp at this
        have hh := h.head
        simp only [List.reverse_cons, List.map_append, List.map_cons, List.map_nil] at hh ⊢
        rw [hh, List.head?_append_of_ne_nil _ hne]
    · exact ⟨_, rfl, hpush⟩

/-- **`merge_equal_score_steps`** -/
theorem mergeEqualScoreSteps_spec {groups : List Block} {values : List ℕ} {maxValue : ℕ}
    (h : Scores maxValue groups.length values) :
    ∃ groups' values', mergeEqualScoreSteps groups values = .ok (groups', values') ∧
      Coarsens Block.join groups groups' ∧ Scores maxValue groups'.length values' := by
  have hloop : Sat (fun _ => False) (MergeInv (groups.zip values))
      ((groups.zip values).foldlM mergeEqualStep []) := by
    refine sat_foldlM MergeInv _ ?_ ⟨.refl _, List.Sublist.refl _, rfl⟩
    intro pre gv post merged _ hinv
    obtain ⟨merged', hstep, hinv'⟩ := hinv.step gv
    rw [hstep]
    exact hinv'
  obtain ⟨merged, hmerged, hc, hs, hh⟩ := hloop.exists_ok fun _ h => h
  rw [List.map_fst_zip h.length.ge] at hc
  rw [List.map_snd_zip h.length.le] at hs hh
  refine ⟨_, _, by rw [mergeEqualScoreSteps, hmerged]; rfl, hc, ?_⟩
  exact ⟨by simp, hh.trans h.head, h.sorted.sublist hs, fun v hv => h.le v (hs.subset hv)⟩

end WaitGc

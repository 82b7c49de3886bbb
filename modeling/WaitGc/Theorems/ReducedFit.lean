/-
  WAITGC verification — the dynamic program finds the best coarsening.

  A cell of the table is the least cost of cutting its blocks into its number of ranges
  (`dpRow_least`), where a range costs the squared error of its group
  (`segmentCost_eq`), and the parents lead along a cut of that cost
  (`parentRanges_cuts`).  So `reduced_fits` returns, for each number of steps, the
  partition of the blocks with the least error (`reduced_fits_optimal`).
-/
import WaitGc.Lib.Segments
import WaitGc.Proof.Groups

namespace WaitGc

open Outcome

variable {blocks : List Block}

/-! ## The error of a group -/

/-- The weighted squared error within a group. -/
def groupSse (group : List Block) : ℚ :=
  max 0 ((group.map (·.weightedY2)).sum
    - (group.map (·.weightedY)).sum * (group.map (·.weightedY)).sum / (group.map (·.weight)).sum)

/-- The weighted squared errors within the groups, summed. -/
def totalSse (groups : List (List Block)) : ℚ := (groups.map groupSse).sum

theorem GroupOf.sse {g : List Block} {b : Block} (h : GroupOf g b) : b.sse = groupSse g := by
  rw [groupSse, h.weight, h.weightedY, h.weightedY2, Block.sse]

/-- The samples of a block against the value `m`: their weighted squared error. -/
def Block.errorAt (m : ℚ) (b : Block) : ℚ := b.weightedY2 - 2 * m * b.weightedY + m * m * b.weight

theorem Block.errorAt_eq (m : ℚ) (b : Block) :
    b.errorAt m = b.weightedY2 - b.weightedY * b.weightedY / b.weight + b.weight * (b.mean - m) ^ 2 := by
  have hw := b.weight_pos.ne'
  rw [errorAt, mean]
  field_simp
  ring

theorem GroupOf.errorAt {g : List Block} {b : Block} (h : GroupOf g b) (m : ℚ) :
    (g.map (Block.errorAt m)).sum = b.errorAt m := by
  have hsum (l : List Block) : (l.map (Block.errorAt m)).sum = (l.map (·.weightedY2)).sum
      - 2 * m * (l.map (·.weightedY)).sum + m * m * (l.map (·.weight)).sum := by
    induction l with
    | nil => simp
    | cons a l ih =>
      simp only [List.map_cons, List.sum_cons, ih, Block.errorAt]
      ring
  rw [hsum, h.weight, h.weightedY, h.weightedY2, Block.errorAt]

/-- The mean of a group. -/
def groupMean (group : List Block) : ℚ := (group.map (·.weightedY)).sum / (group.map (·.weight)).sum

/-- The samples of a group against its mean. -/
def groupError (group : List Block) : ℚ := (group.map (Block.errorAt (groupMean group))).sum

theorem GroupOf.mean {g : List Block} {b : Block} (h : GroupOf g b) : groupMean g = b.mean := by
  rw [groupMean, h.weight, h.weightedY, Block.mean]

/-- The sums of a block are those of samples. -/
def Block.Sampled (b : Block) : Prop := b.weightedY * b.weightedY ≤ b.weightedY2 * b.weight

/-- **The error of a group is that of its samples against its mean.** -/
theorem groupSse_eq {g : List Block} (hne : g ≠ []) (hsamples : ∀ a ∈ g, a.Sampled) :
    groupSse g = groupError g := by
  obtain ⟨b, -, h⟩ := mergeBlocks_groupOf hne
  rw [groupError, h.mean]
  have hnonneg : 0 ≤ (g.map (Block.errorAt b.mean)).sum := by
    refine List.sum_nonneg fun x hx => ?_
    obtain ⟨a, ha, rfl⟩ := List.mem_map.1 hx
    rw [Block.errorAt_eq]
    have hdiv := (div_le_iff₀ a.weight_pos).2 (hsamples a ha)
    exact add_nonneg (sub_nonneg.2 hdiv) (mul_nonneg a.weight_pos.le (sq_nonneg _))
  have hmean : b.errorAt b.mean = b.weightedY2 - b.weightedY * b.weightedY / b.weight := by
    rw [Block.errorAt_eq, sub_self]
    ring
  rw [h.errorAt, hmean] at hnonneg ⊢
  rw [← h.sse, Block.sse, max_eq_right hnonneg]

/-! ## The cost of a range -/

theorem prefixSums_getD (f : Block → ℚ) {i : ℕ} (h : i ≤ blocks.length) :
    (prefixSums blocks f).getD i 0 = ((blocks.take i).map f).sum := by
  have hscan (l : List ℚ) (c : ℚ) (i : ℕ) (hi : i ≤ l.length) :
      (l.scanl (· + ·) c).getD i 0 = c + (l.take i).sum := by
    induction l generalizing c i with
    | nil =>
      obtain rfl := Nat.le_zero.1 hi
      simp
    | cons a l ih =>
      cases i with
      | zero => simp
      | succ i =>
        rw [List.scanl_cons, List.getD_cons_succ, ih _ _ (Nat.le_of_succ_le_succ hi), List.take_succ_cons,
          List.sum_cons, add_assoc]
  rw [prefixSums, hscan _ _ _ (by rwa [List.length_map]), zero_add, List.map_take]

/-- **`segment_cost`** is the error of the group at the range. -/
theorem segmentCost_eq {start stop : ℕ} (h : start < stop) (hstop : stop ≤ blocks.length) :
    segmentCost blocks start stop = groupSse (slice blocks start stop) := by
  have hdiff (f : Block → ℚ) : (prefixSums blocks f).getD stop 0 - (prefixSums blocks f).getD start 0
      = ((slice blocks start stop).map f).sum := by
    rw [prefixSums_getD f hstop, prefixSums_getD f (h.le.trans hstop), ← take_append_slice h.le,
      List.map_append, List.sum_append, add_sub_cancel_left]
  simp only [segmentCost, hdiff, groupSse]

theorem cutCost_eq {k : ℕ} {ranges : List (ℕ × ℕ)} (h : Cuts k blocks.length ranges) :
    cutCost (segmentCost blocks) ranges = totalSse (cutAt blocks ranges) := by
  rw [cutCost, totalSse, cutAt, List.map_map]
  refine congrArg List.sum (List.map_congr_left fun r hr => ?_)
  obtain ⟨hlt, hle⟩ := h.range_bounds r hr
  exact segmentCost_eq hlt hle

/-! ## The table -/

/-- A cell after the loop tried the starts `l`: no start is better, and its parent is as good. -/
structure CellBest (blocks : List Block) (prev : ℕ → Cell) (stop : ℕ) (l : List ℕ) (cell : Cell) : Prop where
  attained : ∀ c, cell.cost = some c → ∃ start d, start ∈ l ∧ cell.parent = some start ∧
    (prev start).cost = some d ∧ c = d + segmentCost blocks start stop
  least : ∀ start d, start ∈ l → (prev start).cost = some d →
    ∃ c, cell.cost = some c ∧ c ≤ d + segmentCost blocks start stop

theorem CellBest.step {prev : ℕ → Cell} {stop : ℕ} {l : List ℕ} {cell : Cell}
    (h : CellBest blocks prev stop l cell) (start : ℕ) :
    CellBest blocks prev stop (l ++ [start]) (fillStep blocks prev stop cell start) := by
  have hkeep : ∀ c, cell.cost = some c → ∃ start' d, start' ∈ l ++ [start] ∧ cell.parent = some start' ∧
      (prev start').cost = some d ∧ c = d + segmentCost blocks start' stop := by
    intro c hc
    obtain ⟨start', d, hmem, hrest⟩ := h.attained c hc
    exact ⟨start', d, List.mem_append_left _ hmem, hrest⟩
  unfold fillStep
  cases hprev : (prev start).cost with
  | none =>
    refine ⟨hkeep, fun start' d hmem hd => ?_⟩
    rcases List.mem_append.1 hmem with hmem | hmem
    · exact h.least start' d hmem hd
    · rw [List.mem_singleton.1 hmem, hprev] at hd
      exact nomatch hd
  | some cost =>
    dsimp only
    by_cases hbetter : cell.isBetter (cost + segmentCost blocks start stop) = true
    · -- the new start is the parent
      rw [if_pos hbetter]
      refine ⟨fun c hc => ?_, fun start' d hmem hd => ⟨_, rfl, ?_⟩⟩
      · exact ⟨start, cost, by simp, rfl, hprev, (Option.some.inj hc).symm⟩
      · rcases List.mem_append.1 hmem with hmem | hmem
        · obtain ⟨c, hc, hle⟩ := h.least start' d hmem hd
          have hlt : cost + segmentCost blocks start stop < c := by
            simpa [Cell.isBetter, hc] using hbetter
          exact hlt.le.trans hle
        · rw [List.mem_singleton.1 hmem, hprev] at hd
          rw [List.mem_singleton.1 hmem, Option.some.inj hd]
    · rw [if_neg hbetter]
      refine ⟨hkeep, fun start' d hmem hd => ?_⟩
      rcases List.mem_append.1 hmem with hmem | hmem
      · exact h.least start' d hmem hd
      · rw [List.mem_singleton.1 hmem, hprev] at hd
        rw [List.mem_singleton.1 hmem, ← Option.some.inj hd]
        cases hcell : cell.cost with
        | none => exact absurd (by rw [Cell.isBetter, hcell]; rfl) hbetter
        | some c => exact ⟨c, rfl, by simpa [Cell.isBetter, hcell] using hbetter⟩

theorem fillCell_best (prev : ℕ → Cell) (first stop : ℕ) :
    CellBest blocks prev stop (List.range' first (stop - first)) (fillCell blocks prev first stop) := by
  have hfold (l pre : List ℕ) (cell : Cell) (h : CellBest blocks prev stop pre cell) :
      CellBest blocks prev stop (pre ++ l) (l.foldl (fillStep blocks prev stop) cell) := by
    induction l generalizing pre cell with
    | nil => rwa [List.append_nil]
    | cons start l ih =>
      have hnext := ih (pre ++ [start]) _ (h.step start)
      rwa [List.append_assoc] at hnext
  exact hfold _ [] _ ⟨fun _ hc => (nomatch hc), fun _ _ hmem => absurd hmem List.not_mem_nil⟩

/-- **A cell is the least cost** of its number of ranges. -/
theorem dpRow_least {steps stop : ℕ} {c : ℚ} (h : (dpRow blocks steps stop).cost = some c) :
    LeastCost (segmentCost blocks) steps stop c := by
  induction steps generalizing stop c with
  | zero =>
    rw [dpRow] at h
    split_ifs at h with hstop
    · subst hstop
      rw [← Option.some.inj h]
      exact .zero
  | succ steps ih =>
    have hcond := (dpRow_cost (steps + 1) stop).1 (h ▸ Option.some_ne_none c)
    have hbest : CellBest blocks _ stop _ _ := fillCell_best (dpRow blocks steps) steps stop
    rw [dpRow, if_pos (by omega)] at h
    obtain ⟨start, d, hmem, -, hd, hc⟩ := hbest.attained c h
    rw [List.mem_range'_1] at hmem
    refine LeastCost.snoc (by omega) (ih hd) hc fun start' hlt ranges hcuts => ?_
    -- any other start is one of those that the loop tried
    have hreach : (dpRow blocks steps start').cost ≠ none := by
      rw [dpRow_cost]
      have := hcuts.le
      omega
    obtain ⟨d', hd'⟩ := Option.ne_none_iff_exists'.1 hreach
    have hmem' : start' ∈ List.range' steps (stop - steps) := by
      rw [List.mem_range'_1]
      have := hcuts.le
      omega
    obtain ⟨c', hc', hle⟩ := hbest.least start' d' hmem' hd'
    rw [h] at hc'
    exact ⟨d', ih hd', Option.some.inj hc' ▸ hle⟩

/-- **The parents lead along a cut** of the cell's cost. -/
theorem parentRanges_cuts {steps stop : ℕ} {c : ℚ} (h : (dpRow blocks steps stop).cost = some c) :
    ∃ ranges, parentRanges blocks steps stop = .ok ranges ∧ Cuts steps stop ranges ∧
      cutCost (segmentCost blocks) ranges = c := by
  induction steps generalizing stop c with
  | zero =>
    rw [dpRow] at h
    split_ifs at h with hstop
    · subst hstop
      exact ⟨[], rfl, .nil, Option.some.inj h⟩
  | succ steps ih =>
    have hcond := (dpRow_cost (steps + 1) stop).1 (h ▸ Option.some_ne_none c)
    have hrow : dpRow blocks (steps + 1) stop = fillCell blocks (dpRow blocks steps) steps stop := by
      rw [dpRow, if_pos (by omega)]
    rw [hrow] at h
    obtain ⟨start, d, hmem, hparent, hd, rfl⟩ := (fillCell_best _ _ _).attained c h
    rw [List.mem_range'_1] at hmem
    obtain ⟨ranges, hranges, hcuts, rfl⟩ := ih hd
    refine ⟨ranges ++ [(start, stop)], ?_, hcuts.snoc (by omega), cutCost_snoc _ _ _⟩
    rw [parentRanges, hrow, hparent]
    dsimp only
    rw [hranges]
    rfl

/-! ## The best coarsening -/

/-- The fit for `steps` is the best one. -/
structure OptimalFit (blocks : List Block) (steps : ℕ) (fit : Fit) : Prop where
  steps_eq : fit.steps = steps
  best : ∃ groups, IsPartition blocks steps groups ∧ List.Forall₂ GroupOf groups fit.groups ∧
    fit.sse = some (totalSse groups) ∧
    ∀ other, IsPartition blocks steps other → totalSse groups ≤ totalSse other
  sse_eq : fit.sse = some (fit.groups.map Block.sse).sum
  -- what is compared is the error of the groups against their means
  errors : (∀ b ∈ blocks, b.Sampled) → ∀ other, IsPartition blocks steps other →
    totalSse other = (other.map groupError).sum
  decreasing : (blocks.map Block.mean).Pairwise (· ≥ ·) → (fit.groups.map Block.mean).Pairwise (· ≥ ·)

theorem totalSse_eq_error (hsamples : ∀ b ∈ blocks, b.Sampled) {steps : ℕ} {groups : List (List Block)}
    (h : IsPartition blocks steps groups) : totalSse groups = (groups.map groupError).sum := by
  have hmem : ∀ g ∈ groups, ∀ b ∈ g, b.Sampled := by
    intro g hg b hb
    refine hsamples b ?_
    rw [← h.flatten]
    exact List.mem_flatten_of_mem hg hb
  rw [totalSse]
  congr 1
  exact List.map_congr_left fun g hg => groupSse_eq (h.nonempty g hg) (hmem g hg)

theorem totalSse_eq {groups : List (List Block)} {fitted : List Block}
    (h : List.Forall₂ GroupOf groups fitted) : totalSse groups = (fitted.map Block.sse).sum := by
  induction h with
  | nil => rfl
  | cons hg _ ih =>
    rw [totalSse] at ih ⊢
    rw [List.map_cons, List.map_cons, List.sum_cons, List.sum_cons, ih, hg.sse]

theorem reducedFit_optimal {steps : ℕ} (hpos : 0 < steps) (hle : steps ≤ blocks.length) :
    ∃ fit, reducedFit blocks steps = .ok fit ∧ OptimalFit blocks steps fit := by
  have hreach : (dpRow blocks steps blocks.length).cost ≠ none := by
    rw [dpRow_cost]
    omega
  obtain ⟨c, hc⟩ := Option.ne_none_iff_exists'.1 hreach
  obtain ⟨ranges, hranges, hcuts, rfl⟩ := parentRanges_cuts hc
  have hpart := hcuts.partition (l := blocks)
  obtain ⟨fitted, hfitted, hgroups⟩ : ∃ fitted,
      (ranges.mapM fun r => mergeBlocks (slice blocks r.1 r.2)) = .ok fitted ∧
      List.Forall₂ (fun (r : ℕ × ℕ) => GroupOf (slice blocks r.1 r.2)) ranges fitted :=
    mapM_ok fun r hr => mergeBlocks_groupOf (hpart.nonempty _ (List.mem_map_of_mem hr))
  have hgroups' : List.Forall₂ GroupOf (cutAt blocks ranges) fitted := by
    rw [cutAt, List.forall₂_map_left_iff]
    exact hgroups
  have hsse : (dpRow blocks steps blocks.length).cost = some (totalSse (cutAt blocks ranges)) := by
    rw [hc, cutCost_eq hcuts]
  refine ⟨_, by rw [reducedFit, hranges, ok_bind, hfitted]; rfl, rfl, ?_, ?_,
    fun hsamples _ => totalSse_eq_error hsamples, fun hmono => ?_⟩
  · refine ⟨_, hpart, hgroups', hsse, fun other hother => ?_⟩
    obtain ⟨ranges', hcuts', rfl⟩ := exists_cuts hother
    rw [← cutCost_eq hcuts, ← cutCost_eq hcuts']
    exact (dpRow_least hc).2 ⟨ranges', hcuts', rfl⟩
  · rw [← totalSse_eq hgroups']
    exact hsse
  · rw [← hpart.flatten] at hmono
    exact groups_nonIncreasing hgroups' hmono

/-- **`reduced_fits` is an optimal coarsening.**  It never fails to reconstruct, and for each
    number of steps up to `max_steps` and the number of blocks it returns a partition of
    the blocks into that many groups of neighbours with its error, which no other such
    partition undercuts. -/
theorem reduced_fits_optimal (blocks : List Block) (maxSteps : ℕ) :
    ∃ fits, reducedFits blocks maxSteps = .ok fits ∧
      List.Forall₂ (OptimalFit blocks) (List.range' 1 (min maxSteps blocks.length)) fits := by
  refine mapM_ok fun steps hmem => ?_
  rw [List.mem_range'_1] at hmem
  exact reducedFit_optimal (by omega) (by omega)

end WaitGc

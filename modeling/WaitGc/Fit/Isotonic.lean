/-
  WAITGC verification — the offline fit (`fit_isotonic.py`).

  Floats are exact rationals; the values that are not finite stand apart, as
  `load_points` rejects them.  A row and a block carry that their weight is
  positive, so no division of the program is one by zero.

  * `loadPoints`, `prebin` and `pavaDecreasing` make the blocks; PAVA keeps the
    blocks of `fitted` newest first.
  * `reducedFits` is the dynamic program.  A cell of its two tables is the best cost,
    `none` for `inf`, and the parent, `none` for `-1`.
  * `scoresFromFutureGain`, `mergeEqualScoreSteps` and `renderHeader` make the
    constants of the fit that `choose_fit` picks (`Fit/Choose`).

  The ages of a CSV row and its numbers are given as `int` and `float` read them,
  `none` where they raise.
-/
import WaitGc.Lib.Outcome
import Mathlib.Algebra.Order.BigOperators.Group.List
import Mathlib.Algebra.Order.Field.Rat
import Mathlib.Data.Rat.Floor
import Mathlib.Tactic.Positivity

namespace WaitGc

open Outcome

/-! ## Samples -/

/-- A Python float. -/
inductive PyFloat where
  | finite (q : ℚ)
  | nonFinite
  deriving DecidableEq, Repr

/-- A row of the input.  `weight` is `none` where the column is missing or the field is
    empty. -/
structure CsvRow where
  ageNs : Option ℤ
  futureInvalidPages : Option PyFloat
  weight : Option (Option PyFloat)

/-- A sample. -/
structure Row where
  age : ℕ
  futureInvalid : ℚ
  weight : ℚ
  weight_pos : 0 < weight

/-- The exceptions of the program. -/
inductive FitError where
  | mergeEmpty
  | missingColumns (columns : List String)
  | invalidNumeric (lineNo : ℕ)
  | negativeSample (lineNo : ℕ)
  | badWeight (lineNo : ℕ)
  | noSamples
  | reconstruct
  | noGroup
  | zeroDivision
  deriving DecidableEq, Repr

/-- The columns `load_points` requires. -/
def requiredColumns : List String := ["age_ns", "future_invalid_pages"]

/-- The checks of `load_points` on one row. -/
def loadRow (lineNo : ℕ) (row : CsvRow) : Except FitError Row :=
  match row.ageNs, row.futureInvalidPages, row.weight.getD (some (.finite 1)) with
  | some age, some futureInvalid, some weight =>
    match futureInvalid with
    | .nonFinite => .error (.negativeSample lineNo)
    | .finite y =>
      if age < 0 ∨ y < 0 then .error (.negativeSample lineNo)
      else match weight with
        | .nonFinite => .error (.badWeight lineNo)
        | .finite w => if h : 0 < w then .ok ⟨age.toNat, y, w, h⟩ else .error (.badWeight lineNo)
  | _, _, _ => .error (.invalidNumeric lineNo)

/-- The samples `load_points` reads, from line 2 on. -/
def loadRows (columns : List String) (csv : List CsvRow) : Except FitError (List Row) := do
  let missing := requiredColumns.filter (· ∉ columns)
  if missing ≠ [] then .error (.missingColumns missing)
  let rows ← (csv.zipIdx 2).mapM fun r => loadRow r.2 r.1
  if rows = [] then .error .noSamples
  pure rows

/-! ## Blocks -/

/-- `Block` -/
structure Block where
  ageMin : ℕ
  ageMax : ℕ
  weight : ℚ
  weightedY : ℚ
  weightedY2 : ℚ
  samples : ℕ
  weight_pos : 0 < weight

/-- `Block.mean` -/
def Block.mean (b : Block) : ℚ := b.weightedY / b.weight

/-- `Block.sse` -/
def Block.sse (b : Block) : ℚ := max 0 (b.weightedY2 - b.weightedY * b.weightedY / b.weight)

theorem sum_weight_pos {β : Type} {weight : β → ℚ} (hpos : ∀ b, 0 < weight b) (b : β) (l : List β) :
    0 < ((b :: l).map weight).sum := by
  rw [List.map_cons, List.sum_cons]
  refine add_pos_of_pos_of_nonneg (hpos b) (List.sum_nonneg fun w hw => ?_)
  obtain ⟨b', -, rfl⟩ := List.mem_map.1 hw
  exact (hpos b').le

/-- `merge_blocks` -/
def mergeBlocks : List Block → Except FitError Block
  | [] => .error .mergeEmpty
  | first :: rest =>
    let items := first :: rest
    .ok {
      ageMin := first.ageMin
      ageMax := (items.getLast (List.cons_ne_nil _ _)).ageMax
      weight := (items.map (·.weight)).sum
      weightedY := (items.map (·.weightedY)).sum
      weightedY2 := (items.map (·.weightedY2)).sum
      samples := (items.map (·.samples)).sum
      weight_pos := sum_weight_pos Block.weight_pos first rest }

/-- The block of the samples of one age. -/
def sameAgeBlock (first : Row) (rest : List Row) : Block :=
  let sameAge := first :: rest
  { ageMin := first.age
    ageMax := first.age
    weight := (sameAge.map (·.weight)).sum
    weightedY := (sameAge.map fun r => r.futureInvalid * r.weight).sum
    weightedY2 := (sameAge.map fun r => r.futureInvalid * r.futureInvalid * r.weight).sum
    samples := sameAge.length
    weight_pos := sum_weight_pos Row.weight_pos first rest }

/-- The loop of `load_points` over the sorted samples: one block for each age. -/
def groupRows (rows : List Row) : List Block :=
  (rows.splitBy fun r r' => r.age = r'.age).filterMap fun
    | [] => none
    | first :: rest => some (sameAgeBlock first rest)

/-- `load_points` -/
def loadPoints (columns : List String) (csv : List CsvRow) : Except FitError (List Block × ℕ) := do
  let rows ← loadRows columns csv
  pure (groupRows (rows.mergeSort fun r r' => r.age ≤ r'.age), rows.length)

/-- `points[start:end]` -/
def slice (points : List Block) (start stop : ℕ) : List Block := (points.take stop).drop start

/-- `prebin` -/
def prebin (points : List Block) (maxBins : ℕ) : Except FitError (List Block) :=
  if points.length ≤ maxBins then .ok points
  else (List.range maxBins).foldlM (fun result index => do
    let start := index * points.length / maxBins
    let stop := (index + 1) * points.length / maxBins
    if start < stop then
      let b ← mergeBlocks (slice points start stop)
      pure (result ++ [b])
    else pure result) []

/-- The inner loop of `pava_decreasing`: a block is pushed on `fitted`. -/
def pavaPush (last : Block) : List Block → Except FitError (List Block)
  | [] => .ok [last]
  | prev :: fitted =>
    if prev.mean < last.mean then do
      let b ← mergeBlocks [prev, last]
      pavaPush b fitted
    else .ok (last :: prev :: fitted)

/-- `pava_decreasing` -/
def pavaDecreasing (points : List Block) : Except FitError (List Block) :=
  (points.foldlM (fun fitted point => pavaPush point fitted) []).map List.reverse

/-! ## The dynamic program -/

/-- `prefix_w`, `prefix_y`, `prefix_y2` -/
def prefixSums (blocks : List Block) (f : Block → ℚ) : List ℚ := (blocks.map f).scanl (· + ·) 0

/-- `segment_cost`, with the prefix sums of the blocks. -/
def segmentCost (blocks : List Block) (start stop : ℕ) : ℚ :=
  let diff (f : Block → ℚ) := (prefixSums blocks f).getD stop 0 - (prefixSums blocks f).getD start 0
  max 0 (diff (·.weightedY2) - diff (·.weightedY) * diff (·.weightedY) / diff (·.weight))

/-- `dp[steps][end]` and `parent[steps][end]`. -/
structure Cell where
  cost : Option ℚ
  parent : Option ℕ

/-- `candidate < dp[steps][end]` -/
def Cell.isBetter (candidate : ℚ) (cell : Cell) : Bool := cell.cost.all (candidate < ·)

/-- The body of the loop over `start`, from the row `prev` of `steps - 1`. -/
def fillStep (blocks : List Block) (prev : ℕ → Cell) (stop : ℕ) (cell : Cell) (start : ℕ) : Cell :=
  match (prev start).cost with
  | none => cell
  | some cost =>
    let candidate := cost + segmentCost blocks start stop
    if cell.isBetter candidate then ⟨some candidate, some start⟩ else cell

/-- The loop over `start`. -/
def fillCell (blocks : List Block) (prev : ℕ → Cell) (first stop : ℕ) : Cell :=
  (List.range' first (stop - first)).foldl (fillStep blocks prev stop) ⟨none, none⟩

/-- The row of `steps`. -/
def dpRow (blocks : List Block) : ℕ → ℕ → Cell
  | 0, stop => if stop = 0 then ⟨some 0, none⟩ else ⟨none, none⟩
  | steps + 1, stop =>
    if steps + 1 ≤ stop ∧ stop ≤ blocks.length then fillCell blocks (dpRow blocks steps) steps stop
    else ⟨none, none⟩

/-- The loop that follows the parents: the ranges, in order. -/
def parentRanges (blocks : List Block) : ℕ → ℕ → Except FitError (List (ℕ × ℕ))
  | 0, _ => .ok []
  | cursor + 1, stop =>
    match (dpRow blocks (cursor + 1) stop).parent with
    | none => .error .reconstruct
    | some start => do
      let ranges ← parentRanges blocks cursor start
      pure (ranges ++ [(start, stop)])

/-- One entry of `reduced_fits`. -/
structure Fit where
  steps : ℕ
  sse : Option ℚ
  groups : List Block

/-- `reduced_fits`, for one number of steps. -/
def reducedFit (blocks : List Block) (steps : ℕ) : Except FitError Fit := do
  let ranges ← parentRanges blocks steps blocks.length
  let groups ← ranges.mapM fun r => mergeBlocks (slice blocks r.1 r.2)
  pure ⟨steps, (dpRow blocks steps blocks.length).cost, groups⟩

/-- `reduced_fits` -/
def reducedFits (blocks : List Block) (maxSteps : ℕ) : Except FitError (List Fit) :=
  (List.range' 1 (min maxSteps blocks.length)).mapM (reducedFit blocks)

/-- The fits of a sample set: `main`, up to `choose_fit`. -/
def isotonicFits (columns : List String) (csv : List CsvRow) (prebins maxSteps : ℕ) :
    Except FitError (List Fit) := do
  let (points, _) ← loadPoints columns csv
  let binned ← prebin points prebins
  let pavaBlocks ← pavaDecreasing binned
  reducedFits pavaBlocks maxSteps

/-! ## Scores -/

/-- `round`: to the nearest integer, a tie to the even one. -/
def pyRound (q : ℚ) : ℤ :=
  let frac := q - q.floor
  if frac < 1 / 2 then q.floor
  else if 1 / 2 < frac then q.floor + 1
  else if q.floor % 2 = 0 then q.floor
  else q.floor + 1

/-- `min(max_value, max(1, int(round(ratio))))` -/
def clampScore (maxValue : ℕ) (ratio : ℚ) : ℕ := min maxValue (max 1 (pyRound ratio).toNat)

/-- The body of `scores_from_future_gain`: the values, and `previous`. -/
def scoreStep (baseline epsilon : ℚ) (maxValue : ℕ) (values : List ℕ × ℕ) (group : Block) :
    Except FitError (List ℕ × ℕ) :=
  let divisor := max 0 group.mean + epsilon
  if divisor = 0 then .error .zeroDivision
  else
    let value := max values.2 (clampScore maxValue ((baseline + epsilon) / divisor))
    .ok (values.1 ++ [value], value)

/-- `scores_from_future_gain` -/
def scoresFromFutureGain (groups : List Block) (epsilon : ℚ) (maxValue : ℕ) :
    Except FitError (List ℕ) :=
  match groups with
  | [] => .error .noGroup
  | first :: _ => do
    let values ← groups.foldlM (scoreStep (max 0 first.mean) epsilon maxValue) ([], 1)
    pure (values.1.set 0 1)

/-- The body of `merge_equal_score_steps`; the merged groups stand newest first. -/
def mergeEqualStep (merged : List (Block × ℕ)) (gv : Block × ℕ) : Except FitError (List (Block × ℕ)) :=
  match merged with
  | [] => .ok [gv]
  | (group, value) :: rest =>
    if gv.2 = value then do
      let b ← mergeBlocks [group, gv.1]
      pure ((b, value) :: rest)
    else .ok (gv :: (group, value) :: rest)

/-- `merge_equal_score_steps` -/
def mergeEqualScoreSteps (groups : List Block) (values : List ℕ) :
    Except FitError (List Block × List ℕ) := do
  let merged ← (groups.zip values).foldlM mergeEqualStep []
  pure (merged.reverse.map Prod.fst, merged.reverse.map Prod.snd)

/-- The constants of the generated header. -/
structure IsoHeader where
  stepCount : ℕ
  boundaries : List ℕ
  values : List ℕ

/-- `render_header` -/
def renderHeader (groups : List Block) (values : List ℕ) : IsoHeader where
  stepCount := groups.length
  boundaries := groups.tail.map (·.ageMin)
  values := values

/-- `main`, from the fit that `choose_fit` picked to the header. -/
def exportFit (groups : List Block) (epsilon : ℚ) (maxValue : ℕ) :
    Except FitError (List Block × List ℕ × IsoHeader) := do
  let values ← scoresFromFutureGain groups epsilon maxValue
  let (groups, values) ← mergeEqualScoreSteps groups values
  pure (groups, values, renderHeader groups values)

end WaitGc

/-
  WAITGC verification — which fit is exported (`choose_fit`).

  `math.log` is not part of the model: the program uses it only to compare, and all
  that is used of it is that it does not decrease.
-/
import WaitGc.Fit.Isotonic
import Mathlib.Data.List.Sort

namespace WaitGc

open Outcome

/-- `objective`: the BIC without `--step-penalty`, and the penalized MSE with it. -/
def objective (log : ℚ → ℚ) (sampleCount : ℕ) (penalty : Option ℚ) (steps : ℕ) (mse : ℚ) : ℚ :=
  match penalty with
  | none => sampleCount * log (mse + 1 / 10 ^ 12) + steps * log sampleCount
  | some penalty => mse + penalty * steps

/-- The body of the loop of `choose_fit`: the fit of `best_steps`, and `best_objective`. -/
def chooseStep (value : Fit → Option ℚ) (best : Option (Fit × ℚ)) (fit : Fit) : Option (Fit × ℚ) :=
  match value fit, best with
  | none, best => best
  | some v, none => some (fit, v)
  | some v, some (fit', bestObjective) =>
    if v < bestObjective then some (fit, v) else some (fit', bestObjective)

/-- The objective of a fit; `none` for `inf`. -/
def fitObjective (log : ℚ → ℚ) (totalWeight : ℚ) (sampleCount : ℕ) (penalty : Option ℚ) (fit : Fit) :
    Option ℚ :=
  fit.sse.map fun sse => objective log sampleCount penalty fit.steps (sse / totalWeight)

/-- `choose_fit`; `none` where `fits[best_steps]` raises. -/
def chooseFit (log : ℚ → ℚ) (fits : List Fit) (totalWeight : ℚ) (sampleCount : ℕ)
    (penalty : Option ℚ) : Option Fit :=
  ((fits.mergeSort fun f f' => f.steps ≤ f'.steps).foldl
    (chooseStep (fitObjective log totalWeight sampleCount penalty)) none).map Prod.fst

/-- `main`, up to the fit that is picked. -/
def selectFit (log : ℚ → ℚ) (columns : List String) (csv : List CsvRow) (prebins maxSteps : ℕ)
    (penalty : Option ℚ) : Except FitError (Option Fit) := do
  let (points, sampleCount) ← loadPoints columns csv
  let binned ← prebin points prebins
  let pavaBlocks ← pavaDecreasing binned
  let fits ← reducedFits pavaBlocks maxSteps
  let totalWeight := (binned.map (·.weight)).sum
  pure (chooseFit log fits totalWeight sampleCount penalty)

end WaitGc

/-
  WAITGC verification — the samples on their way to the fit.

  The kernel prints an `[ISO-SAMPLE]` record for each observation, and
  `extract_isotonic_samples.py` finds the records in the kernel log and writes the
  input of the fit.

  What is no code of the repository is a parameter: `digit`, the decimal digits of
  Unicode, which `\d` matches and `int` reads, and `nine`, the number that `:.9g`
  prints and `float` reads back.  Other floats are exact rationals.
-/
import WaitGc.Fit.Isotonic
import WaitGc.Ftl.State
import WaitGc.Lib.Pattern

namespace WaitGc

open Outcome Pattern

/-! ## The record -/

/-- `%llu`, `%u` and `%d` of a number that is not negative. -/
def decimal (n : ℕ) : List Char := Nat.toDigits 10 n

namespace SampleText

/-- The texts of the record. -/
def tag : List Char := "[ISO-SAMPLE]".toList
def part : List Char := " part=".toList
def line : List Char := " line=".toList
def age : List Char := "age_ns=".toList
def gain : List Char := "future_invalid_pages=".toList
def horizon : List Char := "horizon_ns=".toList
def startIpc : List Char := "start_ipc=".toList
def endIpc : List Char := "end_ipc=".toList

end SampleText

/-- The record as `isotonic_sample_candidates` prints it. -/
def IsoSample.printed (r : IsoSample) : List Char :=
  SampleText.tag ++ (SampleText.part ++ (decimal r.part ++
    (SampleText.line ++ (decimal r.line ++ ' ' ::
    (SampleText.age ++ (decimal r.ageNs ++ ' ' ::
    (SampleText.gain ++ (decimal r.futureInvalidPages ++ ' ' ::
    (SampleText.horizon ++ (decimal r.horizonNs ++ ' ' ::
    (SampleText.startIpc ++ (decimal r.startIpc ++ ' ' ::
    (SampleText.endIpc ++ decimal r.endIpc)))))))))))))

/-! ## The extraction -/

/-- `SAMPLE_PATTERN` -/
def samplePattern : List Item :=
  [.text SampleText.tag, .skip, .text SampleText.age, .digits, .skip, .text SampleText.gain, .digits,
    .skip, .text SampleText.horizon, .digits]

/-- `parse_args`: what it lets through.  `inf` and `nan` are not below 1. -/
structure ExtractArgs where
  targetHorizonNs : ℕ
  maxHorizonRatio : PyFloat
  target_pos : 0 < targetHorizonNs
  one_le_ratio : ∀ q, maxHorizonRatio = .finite q → 1 ≤ q

/-- `horizon > args.target_horizon_ns * args.max_horizon_ratio` -/
def ExtractArgs.Late (args : ExtractArgs) (horizon : ℕ) : Prop :=
  ∃ q, args.maxHorizonRatio = .finite q ∧ args.targetHorizonNs * q < horizon

instance (args : ExtractArgs) (horizon : ℕ) : Decidable (args.Late horizon) :=
  match h : args.maxHorizonRatio with
  | .finite q => decidable_of_iff (args.targetHorizonNs * q < horizon) (by simp [ExtractArgs.Late, h])
  | .nonFinite => isFalse (by simp [ExtractArgs.Late, h])

/-- `int` of a run of digits. -/
def pyInt (digit : Char → Option ℕ) (text : List Char) : ℕ :=
  text.foldl (fun n c => 10 * n + (digit c).getD 0) 0

/-- `horizon == 0`, in the division. -/
inductive ExtractError where
  | zeroDivision
  deriving DecidableEq, Repr

/-- What `main` has written and counted. -/
structure Extracted where
  rows : List (ℕ × ℚ)
  accepted : ℕ
  dropped : ℕ

/-- The body of the loop over the lines. -/
def extractLine (digit : Char → Option ℕ) (args : ExtractArgs) (out : Extracted) (line : List Char) :
    Except ExtractError Extracted :=
  match search (fun c => (digit c).isSome) samplePattern line with
  | some [age, gain, horizon] =>
    let age := pyInt digit age
    let gain := pyInt digit gain
    let horizon := pyInt digit horizon
    if args.Late horizon then
      .ok { out with dropped := out.dropped + 1 }
    else if horizon = 0 then .error .zeroDivision
    else
      let normalizedGain : ℚ := gain * args.targetHorizonNs / horizon
      .ok { out with rows := out.rows ++ [(age, normalizedGain)], accepted := out.accepted + 1 }
  | _ => .ok out

/-- `main` of `extract_isotonic_samples.py`. -/
def extractSamples (digit : Char → Option ℕ) (args : ExtractArgs) (log : List (List Char)) :
    Except ExtractError Extracted :=
  log.foldlM (extractLine digit args) ⟨[], 0, 0⟩

/-- The exit status. -/
def Extracted.status (out : Extracted) : ℕ := if out.accepted ≠ 0 then 0 else 1

/-- The header of the CSV file. -/
def csvColumns : List String := ["age_ns", "future_invalid_pages", "weight"]

/-- The rows of the CSV file, as the fit reads them. -/
def Extracted.csv (nine : ℚ → ℚ) (out : Extracted) : List CsvRow :=
  out.rows.map fun r => ⟨some r.1, some (.finite (nine r.2)), some (some (.finite 1))⟩

end WaitGc

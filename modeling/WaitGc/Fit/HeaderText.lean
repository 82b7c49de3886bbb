/-
  WAITGC verification — the generated header as a text.

  `render_header` prints the constants of the fit as a C header, and `conv_ftl.h`
  gives each constant that is not defined its default.
-/
import WaitGc.Fit.Extract
import WaitGc.Fit.Header
import WaitGc.Lib.Preprocessor

namespace WaitGc

open Cpp

namespace HeaderText

/-- The texts of the header. -/
def generated : List Char := " Generated by fit_isotonic.py; do not hand-edit fitted values. ".toList
def source : List Char := " Source: ".toList
def guard : List Char := "_CONV_ISOTONIC_FIT_H".toList
def iso : List Char := "CONV_ISO_".toList
def stepCount : List Char := "CONV_ISO_STEP_COUNT".toList
def ageT : List Char := "CONV_ISO_AGE_T".toList
def ns : List Char := "_NS".toList
def ageV : List Char := "CONV_ISO_AGE_V".toList

end HeaderText

/-- `CONV_ISO_AGE_T1_NS ..` -/
def boundaryName (index : ℕ) : List Char := HeaderText.ageT ++ (decimal index ++ HeaderText.ns)

/-- `CONV_ISO_AGE_V1 ..` -/
def valueName (index : ℕ) : List Char := HeaderText.ageV ++ decimal index

/-- The constants of a header and their bodies, in the order of their lines. -/
def IsoHeader.constants (h : IsoHeader) : List (List Char × List Char) :=
  (HeaderText.stepCount, decimal h.stepCount) ::
    ((h.boundaries.zipIdx 1).map (fun p => (boundaryName p.2, decimal p.1 ++ ull)) ++
      (h.values.zipIdx 1).map fun p => (valueName p.2, decimal p.1 ++ ull))

/-- The line that defines a constant. -/
def defineLine (p : List Char × List Char) : List Char := Word.define ++ ' ' :: (p.1 ++ ' ' :: p.2)

/-- `lines` of `render_header`; `source` is the name of the CSV file. -/
def renderHeaderLines (groups : List Block) (values : List ℕ) (source : List Char) : List (List Char) :=
  [comment HeaderText.generated, comment (HeaderText.source ++ (source ++ [' '])),
      Word.ifndef ++ ' ' :: HeaderText.guard, Word.define ++ ' ' :: HeaderText.guard, []] ++
    (renderHeader groups values).constants.map defineLine ++ [[], Word.endif, []]

/-- `render_header` -/
def renderHeaderText (groups : List Block) (values : List ℕ) (source : List Char) : List Char :=
  ['\n'].intercalate (renderHeaderLines groups values source)

/-- The defaults of `conv_ftl.h`, each under its `#ifndef`. -/
def isoDefaults : List Cpp.Line :=
  (IsoHeader.constants ⟨7, defaultBoundaries, defaultValues⟩).flatMap fun p => unlessDefined (p.1, [p.2])

end WaitGc

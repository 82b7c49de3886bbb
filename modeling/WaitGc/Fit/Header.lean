/-
  WAITGC verification — `conv_ftl.h` with a generated header.

  A constant that the header does not define has the default of `conv_ftl.h`; the
  `#if` checks are made on all of them.
-/
import WaitGc.Fit.Isotonic
import WaitGc.Ftl.State

namespace WaitGc

/-- The defaults of `CONV_ISO_AGE_T1_NS ..`. -/
def defaultBoundaries : List ℕ :=
  [10000000000, 20000000000, 45000000000, 90000000000, 180000000000, 360000000000]

/-- The defaults of `CONV_ISO_AGE_V1 ..`. -/
def defaultValues : List ℕ := [1, 2, 3, 4, 5, 6, 7]

namespace IsoHeader

/-- `CONV_ISO_AGE_T1_NS ..`, from 0 on. -/
def boundary (h : IsoHeader) (i : ℕ) : ℕ := h.boundaries.getD i (defaultBoundaries.getD i 0)

/-- `CONV_ISO_AGE_V1 ..`, from 0 on. -/
def value (h : IsoHeader) (i : ℕ) : ℕ := h.values.getD i (defaultValues.getD i 0)

/-- The header compiles: its constants are `ULL` constants, and no check of `conv_ftl.h`
    fails. -/
structure Accepted (h : IsoHeader) : Prop where
  literals : ∀ n ∈ h.boundaries ++ h.values, n < 2 ^ 64
  stepCount_pos : 1 ≤ h.stepCount
  stepCount_le : h.stepCount ≤ 7
  value_zero : h.value 0 = 1
  boundary_pos : 2 ≤ h.stepCount → 0 < h.boundary 0
  boundary_lt : ∀ i, i + 2 < h.stepCount → h.boundary i < h.boundary (i + 1)
  value_le : ∀ i, i + 1 < h.stepCount → h.value i ≤ h.value (i + 1)

/-- The table that is compiled in. -/
def table (h : IsoHeader) (ha : h.Accepted) : IsoTable where
  stepCount := h.stepCount
  boundary := h.boundary
  value := h.value
  stepCount_pos := ha.stepCount_pos
  stepCount_le := ha.stepCount_le
  value_zero := ha.value_zero
  boundary_pos := ha.boundary_pos
  boundary_lt := ha.boundary_lt
  value_le := ha.value_le

end IsoHeader

end WaitGc

/-
  WAITGC verification — faults of the kernel module, and C arithmetic.

  A function of the module that can stop the kernel returns
  `Except Fault α`.  There are three ways to stop: an `NVMEV_ASSERT` fails
  (`BUG_ON`), the result of `get_next_free_line` is `NULL` and is
  dereferenced, or a slot of the victim queue's array that holds neither
  `NULL` nor a line is dereferenced.
-/
import WaitGc.Lib.Outcome
import Mathlib.Algebra.Group.Int.Defs
import Mathlib.Algebra.Group.Nat.Defs
import Mathlib.Data.Int.Basic

namespace WaitGc

open Outcome

/-- The assertions of the modelled functions, named by the function they
    stand in and by what they check. -/
inductive Site where
  | initParams
  | initLines
  | prepareWritePointer
  | checkAddr
  | setMaptblEnt
  | ppa2pgidx
  | getNewPagePl
  | closeFullIpc
  | closeVictimVpc
  | closeVictimIpc
  | freshPointer
  | invalidPgValid
  | invalidBlkIpc
  | invalidBlkVpc
  | invalidLineIpc
  | invalidFullIpc
  | invalidLineVpc
  | validPgFree
  | validBlkVpc
  | validLineVpc
  | gcValidLpn
  | cleanPgNotFree
  | bufferSize
  deriving DecidableEq, Repr

/-- The ways a run can stop. -/
inductive Fault where
  /-- `NVMEV_ASSERT` fails at a site. -/
  | assert (site : Site)
  /-- `get_next_free_line` returned `NULL` and the caller dereferences it. -/
  | noFreeLine
  /-- A queue slot holding a stray pointer is dereferenced. -/
  | wildPointer
  deriving DecidableEq, Repr

/-- `NVMEV_ASSERT(p)` at a site. -/
def nvmevAssert (p : Prop) [Decidable p] (site : Site) : Except Fault Unit :=
  require p (.assert site)

theorem nvmevAssert_pos {p : Prop} [Decidable p] (h : p) (site : Site) :
    nvmevAssert p site = .ok () := if_pos h

/-! ## C arithmetic -/

/-- The value an `int` holds after `x` is assigned to it. -/
def int32 (x : ℤ) : ℤ := x.bmod (2 ^ 32)

/-- The value an `unsigned long` holds after `x` is assigned to it. -/
def ulong (x : ℤ) : ℕ := (x % 2 ^ 64).toNat

/-- A 64-bit unsigned result. -/
def u64 (x : ℕ) : ℕ := x % 2 ^ 64

/-- A 32-bit unsigned result. -/
def u32 (x : ℕ) : ℕ := x % 2 ^ 32

/-- `a - b` in 64-bit unsigned arithmetic. -/
def sub64 (a b : ℕ) : ℕ := u64 (a + 2 ^ 64 - b)

/-- `DIV_ROUND_UP(n, d)` in 64-bit unsigned arithmetic. -/
def divRoundUp (n d : ℕ) : ℕ := u64 (n + d - 1) / d

end WaitGc

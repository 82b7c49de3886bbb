/-
  WAITGC verification — the bitmap allocator of a key-value namespace (`bitmap.c`).

  The values of up to `SMALL_LENGTH` bytes go to the first half of the device, the
  longer ones to the second.  A bit of a bitmap stands for a piece of its half.
  `bitmap_find_next_zero_area` is the kernel's: it is a parameter.
-/
import WaitGc.Kv.Store

namespace WaitGc

open Outcome Function

/-- `LARGE_LENGTH` -/
def LARGE_LENGTH : ℕ := 4096

/-- The bits of `small_bitmap`. -/
def SMALL_BITS : ℕ := 600000 * 64

/-- The bits of `large_bitmap`. -/
def LARGE_BITS : ℕ := 300000 * 64

/-- A bit is written past the end of its bitmap. -/
inductive AllocFault where
  | bitmapOverrun
  deriving DecidableEq

/-- A bitmap, the number of its bits that are used, and where the search goes on. -/
structure KvBitmap where
  nbits : ℕ
  bits : ℕ → Bool
  lastPos : ℕ

/-- The static variables of `bitmap.c`. -/
structure BitmapAllocator where
  devSize : ℕ
  small : KvBitmap
  large : KvBitmap

/-- `bitmap_zero`, of a bitmap with room for `capacity` bits. -/
def bitmapZero (capacity nbits : ℕ) : Except AllocFault KvBitmap := do
  require (nbits ≤ capacity) .bitmapOverrun
  pure ⟨nbits, fun _ => false, 0⟩

/-- `bitmap_allocator_init` -/
def bitmapAllocatorInit (size : ℕ) : Except AllocFault BitmapAllocator := do
  let small ← bitmapZero SMALL_BITS (size / 2 / SMALL_LENGTH)
  let large ← bitmapZero LARGE_BITS (size / 2 / LARGE_LENGTH)
  pure ⟨size, small, large⟩

section allocate
variable (find : (ℕ → Bool) → ℕ → ℕ → ℕ)

/-- A bit is found and set.  `find bits nbits start` is the result of
    `bitmap_find_next_zero_area`. -/
def takeBit (capacity : ℕ) (b : KvBitmap) : Except AllocFault (ℕ × KvBitmap) := do
  let off := find b.bits b.nbits b.lastPos
  require (off < capacity) .bitmapOverrun
  let lastPos := u64 (off + 1)
  pure (off, { b with bits := update b.bits off true, lastPos := if b.nbits < lastPos then 0 else lastPos })

/-- `bitmap_allocate` -/
def bitmapAllocate (s : BitmapAllocator) (length : ℕ) : Except AllocFault (ℕ × BitmapAllocator) :=
  if SMALL_LENGTH < length then do
    let (off, large) ← takeBit find LARGE_BITS s.large
    pure (u64 (s.devSize / 2 + off * LARGE_LENGTH), { s with large })
  else do
    let (off, small) ← takeBit find SMALL_BITS s.small
    pure (u64 (off * SMALL_LENGTH), { s with small })

end allocate

end WaitGc

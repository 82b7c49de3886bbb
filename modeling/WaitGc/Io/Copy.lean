/-
  WAITGC verification — the data copy of an I/O worker (`__do_perform_io`).

  The namespace is the array of its bytes behind `mapped`, with 64-bit
  offsets.  The host's side of a transfer is its memory and the page addresses
  of the command, those that `prp1`, `prp2` and the list behind it give.

  `performWrite_apply`: the copy of a write is one range of bytes, whatever the
  pages.
-/
import WaitGc.Ftl.Commands

namespace WaitGc

def PAGE_SIZE : ℕ := 4096

/-- `__cmd_io_offset` -/
def cmdIoOffset (slba : ℕ) : ℕ := u64 (slba <<< LBA_BITS)

/-- The host's side of a transfer: the address each turn of the loop takes, and the
    memory. -/
structure HostData where
  paddr : ℕ → ℕ
  mem : ℕ → ℕ

/-- `io_size` of the `n`-th turn. -/
def HostData.ioSize (h : HostData) (n remaining : ℕ) : ℕ :=
  let memOffs := h.paddr n % PAGE_SIZE
  if PAGE_SIZE < min remaining PAGE_SIZE + memOffs then PAGE_SIZE - memOffs else min remaining PAGE_SIZE

/-- `memcpy(mapped + offset, src, size)`; the address wraps at 64 bits. -/
def memcpy (storage : ℕ → ℕ) (offset : ℕ) (src : ℕ → ℕ) (size : ℕ) : ℕ → ℕ :=
  fun j => if j < 2 ^ 64 ∧ sub64 j offset < size then src (sub64 j offset) else storage j

/-- The loop of `__do_perform_io`, for a write; a turn copies at least one byte. -/
def HostData.performWrite (h : HostData) : ℕ → ℕ → ℕ → ℕ → (ℕ → ℕ) → ℕ → ℕ
  | 0, _, _, _, storage => storage
  | fuel + 1, n, offset, remaining, storage =>
    if remaining = 0 then storage
    else
      let ioSize := h.ioSize n remaining
      h.performWrite fuel (n + 1) (u64 (offset + ioSize)) (remaining - ioSize)
        (memcpy storage offset (fun k => h.mem (h.paddr n + k)) ioSize)

/-- The `k`-th byte of a transfer, from the `n`-th page on. -/
def HostData.byte (h : HostData) : ℕ → ℕ → ℕ → ℕ → ℕ
  | 0, _, _, _ => 0
  | fuel + 1, n, remaining, k =>
    let ioSize := h.ioSize n remaining
    if k < ioSize then h.mem (h.paddr n + k)
    else h.byte fuel (n + 1) (remaining - ioSize) (k - ioSize)

/-- The data of a write of `size` bytes. -/
def HostData.data (h : HostData) (size k : ℕ) : ℕ := h.byte size 0 size k

/-- `__do_perform_io`, for a write of `size` bytes. -/
def HostData.write (h : HostData) (slba size : ℕ) (storage : ℕ → ℕ) : ℕ → ℕ :=
  h.performWrite size 0 (cmdIoOffset slba) size storage

/-- The loop of `__do_perform_io`, for a read: the `k`-th byte it copies to the host,
    from the `n`-th page on. -/
def HostData.performRead (h : HostData) (storage : ℕ → ℕ) : ℕ → ℕ → ℕ → ℕ → ℕ → ℕ
  | 0, _, _, _, _ => 0
  | fuel + 1, n, offset, remaining, k =>
    let ioSize := h.ioSize n remaining
    if k < ioSize then storage (u64 (offset + k))
    else h.performRead storage fuel (n + 1) (u64 (offset + ioSize)) (remaining - ioSize) (k - ioSize)

/-- `__do_perform_io`, for a read of `size` bytes. -/
def HostData.read (h : HostData) (slba size : ℕ) (storage : ℕ → ℕ) : ℕ → ℕ :=
  h.performRead storage size 0 (cmdIoOffset slba) size

/-- The copy of a transfer touches the byte `j` of the namespace. -/
def Touches (slba size j : ℕ) : Prop := j < 2 ^ 64 ∧ sub64 j (cmdIoOffset slba) < size

instance (slba size j : ℕ) : Decidable (Touches slba size j) := inferInstanceAs (Decidable (_ ∧ _))

/-! ## The copy as one range -/

theorem HostData.ioSize_pos (h : HostData) (n : ℕ) {remaining : ℕ} (hr : remaining ≠ 0) :
    0 < h.ioSize n remaining := by
  have hmod : h.paddr n % PAGE_SIZE < PAGE_SIZE := Nat.mod_lt _ (by decide)
  unfold ioSize
  dsimp only
  rw [show PAGE_SIZE = 4096 from rfl] at *
  split_ifs <;> omega

theorem HostData.ioSize_le (h : HostData) (n remaining : ℕ) : h.ioSize n remaining ≤ remaining := by
  unfold ioSize
  dsimp only
  split_ifs <;> omega

/-- Two turns: the second range starts where the first ends. -/
theorem sub64_add {j offset n : ℕ} (hj : j < 2 ^ 64) (ho : offset < 2 ^ 64) (hn : n ≤ 2 ^ 32)
    (h : n ≤ sub64 j offset) : sub64 j (u64 (offset + n)) = sub64 j offset - n := by
  unfold sub64 u64 at *
  omega

theorem sub64_add_lt {j offset n : ℕ} (hj : j < 2 ^ 64) (ho : offset < 2 ^ 64) (hn : n ≤ 2 ^ 32)
    (h : sub64 j offset < n) : 2 ^ 64 - n ≤ sub64 j (u64 (offset + n)) := by
  unfold sub64 u64 at *
  omega

/-- **The copy of a write**: byte `k` of the transfer goes to the byte `offset + k` of
    the namespace, and no other byte changes. -/
theorem HostData.performWrite_apply (h : HostData) :
    ∀ (fuel n offset remaining : ℕ) (storage : ℕ → ℕ) (j : ℕ), remaining ≤ fuel →
      remaining ≤ 2 ^ 32 → offset < 2 ^ 64 →
      h.performWrite fuel n offset remaining storage j =
        if j < 2 ^ 64 ∧ sub64 j offset < remaining then h.byte fuel n remaining (sub64 j offset)
        else storage j := by
  intro fuel
  induction fuel with
  | zero =>
    intro n offset remaining storage j hf _ _
    rw [performWrite, if_neg (by omega)]
  | succ fuel ih =>
    intro n offset remaining storage j hf hr ho
    rw [performWrite]
    by_cases h0 : remaining = 0
    · rw [if_pos h0, if_neg (by omega)]
    rw [if_neg h0]
    have hpos := h.ioSize_pos n h0
    have hle := h.ioSize_le n remaining
    rw [byte]
    generalize h.ioSize n remaining = ioSize at *
    have hu : u64 (offset + ioSize) < 2 ^ 64 := Nat.mod_lt _ (by decide)
    rw [ih (n + 1) (u64 (offset + ioSize)) (remaining - ioSize) _ j (by omega) (by omega) hu]
    by_cases hj : j < 2 ^ 64
    · by_cases hk : sub64 j offset < ioSize
      · -- the byte is in this turn, and in no later one
        have hlate := sub64_add_lt hj ho (by omega) hk
        rw [if_neg (by omega), memcpy, if_pos ⟨hj, hk⟩, if_pos ⟨hj, by omega⟩, if_pos hk]
      · have hnext := sub64_add hj ho (by omega) (Nat.le_of_not_lt hk)
        have hkeep : memcpy storage offset (fun k => h.mem (h.paddr n + k)) ioSize j = storage j :=
          if_neg fun hc => hk hc.2
        rw [hnext, hkeep, if_neg hk]
        by_cases hin : sub64 j offset < remaining
        · rw [if_pos ⟨hj, by omega⟩, if_pos ⟨hj, hin⟩]
        · rw [if_neg (by omega), if_neg (by omega)]
    · rw [if_neg (fun hc => hj hc.1), memcpy, if_neg (fun hc => hj hc.1), if_neg (fun hc => hj hc.1)]

/-- The copy of a command. -/
theorem HostData.write_apply (h : HostData) {slba size : ℕ} (hsize : size ≤ 2 ^ 32)
    (storage : ℕ → ℕ) (j : ℕ) :
    h.write slba size storage j =
      if Touches slba size j then h.data size (sub64 j (cmdIoOffset slba)) else storage j :=
  h.performWrite_apply size 0 _ size storage j le_rfl hsize (Nat.mod_lt _ (by decide))

/-- **The copy of a read**: byte `k` of the transfer is the byte `offset + k` of the
    namespace. -/
theorem HostData.performRead_apply (h : HostData) (storage : ℕ → ℕ) :
    ∀ (fuel n offset remaining k : ℕ), remaining ≤ fuel → k < remaining →
      h.performRead storage fuel n offset remaining k = storage (u64 (offset + k)) := by
  intro fuel
  induction fuel with
  | zero => intro n offset remaining k hf hk; omega
  | succ fuel ih =>
    intro n offset remaining k hf hk
    have hpos := h.ioSize_pos n (by omega : remaining ≠ 0)
    have hle := h.ioSize_le n remaining
    rw [performRead]
    generalize h.ioSize n remaining = ioSize at *
    by_cases hin : k < ioSize
    · rw [if_pos hin]
    · rw [if_neg hin, ih _ _ _ _ (by omega) (by omega)]
      congr 1
      unfold u64
      omega

theorem HostData.read_apply (h : HostData) {slba size k : ℕ} (storage : ℕ → ℕ) (hk : k < size) :
    h.read slba size storage k = storage (u64 (cmdIoOffset slba + k)) :=
  h.performRead_apply storage size 0 _ size k le_rfl hk

theorem touches_iff {slba size j : ℕ} (hsize : size ≤ 2 ^ 32) :
    Touches slba size j ↔ ∃ k, k < size ∧ j = u64 (cmdIoOffset slba + k) := by
  have ho : cmdIoOffset slba < 2 ^ 64 := Nat.mod_lt _ (by decide)
  constructor
  · rintro ⟨hj, hk⟩
    refine ⟨_, hk, ?_⟩
    unfold sub64 u64
    omega
  · rintro ⟨k, hk, rfl⟩
    refine ⟨Nat.mod_lt _ (by decide), ?_⟩
    unfold sub64 u64
    omega

end WaitGc

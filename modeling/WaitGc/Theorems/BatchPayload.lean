/-
  WAITGC verification — the parsing of a batch payload.

  `batch_parse_safe_iff`: `__do_perform_kv_batch` checks nothing that it reads.
  It stays in its buffers exactly if every sub-command that the count byte names
  has an attribute, a key and a value that fit.
-/
import WaitGc.Kv.Batch
import Mathlib.Algebra.BigOperators.Group.Finset.Basic

namespace WaitGc

open Outcome Finset

variable {τ : Type} {buffer : ℕ → ℕ} {length i : ℕ}

/-! ## Payloads that fit -/

/-- The multiples of 64 bytes that hold `n` bytes, at least one. -/
def room (n : ℕ) : ℕ := ((n - 1) / 64 + 1) * 64

def keySizeAt (buffer : ℕ → ℕ) (i : ℕ) : ℕ := (batchAttr buffer i).keySize.toNat

def valueSizeAt (buffer : ℕ → ℕ) (i : ℕ) : ℕ := (batchAttr buffer i).valueSize.toNat

/-- What sub-command `i` takes of the payload. -/
def subRoom (buffer : ℕ → ℕ) (i : ℕ) : ℕ := room (keySizeAt buffer i) + room (valueSizeAt buffer i) + 64

/-- Where the key of sub-command `i` is, from `sub_payload` on. -/
def keyOffset (buffer : ℕ → ℕ) (i : ℕ) : ℕ := 64 + ∑ j ∈ range i, subRoom buffer j

/-- Sub-command `i` fits: it has an attribute among the bytes, its key and its value have at
    most the sizes of the buffers, and their bytes were copied. -/
structure SubFits (buffer : ℕ → ℕ) (length i : ℕ) : Prop where
  index : i < 8
  attr : 16 * i + 8 ≤ length
  key : keySizeAt buffer i ≤ 20
  value : valueSizeAt buffer i ≤ 4097
  keyIn : keySizeAt buffer i = 0 ∨ 512 + keyOffset buffer i + keySizeAt buffer i ≤ length
  valueIn : valueSizeAt buffer i = 0 ∨
    512 + keyOffset buffer i + room (keySizeAt buffer i) + valueSizeAt buffer i ≤ length

/-- All the sub-commands that the count names fit. -/
def PayloadFits (cmd : KvBatchCommand) : Prop :=
  ∀ i < cmd.subCmdCnt.toNat, SubFits cmd.buffer cmd.length i

/-- The parsing stays in its buffers: it ends without a fault. -/
def StaysInside (perform : τ → SubCommand → τ) (s : τ) (cmd : KvBatchCommand) : Prop :=
  ∃ s', doPerformKvBatch perform s cmd = .ok s'

/-! ## The arithmetic of `int` -/

theorem cInt_of_range {n : ℤ} (h : -2 ^ 31 ≤ n ∧ n < 2 ^ 31) : cInt n = .ok n := by
  rw [cInt, require_pos h, ok_bind]
  rfl

theorem alignLen_eq {n : ℕ} (h : n ≤ 4097) : alignLen n = .ok (room n) := by
  have hlast : cInt ((n : ℤ) - 1) = .ok ((n : ℤ) - 1) := cInt_of_range (by omega)
  have hroom : (((n : ℤ) - 1).tdiv ALIGN_LEN + 1) * ALIGN_LEN = (room n : ℕ) := by
    show (((n : ℤ) - 1).tdiv 64 + 1) * 64 = (room n : ℕ)
    unfold room
    obtain rfl | hpos := Nat.eq_zero_or_pos n
    · rfl
    · rw [Int.tdiv_eq_ediv_of_nonneg (by omega)]
      omega
  rw [alignLen, hlast, ok_bind, hroom]
  refine cInt_of_range ?_
  unfold room
  omega

theorem sizeOfInt_natCast {n : ℕ} (h : n < 2 ^ 32) : sizeOfInt n = n := by
  unfold sizeOfInt
  omega

/-- A size that `value` holds is not negative as an `int`. -/
theorem toInt_of_sizeOfInt_le {v : BitVec 32} (h : sizeOfInt v.toInt ≤ VALUE_BUFFER) :
    v.toNat ≤ 4097 := by
  have hlt := v.isLt
  have hbuffer : VALUE_BUFFER = 4097 := rfl
  rw [BitVec.toInt_eq_toNat_cond] at h
  unfold sizeOfInt at h
  split_ifs at h <;> omega

theorem toInt_of_small {v : BitVec 32} (h : v.toNat ≤ 4097) : v.toInt = v.toNat := by
  rw [BitVec.toInt_eq_toNat_cond, if_pos (by omega)]

/-! ## A sub-command -/

theorem room_le {n b : ℕ} (h : n ≤ b) : room n ≤ b + 64 := by
  unfold room
  omega

theorem keyOffset_succ (buffer : ℕ → ℕ) (i : ℕ) :
    keyOffset buffer (i + 1) = keyOffset buffer i + subRoom buffer i := by
  rw [keyOffset, sum_range_succ, ← Nat.add_assoc]
  rfl

theorem keyOffset_le (h : ∀ j < i, SubFits buffer length j) : keyOffset buffer i ≤ 64 + 4309 * i := by
  induction i with
  | zero => simp [keyOffset]
  | succ i ih =>
    have hprefix := ih fun j hj => h j (hj.trans (Nat.lt_succ_self i))
    have hi := h i (Nat.lt_succ_self i)
    have hkey := room_le hi.key
    have hvalue := room_le hi.value
    rw [keyOffset_succ, subRoom]
    omega

theorem inBuffer_iff {offset n : ℕ} : InBuffer length offset n ↔ n = 0 ∨ 512 + offset + n ≤ length := by
  have hhead : SUB_PAYLOAD = 512 := rfl
  unfold InBuffer
  omega

/-- **A sub-command that fits is read**, and the next one is expected behind it. -/
theorem SubFits.read (h : SubFits buffer length i) (hbefore : ∀ j < i, SubFits buffer length j) :
    ∃ sub, readSubCommand buffer length i (keyOffset buffer i) = .ok (sub, (keyOffset buffer (i + 1) : ℕ)) := by
  have hoffset := keyOffset_le hbefore
  have hindex := h.index
  have hkey := h.key
  have hvalue := h.value
  have hkeyRoom := room_le hkey
  have hvalueRoom := room_le hvalue
  have hsucc := keyOffset_succ buffer i
  have hsub : subRoom buffer i = room (keySizeAt buffer i) + room (valueSizeAt buffer i) + 64 := rfl
  have hint : (batchAttr buffer i).valueSize.toInt = (valueSizeAt buffer i : ℕ) := toInt_of_small hvalue
  have hnext : (keyOffset buffer i : ℤ) + (room (keySizeAt buffer i) + room (valueSizeAt buffer i) + ALIGN_LEN) =
      (keyOffset buffer (i + 1) : ℕ) := by
    have halign : ALIGN_LEN = 64 := rfl
    omega
  have hsize : sizeOfInt (keySizeAt buffer i : ℕ) ≤ KEY_BUFFER := (sizeOfInt_natCast (by omega)).trans_le hkey
  have hsize' : sizeOfInt (valueSizeAt buffer i : ℕ) ≤ VALUE_BUFFER := (sizeOfInt_natCast (by omega)).trans_le hvalue
  unfold readSubCommand
  rw [require_pos (show i < MAX_SUB_CMD from hindex), ok_bind, require_pos h.attr, ok_bind]
  dsimp only
  rw [hint, show (batchAttr buffer i).keySize.toNat = keySizeAt buffer i from rfl,
    alignLen_eq (by omega), ok_bind, alignLen_eq hvalue, ok_bind, cInt_of_range (by omega), ok_bind,
    cInt_of_range (by unfold ALIGN_LEN; omega), ok_bind, require_pos hsize, ok_bind,
    require_pos (inBuffer_iff.2 h.keyIn), ok_bind, require_pos hsize', ok_bind, ← Nat.cast_add,
    require_pos (inBuffer_iff.2 (by rw [← Nat.add_assoc]; exact h.valueIn)), ok_bind, hnext,
    require_pos (by omega), ok_bind]
  exact ⟨_, rfl⟩

theorem SubFits.of_read {r : SubCommand × ℤ}
    (h : readSubCommand buffer length i (keyOffset buffer i) = .ok r) : SubFits buffer length i := by
  unfold readSubCommand at h
  dsimp only at h
  obtain ⟨_, hindex, h⟩ := bind_eq_ok h
  obtain ⟨_, hattr, h⟩ := bind_eq_ok h
  obtain ⟨keyRoom, hkeyRoom, h⟩ := bind_eq_ok h
  obtain ⟨valRoom, hvalRoom, h⟩ := bind_eq_ok h
  obtain ⟨_, _, h⟩ := bind_eq_ok h
  obtain ⟨_, _, h⟩ := bind_eq_ok h
  obtain ⟨_, hkey, h⟩ := bind_eq_ok h
  obtain ⟨_, hkeyIn, h⟩ := bind_eq_ok h
  obtain ⟨_, hvalue, h⟩ := bind_eq_ok h
  obtain ⟨_, hvalueIn, -⟩ := bind_eq_ok h
  have hkeySize : keySizeAt buffer i ≤ 20 := by
    have hsize := of_require_eq_ok hkey
    rwa [sizeOfInt_natCast (by have := (batchAttr buffer i).keySize.isLt; omega)] at hsize
  have hvalueSize : valueSizeAt buffer i ≤ 4097 := toInt_of_sizeOfInt_le (of_require_eq_ok hvalue)
  have hroom : (room (keySizeAt buffer i) : ℤ) = keyRoom :=
    Except.ok.inj ((alignLen_eq (by omega)).symm.trans hkeyRoom)
  have hkeyIn := of_require_eq_ok hkeyIn
  have hvalueIn := of_require_eq_ok hvalueIn
  rw [toInt_of_small hvalueSize, ← hroom, ← Nat.cast_add] at hvalueIn
  exact ⟨of_require_eq_ok hindex, of_require_eq_ok hattr, hkeySize, hvalueSize, inBuffer_iff.1 hkeyIn,
    (inBuffer_iff.1 hvalueIn).imp_right fun hle => by rw [Nat.add_assoc 512]; exact hle⟩

/-! ## All sub-commands -/

/-- **The loop**, from a sub-command on whose predecessors fit. -/
theorem subCommandLoop_iff (perform : τ → SubCommand → τ) {count : ℕ} (s : τ)
    (hbefore : ∀ j < i, SubFits buffer length j) :
    (∃ s', subCommandLoop perform buffer length count i (keyOffset buffer i) s = .ok s') ↔
      ∀ j < i + count, SubFits buffer length j := by
  induction count generalizing i s with
  | zero => exact iff_of_true ⟨s, rfl⟩ hbefore
  | succ count ih =>
    rw [subCommandLoop]
    constructor
    · rintro ⟨s', h⟩
      obtain ⟨r, hr, h⟩ := bind_eq_ok h
      have hfit := SubFits.of_read hr
      obtain ⟨sub, hsub⟩ := hfit.read hbefore
      obtain rfl := Except.ok.inj (hsub.symm.trans hr)
      have hbefore' : ∀ j < i + 1, SubFits buffer length j := fun j hj =>
        (Nat.lt_succ_iff_lt_or_eq.1 hj).elim (hbefore j) fun heq => heq ▸ hfit
      rw [← Nat.add_assoc, Nat.add_right_comm]
      exact (ih _ hbefore').1 ⟨s', h⟩
    · intro hall
      obtain ⟨sub, hsub⟩ := (hall i (by omega)).read hbefore
      rw [hsub, ok_bind]
      exact (ih _ fun j hj => hall j (by omega)).2 fun j hj => hall j (by omega)

/-- **The parsing stays in its buffers** exactly if all sub-commands fit. -/
theorem batch_parse_safe_iff (perform : τ → SubCommand → τ) (s : τ) (cmd : KvBatchCommand) :
    StaysInside perform s cmd ↔ PayloadFits cmd := by
  have hloop := @subCommandLoop_iff τ cmd.buffer cmd.length 0 perform cmd.subCmdCnt.toNat s
    fun j hj => absurd hj (Nat.not_lt_zero j)
  rw [Nat.zero_add] at hloop
  exact hloop

/-- One sub-command in 1024 bytes of one page, with a key of 200 bytes. -/
def longKey : KvBatchCommand := ⟨1, 256, ⟨fun _ => 0, fun j => if j = 1 then 200 else 0⟩⟩

/-- The copy of the key writes 180 bytes past the end of `key`. -/
theorem batch_parse_longKey : ¬ StaysInside (fun n _ => n + 1) 0 longKey := by
  have hmap : (readSubCommand longKey.buffer longKey.length 0 ALIGN_LEN).map (fun _ => ()) =
      .error .keyOverrun := by decide +kernel
  rintro ⟨s', h⟩
  obtain ⟨r, hr, -⟩ := bind_eq_ok h
  rw [hr] at hmap
  cases hmap

end WaitGc

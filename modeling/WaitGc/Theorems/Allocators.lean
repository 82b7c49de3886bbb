/-
  WAITGC verification — the extents that the allocators of a key-value namespace hand out.

  `kv_extents_apart`: they lie in the device and apart, as long as the device has
  room for them.  Neither allocator says that it has not.
-/
import WaitGc.Kv.Alloc
import WaitGc.Lib.Extent

namespace WaitGc

open Outcome Function

/-- An allocator and the extents that it has handed out, the last one first. -/
structure Handed (σ : Type) where
  alloc : σ
  extents : List Extent

/-- A call that returns -1 hands out nothing. -/
def handOut (extents : List Extent) (offset length : ℕ) : List Extent :=
  if offset = NO_OFFSET then extents else ⟨offset, length⟩ :: extents

/-- The calls of an allocator, by their lengths. -/
def allocMachine {σ : Type} (allocate : σ → ℕ → Except AllocFault (ℕ × σ)) :
    Machine (Handed σ) ℕ AllocFault where
  step s length := do
    let (offset, alloc) ← allocate s.alloc length
    pure ⟨alloc, handOut s.extents offset length⟩

/-- The calls of `append_only_allocate`. -/
def appendMachine : Machine (Handed ℕ) ℕ AllocFault :=
  allocMachine fun latest length => .ok (appendOnly.allocate latest length)

/-- What `append_only_allocate` hands out. -/
def appendOnlyExtents (lengths : List ℕ) : Except AllocFault (List Extent) :=
  (appendMachine.run ⟨appendOnly.init, []⟩ lengths).map Handed.extents

/-- What `bitmap_allocate` hands out. -/
def bitmapExtents (find : (ℕ → Bool) → ℕ → ℕ → ℕ) (devSize : ℕ) (lengths : List ℕ) :
    Except AllocFault (List Extent) := do
  let s ← bitmapAllocatorInit devSize
  ((allocMachine (bitmapAllocate find)).run ⟨s, []⟩ lengths).map Handed.extents

/-- The result of `bitmap_find_next_zero_area`: the first clear bit, or too large a number. -/
structure FindsClearBit (find : (ℕ → Bool) → ℕ → ℕ → ℕ) : Prop where
  found : ∀ bits nbits start, (∃ i, start ≤ i ∧ i < nbits ∧ bits i = false) →
    start ≤ find bits nbits start ∧ find bits nbits start < nbits ∧
      bits (find bits nbits start) = false ∧ ∀ i, start ≤ i → i < find bits nbits start → bits i = true
  none : ∀ bits nbits start, (∀ i, start ≤ i → i < nbits → bits i = true) → nbits ≤ find bits nbits start

/-- The kernel's result if there is none: the number after the end. -/
def FindsBeyond (find : (ℕ → Bool) → ℕ → ℕ → ℕ) : Prop :=
  ∀ bits nbits start, (∀ i, start ≤ i → i < nbits → bits i = true) → nbits < find bits nbits start

/-- The extents lie in the device, and apart. -/
structure Separate (devSize : ℕ) (extents : List Extent) : Prop where
  inside : ∀ e ∈ extents, e.stop ≤ devSize
  apart : extents.Pairwise Extent.Apart

/-- The small ones lie in the first half. -/
def SmallBelow (devSize : ℕ) (extents : List Extent) : Prop :=
  ∀ e ∈ extents, e.length ≤ SMALL_LENGTH → e.stop ≤ devSize / 2

variable {σ : Type} {allocate : σ → ℕ → Except AllocFault (ℕ × σ)} {find : (ℕ → Bool) → ℕ → ℕ → ℕ}
  {devSize offset n k m : ℕ} {lengths : List ℕ} {extents : List Extent} {e : Extent} {b : KvBitmap}

/-! ## One call -/

theorem allocMachine_step {s : Handed σ} {a : σ} (h : allocate s.alloc n = .ok (offset, a)) :
    (allocMachine allocate).step s n = .ok ⟨a, handOut s.extents offset n⟩ := by
  show allocate s.alloc n >>= _ = _
  rw [h]
  rfl

theorem mem_handOut (h : e ∈ handOut extents offset n) : e ∈ extents ∨ e = ⟨offset, n⟩ := by
  unfold handOut at h
  split_ifs at h
  · exact .inl h
  · exact (List.mem_cons.1 h).symm

/-- **An extent is handed out** behind the others, or between them. -/
theorem Separate.handOut (h : Separate devSize extents) (hin : offset + n ≤ devSize)
    (hap : ∀ e ∈ extents, Extent.Apart ⟨offset, n⟩ e) : Separate devSize (handOut extents offset n) where
  inside e he := by
    rcases mem_handOut he with he | rfl
    · exact h.inside e he
    · exact hin
  apart := by
    unfold WaitGc.handOut
    split_ifs
    · exact h.apart
    · exact .cons hap h.apart

theorem extents_subset {s s' : Handed σ} (h : (allocMachine allocate).run s lengths = .ok s') :
    s.extents ⊆ s'.extents := by
  refine Machine.run_rel (I := fun _ => True) (C := fun _ _ => True)
    (R := fun s s' : Handed σ => s.extents ⊆ s'.extents) (fun _ => List.Subset.refl _)
    (fun _ _ _ => List.Subset.trans) ?_ trivial (Machine.along_true s lengths) h
  intro s n s' _ _ hstep
  obtain ⟨⟨offset, a⟩, -, hs'⟩ := bind_eq_ok hstep
  cases hs'
  refine ⟨trivial, fun e he => ?_⟩
  show e ∈ handOut s.extents offset n
  unfold handOut
  split_ifs
  · exact he
  · exact List.mem_cons_of_mem _ he

/-! ## The append-only allocator -/

theorem appendMachine_step (s : Handed ℕ) (n : ℕ) :
    appendMachine.step s n = .ok ⟨u64 (s.alloc + n), handOut s.extents s.alloc n⟩ := rfl

/-- **All that fits** is handed out in order. -/
theorem appendMachine_run (hsize : devSize < 2 ^ 64) : ∀ {lengths : List ℕ} {s : Handed ℕ},
    Separate devSize s.extents → (∀ e ∈ s.extents, e.stop ≤ s.alloc) → s.alloc + lengths.sum ≤ devSize →
    ∃ s', appendMachine.run s lengths = .ok s' ∧ Separate devSize s'.extents
  | [], s, hsep, _, _ => ⟨s, rfl, hsep⟩
  | n :: lengths, s, hsep, hstop, hsum => by
    rw [List.sum_cons] at hsum
    have hlatest : u64 (s.alloc + n) = s.alloc + n := Nat.mod_eq_of_lt (by omega)
    rw [Machine.run_cons, appendMachine_step, ok_bind, hlatest]
    refine appendMachine_run hsize (hsep.handOut (by omega) fun e he => .inr (hstop e he)) ?_ ?_
    · intro e he
      rcases mem_handOut he with he | rfl
      · exact (hstop e he).trans (Nat.le_add_right _ _)
      · exact le_rfl
    · show s.alloc + n + lengths.sum ≤ devSize
      omega

/-- **The first extent that does not fit** is handed out all the same. -/
theorem appendMachine_overrun (hsize : devSize < NO_OFFSET) : ∀ {lengths : List ℕ} {s s' : Handed ℕ},
    s.alloc ≤ devSize → devSize < s.alloc + lengths.sum → appendMachine.run s lengths = .ok s' →
    ∃ e ∈ s'.extents, devSize < e.stop
  | [], s, s', hle, hsum, _ => absurd hsum (by rw [List.sum_nil]; omega)
  | n :: lengths, s, s', hle, hsum, hrun => by
    rw [List.sum_cons] at hsum
    rw [Machine.run_cons, appendMachine_step, ok_bind] at hrun
    by_cases hfit : s.alloc + n ≤ devSize
    · have hlatest : u64 (s.alloc + n) = s.alloc + n :=
        Nat.mod_eq_of_lt (by unfold NO_OFFSET at hsize; omega)
      rw [hlatest] at hrun
      exact appendMachine_overrun hsize hfit (by dsimp only; omega) hrun
    · refine ⟨⟨s.alloc, n⟩, extents_subset hrun ?_, Nat.lt_of_not_le hfit⟩
      show _ ∈ handOut s.extents s.alloc n
      rw [handOut, if_neg (by omega)]
      exact List.mem_cons_self

/-! ## The bitmaps -/

/-- The first `k` bits are set, and the search goes on behind them. -/
structure KvBitmap.Filled (b : KvBitmap) (k : ℕ) : Prop where
  lastPos : b.lastPos = k
  le : k ≤ b.nbits
  bits : ∀ i, i < b.nbits → (b.bits i = true ↔ i < k)

theorem bitmapZero_ok {capacity nbits : ℕ} (h : nbits ≤ capacity) :
    ∃ b, bitmapZero capacity nbits = .ok b ∧ b.nbits = nbits ∧ b.Filled 0 := by
  refine ⟨⟨nbits, fun _ => false, 0⟩, ?_, rfl, rfl, Nat.zero_le _, fun i _ => ?_⟩
  · rw [bitmapZero, require_pos h]
    rfl
  · exact iff_of_false Bool.false_ne_true (Nat.not_lt_zero i)

/-- **The next bit** is taken, as long as there is one. -/
theorem KvBitmap.Filled.take {capacity : ℕ} (hfind : FindsClearBit find) (h : b.Filled k) (hk : k < b.nbits)
    (hcap : b.nbits ≤ capacity) (hsmall : capacity < 2 ^ 64) :
    ∃ b', takeBit find capacity b = .ok (k, b') ∧ b'.nbits = b.nbits ∧ b'.Filled (k + 1) := by
  have hclear : b.bits k = false := by
    rw [← Bool.not_eq_true, h.bits k hk]
    exact Nat.lt_irrefl k
  have hoff : find b.bits b.nbits b.lastPos = k := by
    obtain ⟨hle, hlt, hbit, hfirst⟩ :=
      hfind.found b.bits b.nbits b.lastPos ⟨k, h.lastPos.le, hk, hclear⟩
    rw [h.lastPos] at hle hlt hbit hfirst ⊢
    refine le_antisymm ?_ hle
    by_contra hgt
    rw [hfirst k le_rfl (Nat.lt_of_not_le hgt)] at hclear
    cases hclear
  have hpos : u64 (k + 1) = k + 1 := Nat.mod_eq_of_lt (by omega)
  refine ⟨{ b with bits := update b.bits k true, lastPos := k + 1 }, ?_, rfl, rfl, hk, fun i hi => ?_⟩
  · unfold takeBit
    rw [hoff]
    dsimp only
    rw [require_pos (by omega), ok_bind, hpos, if_neg (by omega)]
    rfl
  · show update b.bits k true i = true ↔ i < k + 1
    by_cases hik : i = k
    · subst hik
      rw [update_self]
      exact iff_of_true rfl (Nat.lt_succ_self i)
    · rw [update_of_ne hik, h.bits i hi]
      omega

/-- **A full bitmap** has no next bit. -/
theorem KvBitmap.Filled.find_full (hbeyond : FindsBeyond find) (h : b.Filled b.nbits) :
    b.nbits < find b.bits b.nbits b.lastPos :=
  hbeyond _ _ _ fun i _ hi => (h.bits i hi).2 hi

theorem takeBit_ok {capacity off : ℕ} {b' : KvBitmap} (h : takeBit find capacity b = .ok (off, b')) :
    off = find b.bits b.nbits b.lastPos ∧ off < capacity := by
  unfold takeBit at h
  obtain ⟨_, hcap, h⟩ := bind_eq_ok h
  cases h
  exact ⟨rfl, of_require_eq_ok hcap⟩

/-! ## The bitmap allocator -/

/-- The extent is in one of the first `k` pieces of the first half. -/
def SmallPiece (k : ℕ) (e : Extent) : Prop :=
  e.length ≤ SMALL_LENGTH ∧ ∃ i < k, e.start = i * SMALL_LENGTH

/-- The extent is in one of the first `m` pieces of the second half. -/
def LargePiece (devSize m : ℕ) (e : Extent) : Prop :=
  SMALL_LENGTH < e.length ∧ e.length ≤ LARGE_LENGTH ∧ ∃ i < m, e.start = devSize / 2 + i * LARGE_LENGTH

/-- `k` small and `m` large extents have been handed out. -/
structure BitmapInv (devSize : ℕ) (s : Handed BitmapAllocator) (k m : ℕ) : Prop where
  dev : s.alloc.devSize = devSize
  nbits : s.alloc.small.nbits = devSize / 2 / SMALL_LENGTH ∧ s.alloc.large.nbits = devSize / 2 / LARGE_LENGTH
  small : s.alloc.small.Filled k
  large : s.alloc.large.Filled m
  pieces : ∀ e ∈ s.extents, SmallPiece k e ∨ LargePiece devSize m e
  separate : Separate devSize s.extents

theorem SmallPiece.stop_le (h : SmallPiece k e) : e.stop ≤ k * SMALL_LENGTH := by
  obtain ⟨hle, i, hi, hstart⟩ := h
  rw [Extent.stop, hstart]
  unfold SMALL_LENGTH at hle ⊢
  omega

theorem LargePiece.stop_le (h : LargePiece devSize m e) : e.stop ≤ devSize / 2 + m * LARGE_LENGTH := by
  obtain ⟨-, hle, i, hi, hstart⟩ := h
  rw [Extent.stop, hstart]
  unfold LARGE_LENGTH at hle ⊢
  omega

theorem BitmapInv.smallBelow {s : Handed BitmapAllocator} (h : BitmapInv devSize s k m) :
    SmallBelow devSize s.extents := by
  intro e he hsmall
  have hk := h.small.le
  rw [h.nbits.1] at hk
  rcases h.pieces e he with hp | hp
  · have hstop := hp.stop_le
    unfold SMALL_LENGTH at hk hstop
    omega
  · exact absurd hp.1 (by omega)

section room
variable {s : Handed BitmapAllocator} (hfind : FindsClearBit find) (hsize : devSize < 2 ^ 64)
  (hbits : devSize / 2 / SMALL_LENGTH ≤ SMALL_BITS) (h : BitmapInv devSize s k m)
include hfind hsize hbits h

/-- **A small extent** is behind the small ones and before the large ones. -/
theorem BitmapInv.step_small (hn : n ≤ SMALL_LENGTH) (hk : k < devSize / 2 / SMALL_LENGTH) :
    ∃ s', (allocMachine (bitmapAllocate find)).step s n = .ok s' ∧ BitmapInv devSize s' (k + 1) m := by
  obtain ⟨b', htake, hnbits, hfilled⟩ := h.small.take hfind (by rwa [h.nbits.1])
    (by rwa [h.nbits.1]) (by decide : SMALL_BITS < 2 ^ 64)
  have hend : k * SMALL_LENGTH + n ≤ devSize / 2 := by
    unfold SMALL_LENGTH at hk hn ⊢
    omega
  have hoff : u64 (k * SMALL_LENGTH) = k * SMALL_LENGTH := Nat.mod_eq_of_lt (by omega)
  have hcall : bitmapAllocate find s.alloc n = .ok (k * SMALL_LENGTH, { s.alloc with small := b' }) := by
    rw [bitmapAllocate, if_neg (by omega), htake, ok_bind]
    dsimp only
    rw [hoff]
    rfl
  refine ⟨_, allocMachine_step hcall, ⟨h.dev, ⟨hnbits.trans h.nbits.1, h.nbits.2⟩, hfilled, h.large, ?_, ?_⟩⟩
  · intro e he
    rcases mem_handOut he with he | rfl
    · exact (h.pieces e he).imp_left fun ⟨hle, i, hi, hstart⟩ => ⟨hle, i, by omega, hstart⟩
    · exact .inl ⟨hn, k, Nat.lt_succ_self k, rfl⟩
  · refine h.separate.handOut (by omega) fun e he => ?_
    rcases h.pieces e he with hp | ⟨-, -, i, -, hstart⟩
    · exact .inr hp.stop_le
    · left
      rw [hstart]
      exact hend.trans (Nat.le_add_right _ _)

/-- **A large extent** is behind all others. -/
theorem BitmapInv.step_large (hn : SMALL_LENGTH < n) (hle : n ≤ LARGE_LENGTH)
    (hm : m < devSize / 2 / LARGE_LENGTH) :
    ∃ s', (allocMachine (bitmapAllocate find)).step s n = .ok s' ∧ BitmapInv devSize s' k (m + 1) := by
  have hcap : devSize / 2 / LARGE_LENGTH ≤ LARGE_BITS := by
    unfold SMALL_LENGTH SMALL_BITS at hbits
    unfold LARGE_LENGTH LARGE_BITS
    omega
  obtain ⟨b', htake, hnbits, hfilled⟩ := h.large.take hfind (by rwa [h.nbits.2])
    (by rwa [h.nbits.2]) (by decide : LARGE_BITS < 2 ^ 64)
  have hend : devSize / 2 + m * LARGE_LENGTH + n ≤ devSize := by
    unfold LARGE_LENGTH at hm hle ⊢
    omega
  have hoff : u64 (s.alloc.devSize / 2 + m * LARGE_LENGTH) = devSize / 2 + m * LARGE_LENGTH := by
    rw [h.dev]
    exact Nat.mod_eq_of_lt (by omega)
  have hcall : bitmapAllocate find s.alloc n =
      .ok (devSize / 2 + m * LARGE_LENGTH, { s.alloc with large := b' }) := by
    rw [bitmapAllocate, if_pos hn, htake, ok_bind]
    dsimp only
    rw [hoff]
    rfl
  refine ⟨_, allocMachine_step hcall, ⟨h.dev, ⟨h.nbits.1, hnbits.trans h.nbits.2⟩, h.small, hfilled, ?_, ?_⟩⟩
  · intro e he
    rcases mem_handOut he with he | rfl
    · exact (h.pieces e he).imp_right fun ⟨hlt, hle, i, hi, hstart⟩ => ⟨hlt, hle, i, by omega, hstart⟩
    · exact .inr ⟨hn, hle, m, Nat.lt_succ_self m, rfl⟩
  · refine h.separate.handOut hend fun e he => .inr ?_
    have hk := h.small.le
    rw [h.nbits.1] at hk
    rcases h.pieces e he with hp | hp
    · refine hp.stop_le.trans ?_
      unfold SMALL_LENGTH at hk ⊢
      dsimp only
      omega
    · exact hp.stop_le

end room

/-- **All that fits** is handed out. -/
theorem bitmapMachine_run (hfind : FindsClearBit find) (hsize : devSize < 2 ^ 64)
    (hbits : devSize / 2 / SMALL_LENGTH ≤ SMALL_BITS) : ∀ {lengths : List ℕ} {s : Handed BitmapAllocator} {k m : ℕ},
    (∀ n ∈ lengths, n ≤ LARGE_LENGTH) → BitmapInv devSize s k m →
    k + lengths.countP (· ≤ SMALL_LENGTH) ≤ devSize / 2 / SMALL_LENGTH →
    m + lengths.countP (SMALL_LENGTH < ·) ≤ devSize / 2 / LARGE_LENGTH →
    ∃ s', (allocMachine (bitmapAllocate find)).run s lengths = .ok s' ∧
      Separate devSize s'.extents ∧ SmallBelow devSize s'.extents
  | [], s, _, _, _, h, _, _ => ⟨s, rfl, h.separate, h.smallBelow⟩
  | n :: lengths, s, k, m, hle, h, hk, hm => by
    obtain ⟨hn, hle⟩ := List.forall_mem_cons.1 hle
    rw [List.countP_cons] at hk hm
    rw [Machine.run_cons]
    by_cases hsmall : n ≤ SMALL_LENGTH
    · rw [if_pos (by simpa using hsmall)] at hk
      rw [if_neg (by simpa using hsmall)] at hm
      obtain ⟨s', hs', h'⟩ := h.step_small hfind hsize hbits hsmall (by omega)
      rw [hs', ok_bind]
      exact bitmapMachine_run hfind hsize hbits hle h' (by omega) (by omega)
    · rw [if_neg (by simpa using hsmall)] at hk
      rw [if_pos (by simpa using hsmall)] at hm
      obtain ⟨s', hs', h'⟩ := h.step_large hfind hsize hbits (by omega) hn (by omega)
      rw [hs', ok_bind]
      exact bitmapMachine_run hfind hsize hbits hle h' (by omega) (by omega)

/-- The extent leaves its half. -/
def Runs (devSize : ℕ) (e : Extent) : Prop :=
  devSize < e.stop ∨ e.length ≤ SMALL_LENGTH ∧ devSize / 2 < e.stop

theorem not_runs (hsep : Separate devSize extents) (hbelow : SmallBelow devSize extents) (he : e ∈ extents) :
    ¬ Runs devSize e := by
  rintro (hstop | ⟨hsmall, hstop⟩)
  · exact absurd (hsep.inside e he) (Nat.not_le_of_lt hstop)
  · exact absurd (hbelow e he hsmall) (Nat.not_le_of_lt hstop)

theorem mem_handOut_new (h : offset < NO_OFFSET) : ⟨offset, n⟩ ∈ handOut extents offset n := by
  rw [handOut, if_neg (Nat.ne_of_lt h)]
  exact List.mem_cons_self

/-- **Once a half is full** the next extent leaves it. -/
theorem BitmapInv.step_full {s s' : Handed BitmapAllocator} (hbeyond : FindsBeyond find)
    (hsize : devSize < 2 ^ 64) (h : BitmapInv devSize s k m)
    (hfull : n ≤ SMALL_LENGTH ∧ k = devSize / 2 / SMALL_LENGTH ∨
      SMALL_LENGTH < n ∧ m = devSize / 2 / LARGE_LENGTH)
    (hstep : (allocMachine (bitmapAllocate find)).step s n = .ok s') : ∃ e ∈ s'.extents, Runs devSize e := by
  obtain ⟨⟨offset, a⟩, hcall, hs'⟩ := bind_eq_ok hstep
  cases hs'
  unfold bitmapAllocate at hcall
  rcases hfull with ⟨hn, hk⟩ | ⟨hn, hm⟩
  · rw [if_neg (by omega)] at hcall
    obtain ⟨⟨off, b'⟩, htake, hcall⟩ := bind_eq_ok hcall
    cases hcall
    obtain ⟨hoff, hcap⟩ := takeBit_ok htake
    have hb := h.small
    rw [hk, ← h.nbits.1] at hb
    have hlt := hb.find_full hbeyond
    rw [← hoff, h.nbits.1] at hlt
    unfold SMALL_BITS at hcap
    have heq : u64 (off * SMALL_LENGTH) = off * SMALL_LENGTH :=
      Nat.mod_eq_of_lt (by unfold SMALL_LENGTH; omega)
    refine ⟨⟨u64 (off * SMALL_LENGTH), n⟩, mem_handOut_new ?_, .inr ⟨hn, ?_⟩⟩
    · rw [heq]
      unfold SMALL_LENGTH NO_OFFSET
      omega
    · rw [Extent.stop, heq]
      unfold SMALL_LENGTH at hlt ⊢
      dsimp only
      omega
  · rw [if_pos hn] at hcall
    obtain ⟨⟨off, b'⟩, htake, hcall⟩ := bind_eq_ok hcall
    cases hcall
    obtain ⟨hoff, hcap⟩ := takeBit_ok htake
    have hb := h.large
    rw [hm, ← h.nbits.2] at hb
    have hlt := hb.find_full hbeyond
    rw [← hoff, h.nbits.2] at hlt
    unfold LARGE_BITS at hcap
    have heq : u64 (s.alloc.devSize / 2 + off * LARGE_LENGTH) = devSize / 2 + off * LARGE_LENGTH := by
      rw [h.dev]
      exact Nat.mod_eq_of_lt (by unfold LARGE_LENGTH; omega)
    refine ⟨⟨u64 (s.alloc.devSize / 2 + off * LARGE_LENGTH), n⟩, mem_handOut_new ?_, .inl ?_⟩
    · rw [heq]
      unfold LARGE_LENGTH NO_OFFSET
      omega
    · rw [Extent.stop, heq]
      unfold LARGE_LENGTH at hlt ⊢
      unfold SMALL_LENGTH at hn
      dsimp only
      omega

/-- **A run that goes on** hands out an extent that leaves its half. -/
theorem bitmapMachine_overrun (hfind : FindsClearBit find) (hbeyond : FindsBeyond find)
    (hsize : devSize < 2 ^ 64) (hbits : devSize / 2 / SMALL_LENGTH ≤ SMALL_BITS) :
    ∀ {lengths : List ℕ} {s s' : Handed BitmapAllocator} {k m : ℕ},
    (∀ n ∈ lengths, n ≤ LARGE_LENGTH) → BitmapInv devSize s k m →
    ¬ (k + lengths.countP (· ≤ SMALL_LENGTH) ≤ devSize / 2 / SMALL_LENGTH ∧
      m + lengths.countP (SMALL_LENGTH < ·) ≤ devSize / 2 / LARGE_LENGTH) →
    (allocMachine (bitmapAllocate find)).run s lengths = .ok s' → ∃ e ∈ s'.extents, Runs devSize e
  | [], s, s', k, m, _, h, hnot, _ => by
    have hk := h.small.le
    have hm := h.large.le
    rw [h.nbits.1] at hk
    rw [h.nbits.2] at hm
    exact absurd ⟨hk, hm⟩ hnot
  | n :: lengths, s, s', k, m, hle, h, hnot, hrun => by
    obtain ⟨hn, hle⟩ := List.forall_mem_cons.1 hle
    rw [List.countP_cons, List.countP_cons] at hnot
    rw [Machine.run_cons] at hrun
    obtain ⟨s₁, hs₁, hrun⟩ := bind_eq_ok hrun
    have hk := h.small.le
    have hm := h.large.le
    rw [h.nbits.1] at hk
    rw [h.nbits.2] at hm
    by_cases hsmall : n ≤ SMALL_LENGTH
    · rw [if_pos (by simpa using hsmall), if_neg (by simpa using hsmall)] at hnot
      rcases Nat.lt_or_eq_of_le hk with hlt | hfull
      · obtain ⟨s₂, hs₂, h₂⟩ := h.step_small hfind hsize hbits hsmall hlt
        obtain rfl : s₂ = s₁ := Except.ok.inj (hs₂.symm.trans hs₁)
        exact bitmapMachine_overrun hfind hbeyond hsize hbits hle h₂ (by omega) hrun
      · obtain ⟨e, he, hruns⟩ := h.step_full hbeyond hsize (.inl ⟨hsmall, hfull⟩) hs₁
        exact ⟨e, extents_subset hrun he, hruns⟩
    · rw [if_neg (by simpa using hsmall), if_pos (by simpa using hsmall)] at hnot
      rcases Nat.lt_or_eq_of_le hm with hlt | hfull
      · obtain ⟨s₂, hs₂, h₂⟩ := h.step_large hfind hsize hbits (by omega) hn hlt
        obtain rfl : s₂ = s₁ := Except.ok.inj (hs₂.symm.trans hs₁)
        exact bitmapMachine_overrun hfind hbeyond hsize hbits hle h₂ (by omega) hrun
      · obtain ⟨e, he, hruns⟩ := h.step_full hbeyond hsize (.inr ⟨by omega, hfull⟩) hs₁
        exact ⟨e, extents_subset hrun he, hruns⟩

/-! ## All calls -/

/-- The bitmaps hold the bits of the halves, and each half has room for its extents. -/
structure BitmapRoom (devSize : ℕ) (lengths : List ℕ) : Prop where
  bits : devSize / 2 / SMALL_LENGTH ≤ SMALL_BITS
  small : lengths.countP (· ≤ SMALL_LENGTH) ≤ devSize / 2 / SMALL_LENGTH
  large : lengths.countP (SMALL_LENGTH < ·) ≤ devSize / 2 / LARGE_LENGTH

/-- The extents of the bitmap allocator lie in the device and apart, and the small ones in the
    first half. -/
def BitmapApart (find : (ℕ → Bool) → ℕ → ℕ → ℕ) (devSize : ℕ) (lengths : List ℕ) : Prop :=
  ∃ es, bitmapExtents find devSize lengths = .ok es ∧ Separate devSize es ∧ SmallBelow devSize es

/-- The extents of the append-only allocator lie in the device and apart. -/
def AppendApart (devSize : ℕ) (lengths : List ℕ) : Prop :=
  ∃ es, appendOnlyExtents lengths = .ok es ∧ Separate devSize es

theorem bitmapInv_init (hbits : devSize / 2 / SMALL_LENGTH ≤ SMALL_BITS) :
    ∃ s, bitmapAllocatorInit devSize = .ok s ∧ BitmapInv devSize ⟨s, []⟩ 0 0 := by
  have hlarge : devSize / 2 / LARGE_LENGTH ≤ LARGE_BITS := by
    unfold SMALL_LENGTH SMALL_BITS at hbits
    unfold LARGE_LENGTH LARGE_BITS
    omega
  obtain ⟨small, hsmall, hsmallBits, hsmall0⟩ := bitmapZero_ok hbits
  obtain ⟨large, hlarge, hlargeBits, hlarge0⟩ := bitmapZero_ok hlarge
  refine ⟨⟨devSize, small, large⟩, ?_, rfl, ⟨hsmallBits, hlargeBits⟩, hsmall0, hlarge0, ?_, ?_⟩
  · rw [bitmapAllocatorInit, hsmall, ok_bind, hlarge, ok_bind]
    rfl
  · simp
  · exact ⟨by simp, .nil⟩

theorem bitmapApart_of_room (hfind : FindsClearBit find) (hsize : devSize < 2 ^ 64)
    (hle : ∀ n ∈ lengths, n ≤ LARGE_LENGTH) (hroom : BitmapRoom devSize lengths) :
    BitmapApart find devSize lengths := by
  obtain ⟨s, hs, hinv⟩ := bitmapInv_init hroom.bits
  obtain ⟨s', hrun, hsep, hbelow⟩ := bitmapMachine_run hfind hsize hroom.bits hle hinv
    (by rw [Nat.zero_add]; exact hroom.small) (by rw [Nat.zero_add]; exact hroom.large)
  refine ⟨s'.extents, ?_, hsep, hbelow⟩
  rw [bitmapExtents, hs, ok_bind, hrun]
  rfl

theorem room_of_bitmapApart (hfind : FindsClearBit find) (hbeyond : FindsBeyond find)
    (hsize : devSize < 2 ^ 64) (hle : ∀ n ∈ lengths, n ≤ LARGE_LENGTH)
    (hapart : BitmapApart find devSize lengths) : BitmapRoom devSize lengths := by
  obtain ⟨es, hes, hsep, hbelow⟩ := hapart
  obtain ⟨s, hs, hes⟩ := bind_eq_ok hes
  have hbits : devSize / 2 / SMALL_LENGTH ≤ SMALL_BITS := by
    obtain ⟨b, hb, -⟩ := bind_eq_ok hs
    obtain ⟨_, hcheck, -⟩ := bind_eq_ok hb
    exact of_require_eq_ok hcheck
  obtain ⟨s', hrun, rfl⟩ := exists_ok_of_map hes
  obtain ⟨s₀, hs₀, hinv⟩ := bitmapInv_init hbits
  obtain rfl : s₀ = s := Except.ok.inj (hs₀.symm.trans hs)
  by_contra hroom
  have hnot : ¬ (0 + lengths.countP (· ≤ SMALL_LENGTH) ≤ devSize / 2 / SMALL_LENGTH ∧
      0 + lengths.countP (SMALL_LENGTH < ·) ≤ devSize / 2 / LARGE_LENGTH) := by
    rw [Nat.zero_add, Nat.zero_add]
    exact fun h => hroom ⟨hbits, h.1, h.2⟩
  obtain ⟨e, he, hruns⟩ := bitmapMachine_overrun hfind hbeyond hsize hbits hle hinv hnot hrun
  exact not_runs hsep hbelow he hruns

theorem appendApart_of_le (hsize : devSize < 2 ^ 64) (hsum : lengths.sum ≤ devSize) :
    AppendApart devSize lengths := by
  obtain ⟨s', hrun, hsep⟩ := appendMachine_run (s := ⟨appendOnly.init, []⟩) hsize ⟨by simp, .nil⟩
    (by simp) (by rwa [show appendOnly.init = 0 from rfl, Nat.zero_add])
  exact ⟨s'.extents, by rw [appendOnlyExtents, hrun]; rfl, hsep⟩

theorem le_of_appendApart (hsize : devSize < NO_OFFSET) (hapart : AppendApart devSize lengths) :
    lengths.sum ≤ devSize := by
  obtain ⟨es, hes, hsep⟩ := hapart
  obtain ⟨s', hrun, rfl⟩ := exists_ok_of_map hes
  by_contra hsum
  obtain ⟨e, he, hstop⟩ := appendMachine_overrun hsize (Nat.zero_le _)
    (by rw [show appendOnly.init = 0 from rfl]; omega) hrun
  exact absurd (hsep.inside e he) (Nat.not_le_of_lt hstop)

/-- **The allocators hand out extents of the device, apart**, while it has room for them; and
    only then, where a search of a full bitmap gives what the kernel's does. -/
theorem kv_extents_apart (hfind : FindsClearBit find) (hsize : devSize < 2 ^ 64) :
    (∀ lengths, (∀ n ∈ lengths, n ≤ LARGE_LENGTH) →
      (BitmapRoom devSize lengths → BitmapApart find devSize lengths) ∧
      (FindsBeyond find → BitmapApart find devSize lengths → BitmapRoom devSize lengths)) ∧
    ∀ lengths, (lengths.sum ≤ devSize → AppendApart devSize lengths) ∧
      (devSize < NO_OFFSET → AppendApart devSize lengths → lengths.sum ≤ devSize) :=
  ⟨fun _ hle => ⟨bitmapApart_of_room hfind hsize hle, fun hbeyond => room_of_bitmapApart hfind hbeyond hsize hle⟩,
    fun _ => ⟨appendApart_of_le hsize, le_of_appendApart⟩⟩

/-- `bitmap_find_next_zero_area` of the kernel, for one bit. -/
def bitmapFindNextZeroArea (bits : ℕ → Bool) (nbits start : ℕ) : ℕ :=
  ((List.range nbits).find? fun i => decide (start ≤ i) && !bits i).getD (nbits + 1)

theorem findsBeyond_kernel : FindsBeyond bitmapFindNextZeroArea := by
  intro bits nbits start hset
  unfold bitmapFindNextZeroArea
  cases hfind : (List.range nbits).find? fun i => decide (start ≤ i) && !bits i with
  | none => exact Nat.lt_succ_self _
  | some j =>
    have hj := List.find?_some hfind
    have hmem := List.mem_range.1 (List.mem_of_find?_eq_some hfind)
    simp only [Bool.and_eq_true, decide_eq_true_eq, Bool.not_eq_true'] at hj
    rw [hset j hj.1 hmem] at hj
    exact absurd hj.2 Bool.noConfusion

theorem findsClearBit_kernel : FindsClearBit bitmapFindNextZeroArea where
  found bits nbits start := by
    rintro ⟨i, hstart, hlt, hclear⟩
    unfold bitmapFindNextZeroArea
    cases hfind : (List.range nbits).find? fun i => decide (start ≤ i) && !bits i with
    | none =>
      have hnone := List.find?_eq_none.1 hfind i (List.mem_range.2 hlt)
      simp [hstart, hclear] at hnone
    | some j =>
      obtain ⟨hj, hmem, hfirst⟩ := List.find?_range_eq_some.1 hfind
      simp only [Bool.and_eq_true, decide_eq_true_eq, Bool.not_eq_true'] at hj
      refine ⟨hj.1, List.mem_range.1 hmem, hj.2, fun i hi hij => ?_⟩
      simpa [hi] using hfirst i hij
  none bits nbits start hset := (findsBeyond_kernel bits nbits start hset).le

theorem kv_extents_apart_sixteenKib :
    AppendApart 16384 [4096, 8] ∧ BitmapApart bitmapFindNextZeroArea 16384 [8, 4096, 1024, 1025] ∧
      ¬ BitmapApart bitmapFindNextZeroArea 16384 [4096, 8, 1025, 1025] := by
  have h := @kv_extents_apart _ 16384 findsClearBit_kernel (by decide)
  refine ⟨(h.2 [4096, 8]).1 (by decide), (h.1 _ (by decide)).1 ⟨by decide, by decide, by decide⟩, fun hapart => ?_⟩
  have hroom := (h.1 _ (by decide)).2 findsBeyond_kernel hapart
  exact absurd hroom.large (by decide)

/-- The third piece of a half that has two, and a byte past the end of the device. -/
theorem kv_extents_apart_full :
    bitmapExtents bitmapFindNextZeroArea 16384 [4096, 4096, 4096] =
      .ok [⟨20480, 4096⟩, ⟨12288, 4096⟩, ⟨8192, 4096⟩] ∧
    ¬ BitmapApart bitmapFindNextZeroArea 16384 [4096, 4096, 4096] ∧
    appendOnlyExtents [16384, 4] = .ok [⟨16384, 4⟩, ⟨0, 16384⟩] ∧ ¬ AppendApart 16384 [16384, 4] := by
  have hbitmap : bitmapExtents bitmapFindNextZeroArea 16384 [4096, 4096, 4096] =
      .ok [⟨20480, 4096⟩, ⟨12288, 4096⟩, ⟨8192, 4096⟩] := by decide +kernel
  have happend : appendOnlyExtents [16384, 4] = .ok [⟨16384, 4⟩, ⟨0, 16384⟩] := by decide +kernel
  refine ⟨hbitmap, ?_, happend, ?_⟩
  · rintro ⟨es, hes, hsep, -⟩
    obtain rfl := Except.ok.inj (hbitmap.symm.trans hes)
    exact absurd (hsep.inside _ List.mem_cons_self) (by decide)
  · rintro ⟨es, hes, hsep⟩
    obtain rfl := Except.ok.inj (happend.symm.trans hes)
    exact absurd (hsep.inside _ List.mem_cons_self) (by decide)

end WaitGc

/-
  WAITGC verification — the DMA copies and the `memcpy` copies.

  `memAt` is the memory after so many PRP entries, each copied on its own.
  `__do_perform_io_using_dma` goes through those at the starts of runs of
  contiguous pages, a run being one copy (`CopyDomain.memAt_run`), and
  `__do_perform_io` through all of them, if it finds its first page.
  `dma_copies_agree_iff`: that is the condition for the paths to agree.
-/
import WaitGc.Io.Dma

namespace WaitGc

open Outcome Copies Function

variable {c : CopyCfg} {cmd : CopyCommand} {mem mem' : PhysMem} {n i k : ℕ} {p : BitVec 64}

/-! ## Pages -/

theorem pageOffset_lt (p : BitVec 64) : pageOffset p < 4096 := Nat.mod_lt _ (by decide)

theorem prpSize_le (p : BitVec 64) (r : ℕ) : prpSize p r ≤ r := by
  unfold prpSize
  dsimp only
  split_ifs <;> omega

theorem prpSize_pos (p : BitVec 64) {r : ℕ} (h : r ≠ 0) : 0 < prpSize p r := by
  have hlt := pageOffset_lt p
  have hpage : PAGE_SIZE = 4096 := rfl
  unfold prpSize
  dsimp only
  split_ifs <;> omega

theorem prpSize_aligned (h : pageOffset p = 0) (r : ℕ) : prpSize p r = min r 4096 := by
  have hpage : PAGE_SIZE = 4096 := rfl
  unfold prpSize
  dsimp only
  rw [h, hpage]
  split_ifs <;> omega

theorem pageBase_add (p : BitVec 64) : pageBase p + (pageOffset p : ℕ) = p := by
  have hlt := p.isLt
  have hpage : PAGE_SIZE = 4096 := rfl
  apply BitVec.eq_of_toNat_eq
  rw [pageBase, pageOffset, hpage, BitVec.natCast_eq_ofNat, ← BitVec.ofNat_add, BitVec.toNat_ofNat]
  omega

/-- The page is found, if the kernel maps it by its frame or its address is aligned. -/
theorem mapPage_add (h : c.pfnValid (p.toNat / PAGE_SIZE) = true ∨ pageOffset p = 0) :
    mapPage c p + (pageOffset p : ℕ) = p := by
  unfold mapPage
  split_ifs with hpfn
  · exact pageBase_add p
  · rw [h.resolve_left hpfn]
    exact add_zero p

theorem pageOffset_next (h : pageOffset (p + (PAGE_SIZE : ℕ)) = 0) : pageOffset p = 0 := by
  have hlt := p.isLt
  have hpage : PAGE_SIZE = 4096 := rfl
  unfold pageOffset at h ⊢
  rw [BitVec.natCast_eq_ofNat, BitVec.toNat_add, BitVec.toNat_ofNat] at h
  rw [hpage] at h ⊢
  omega

/-! ## The entries of a command -/

/-- `prp2` points to a list. -/
def CopyCommand.UsesList (cmd : CopyCommand) : Prop := PAGE_SIZE < cmd.size - prpSize cmd.prp1 cmd.size

instance (cmd : CopyCommand) : Decidable cmd.UsesList := inferInstanceAs (Decidable (_ < _))

/-- PRP entry `i`, from 0 on. -/
def prpAt (c : CopyCfg) (cmd : CopyCommand) (mem : PhysMem) : ℕ → BitVec 64
  | 0 => cmd.prp1
  | i + 1 => if cmd.UsesList then readU64 mem (prpList c cmd.prp2 + (8 * i : ℕ)) else cmd.prp2

/-- The bytes that remain from entry `i` on. -/
def remAt (c : CopyCfg) (cmd : CopyCommand) (mem : PhysMem) : ℕ → ℕ
  | 0 => cmd.size
  | i + 1 => remAt c cmd mem i - prpSize (prpAt c cmd mem i) (remAt c cmd mem i)

/-- `offset` at entry `i`. -/
def offsetAt (c : CopyCfg) (cmd : CopyCommand) (mem : PhysMem) (i : ℕ) : BitVec 64 :=
  cmd.offset + (cmd.size - remAt c cmd mem i : ℕ)

/-- The memory when `i` entries are copied one by one. -/
def memAt (c : CopyCfg) (cmd : CopyCommand) (mem : PhysMem) : ℕ → PhysMem
  | 0 => mem
  | i + 1 => transfer c cmd (memAt c cmd mem i) (prpAt c cmd mem i) (offsetAt c cmd mem i)
      (prpSize (prpAt c cmd mem i) (remAt c cmd mem i))

/-- The walk before entry `i`. -/
def walkAt (c : CopyCfg) (cmd : CopyCommand) (i : ℕ) : PrpWalk :=
  ⟨i, if cmd.UsesList then i - 1 else 0, if cmd.UsesList ∧ 2 ≤ i then some (prpList c cmd.prp2) else none⟩

/-- A byte of the `n` pages of data. -/
def DataByte (c : CopyCfg) (cmd : CopyCommand) (mem : PhysMem) (n : ℕ) (j : BitVec 64) : Prop :=
  ∃ i < n, ∃ k < prpSize (prpAt c cmd mem i) (remAt c cmd mem i), j = prpAt c cmd mem i + (k : ℕ)

/-- A byte of the storage that the command is for. -/
def StorageByte (c : CopyCfg) (cmd : CopyCommand) (j : BitVec 64) : Prop :=
  ∃ k < cmd.size, j = c.storageStart + (cmd.offset + (k : ℕ))

/-- A byte of the entries of the PRP list. -/
def ListByte (c : CopyCfg) (cmd : CopyCommand) (n : ℕ) (j : BitVec 64) : Prop :=
  cmd.UsesList ∧ ∃ i, i + 1 < n ∧ ∃ b < 8, j = prpList c cmd.prp2 + (8 * i : ℕ) + (b : ℕ)

/-- The command needs `n` PRP entries, at most 512.  All but the first are aligned; the data,
    the list and the storage are apart. -/
structure CopyDomain (c : CopyCfg) (cmd : CopyCommand) (mem : PhysMem) (n : ℕ) : Prop where
  needs : remAt c cmd mem n = 0
  before : ∀ i < n, remAt c cmd mem i ≠ 0
  le : n ≤ 512
  aligned : ∀ i, 0 < i → i < n → pageOffset (prpAt c cmd mem i) = 0
  apart : ∀ j, DataByte c cmd mem n j → ¬ StorageByte c cmd j
  listApart : ∀ j, ListByte c cmd n j → ¬ DataByte c cmd mem n j ∧ ¬ StorageByte c cmd j

theorem remAt_le (i : ℕ) : remAt c cmd mem i ≤ cmd.size := by
  induction i with
  | zero => exact le_rfl
  | succ i ih => exact (Nat.sub_le _ _).trans ih

theorem remAt_succ (i : ℕ) :
    remAt c cmd mem (i + 1) + prpSize (prpAt c cmd mem i) (remAt c cmd mem i) = remAt c cmd mem i :=
  Nat.sub_add_cancel (prpSize_le _ _)

theorem remAt_anti {j : ℕ} (h : i ≤ j) : remAt c cmd mem j ≤ remAt c cmd mem i := by
  induction j, h using Nat.le_induction with
  | base => exact le_rfl
  | succ j _ ih => exact (Nat.sub_le _ _).trans ih

theorem offsetAt_add (h : remAt c cmd mem (i + k) ≤ remAt c cmd mem i) :
    offsetAt c cmd mem i + (remAt c cmd mem i - remAt c cmd mem (i + k) : ℕ) = offsetAt c cmd mem (i + k) := by
  have hle := @remAt_le c cmd mem i
  unfold offsetAt
  rw [add_assoc, ← Nat.cast_add]
  congr 2
  omega

theorem offsetAt_succ (i : ℕ) :
    offsetAt c cmd mem i + (prpSize (prpAt c cmd mem i) (remAt c cmd mem i) : ℕ) = offsetAt c cmd mem (i + 1) := by
  have hsucc := @remAt_succ c cmd mem i
  rw [← offsetAt_add (remAt_anti (Nat.le_succ i))]
  congr 2
  omega

/-- What the copies do not touch. -/
theorem memAt_frame {j : BitVec 64} (hdata : ¬ DataByte c cmd mem n j) (hstorage : ¬ StorageByte c cmd j) :
    ∀ i ≤ n, memAt c cmd mem i j = mem j
  | 0, _ => rfl
  | i + 1, hi => by
    have ih := memAt_frame hdata hstorage i (by omega)
    have hrem := @remAt_le c cmd mem i
    have hsize := prpSize_le (prpAt c cmd mem i) (remAt c cmd mem i)
    rw [memAt, ← ih]
    unfold transfer
    have hto : ∀ k < prpSize (prpAt c cmd mem i) (remAt c cmd mem i),
        j ≠ c.storageStart + offsetAt c cmd mem i + (k : ℕ) := by
      intro k hk heq
      refine hstorage ⟨cmd.size - remAt c cmd mem i + k, by omega, ?_⟩
      rw [heq, offsetAt, Nat.cast_add, add_assoc, add_assoc]
    cases cmd.opcode with
    | write | zoneAppend => exact copy_of_not_mem hto
    | read => exact copy_of_not_mem fun k hk heq => hdata ⟨i, by omega, k, hk, heq⟩
    | other => rfl

theorem readU64_congr {a : BitVec 64} (h : ∀ b < 8, mem' (a + (b : ℕ)) = mem (a + (b : ℕ))) :
    readU64 mem' a = readU64 mem a := by
  have h0 : mem' a = mem a := by simpa using h 0 (by decide)
  have h1 : mem' (a + 1) = mem (a + 1) := h 1 (by decide)
  have h2 : mem' (a + 2) = mem (a + 2) := h 2 (by decide)
  have h3 : mem' (a + 3) = mem (a + 3) := h 3 (by decide)
  have h4 : mem' (a + 4) = mem (a + 4) := h 4 (by decide)
  have h5 : mem' (a + 5) = mem (a + 5) := h 5 (by decide)
  have h6 : mem' (a + 6) = mem (a + 6) := h 6 (by decide)
  have h7 : mem' (a + 7) = mem (a + 7) := h 7 (by decide)
  rw [readU64, readU64, h0, h1, h2, h3, h4, h5, h6, h7]

section transfer
variable (h : CopyDomain c cmd mem n)
include h

theorem CopyDomain.usesList (hi : 2 < n) : cmd.UsesList := by
  by_contra hno
  have hone := h.aligned 1 Nat.one_pos (by omega)
  have hpage : PAGE_SIZE = 4096 := rfl
  have hfirst : remAt c cmd mem 1 = cmd.size - prpSize cmd.prp1 cmd.size := rfl
  refine h.before 2 hi ?_
  show remAt c cmd mem 1 - prpSize (prpAt c cmd mem 1) (remAt c cmd mem 1) = 0
  unfold CopyCommand.UsesList at hno
  rw [prpSize_aligned hone]
  omega

theorem CopyDomain.entry (hlist : cmd.UsesList) {j : ℕ} (hi : i + 1 < n) (hj : j ≤ n) :
    readU64 (memAt c cmd mem j) (prpList c cmd.prp2 + (8 * i : ℕ)) =
      readU64 mem (prpList c cmd.prp2 + (8 * i : ℕ)) := by
  refine readU64_congr fun b hb => ?_
  obtain ⟨hdata, hstorage⟩ := h.listApart _ ⟨hlist, i, hi, b, hb, rfl⟩
  exact memAt_frame hdata hstorage j hj

/-- **The address of a turn**, while entries are copied. -/
theorem CopyDomain.nextPrp (hi : i < n) {j : ℕ} (hj : j ≤ n) :
    nextPrp c cmd (memAt c cmd mem j) (remAt c cmd mem i) (walkAt c cmd i) =
      .ok (prpAt c cmd mem i, walkAt c cmd (i + 1)) := by
  have hread (hlist : cmd.UsesList) (i : ℕ) (hi : i + 1 < n) :
      readU64 (memAt c cmd mem j) (prpList c cmd.prp2 + (8 * i : ℕ)) = prpAt c cmd mem (i + 1) :=
    (h.entry hlist hi hj).trans (if_pos hlist).symm
  unfold WaitGc.nextPrp walkAt
  obtain rfl | rfl | ⟨i, rfl⟩ : i = 0 ∨ i = 1 ∨ ∃ i', i = i' + 2 := by
    obtain _ | _ | i := i
    · exact .inl rfl
    · exact .inr (.inl rfl)
    · exact .inr (.inr ⟨i, rfl⟩)
  · simp [prpAt]
  · dsimp only
    rw [if_neg (by decide), if_pos rfl]
    by_cases hlist : cmd.UsesList
    · rw [if_pos (show PAGE_SIZE < remAt c cmd mem 1 from hlist)]
      simp [hlist, ← hread hlist 0 hi]
    · rw [if_neg (show ¬ PAGE_SIZE < remAt c cmd mem 1 from hlist)]
      simp [hlist, prpAt]
  · have hlist := h.usesList (by omega)
    dsimp only
    rw [if_neg (by omega), if_neg (by omega), if_pos ⟨hlist, by omega⟩]
    simp [hlist, ← hread hlist (i + 1) hi]

/-! ## The loop of `__do_perform_io` -/

theorem CopyDomain.eq_of_rem (hi : i ≤ n) (hrem : remAt c cmd mem i = 0) : i = n :=
  hi.eq_or_lt.resolve_right fun hlt => h.before i hlt hrem

/-- **One entry after the other.** -/
theorem CopyDomain.performIoLoop (hfirst : c.pfnValid (cmd.prp1.toNat / PAGE_SIZE) = true ∨ pageOffset cmd.prp1 = 0)
    {fuel : ℕ} (hi : i ≤ n) (hfuel : remAt c cmd mem i ≤ fuel) :
    performIoLoop c cmd fuel (walkAt c cmd i) (offsetAt c cmd mem i) (remAt c cmd mem i) (memAt c cmd mem i) =
      .ok (memAt c cmd mem n) := by
  induction fuel generalizing i with
  | zero =>
    rw [h.eq_of_rem hi (Nat.le_zero.1 hfuel)]
    rfl
  | succ fuel ih =>
    rw [WaitGc.performIoLoop]
    by_cases hrem : remAt c cmd mem i = 0
    · rw [if_pos hrem, h.eq_of_rem hi hrem]
      rfl
    · have hlt : i < n := lt_of_le_of_ne hi fun heq => hrem (heq ▸ h.needs)
      have hpos := prpSize_pos (prpAt c cmd mem i) hrem
      have hsucc := @remAt_succ c cmd mem i
      have hpage : mapPage c (prpAt c cmd mem i) + (pageOffset (prpAt c cmd mem i) : ℕ) = prpAt c cmd mem i := by
        obtain rfl | hi0 := Nat.eq_zero_or_pos i
        · exact mapPage_add hfirst
        · exact mapPage_add (.inr (h.aligned i hi0 hlt))
      rw [if_neg hrem, h.nextPrp hlt hi, ok_bind]
      dsimp only
      rw [hpage, offsetAt_succ]
      exact ih hlt (show remAt c cmd mem (i + 1) ≤ fuel by omega)

/-! ## The loops of `__do_perform_io_using_dma` -/

/-- `paddr_list`, with the first `i` entries. -/
def listAt (c : CopyCfg) (cmd : CopyCommand) (mem : PhysMem) (i j : ℕ) : BitVec 64 :=
  if 0 < j ∧ j ≤ i then prpAt c cmd mem (j - 1) else 0

omit h in
theorem listAt_succ (i : ℕ) :
    update (listAt c cmd mem i) (i + 1) (prpAt c cmd mem i) = listAt c cmd mem (i + 1) := by
  funext j
  unfold listAt
  by_cases hj : j = i + 1
  · rw [hj, update_self, if_pos ⟨Nat.succ_pos i, le_rfl⟩, Nat.add_sub_cancel]
  · rw [update_of_ne hj]
    by_cases hle : 0 < j ∧ j ≤ i
    · rw [if_pos hle, if_pos ⟨hle.1, by omega⟩]
    · rw [if_neg hle, if_neg (by omega)]

/-- **The entries are collected.** -/
theorem CopyDomain.collectPrps {fuel : ℕ} (hi : i ≤ n) (hfuel : remAt c cmd mem i ≤ fuel) :
    collectPrps c cmd mem fuel (walkAt c cmd i) (remAt c cmd mem i) (listAt c cmd mem i) =
      .ok (n, listAt c cmd mem n) := by
  induction fuel generalizing i with
  | zero =>
    rw [h.eq_of_rem hi (Nat.le_zero.1 hfuel)]
    rfl
  | succ fuel ih =>
    rw [WaitGc.collectPrps]
    by_cases hrem : remAt c cmd mem i = 0
    · rw [if_pos hrem, h.eq_of_rem hi hrem]
      rfl
    · have hlt : i < n := lt_of_le_of_ne hi fun heq => hrem (heq ▸ h.needs)
      have hle := h.le
      have hpos := prpSize_pos (prpAt c cmd mem i) hrem
      have hsucc := @remAt_succ c cmd mem i
      have hnext := h.nextPrp (j := 0) hlt (Nat.zero_le n)
      rw [memAt] at hnext
      have hindex : listIndex (walkAt c cmd (i + 1)).prpOffs = .ok () :=
        require_pos (show i + 1 < 513 by omega) _
      rw [if_neg hrem, hnext, ok_bind]
      dsimp only
      rw [hindex, ok_bind, show (walkAt c cmd (i + 1)).prpOffs = i + 1 from rfl, listAt_succ]
      exact ih hlt (show remAt c cmd mem (i + 1) ≤ fuel by omega)

omit h in
/-- The `q` entries from `i` on are contiguous pages. -/
structure PrpRun (c : CopyCfg) (cmd : CopyCommand) (mem : PhysMem) (n i q : ℕ) : Prop where
  pos : 0 < q
  le : i + q ≤ n
  next : ∀ k, k + 1 < q → prpAt c cmd mem (i + (k + 1)) = prpAt c cmd mem (i + k) + (PAGE_SIZE : ℕ)

/-- **The pages that are merged** are contiguous, and are counted. -/
theorem CopyDomain.mergePages {fuel q : ℕ} (size : ℕ) (hrun : PrpRun c cmd mem n i q) (hfuel : n ≤ fuel + (i + q)) :
    ∃ q', q ≤ q' ∧ PrpRun c cmd mem n i q' ∧
      mergePages (listAt c cmd mem n) n fuel (i + q + 1) size = .ok (i + q' + 1, size + 4096 * (q' - q)) := by
  induction fuel generalizing q size with
  | zero => exact ⟨q, le_rfl, hrun, by rw [Nat.sub_self]; rfl⟩
  | succ fuel ih =>
    have hpos := hrun.pos
    have hle := h.le
    rw [WaitGc.mergePages]
    split_ifs with hin hnext
    · have hindex : listIndex (i + q + 1) = .ok () := require_pos (by omega) _
      rw [listAt, if_pos ⟨by omega, hin⟩, listAt, if_pos ⟨by omega, by omega⟩, Nat.add_sub_cancel] at hnext
      obtain ⟨q, rfl⟩ : ∃ q', q = q' + 1 := ⟨q - 1, by omega⟩
      have hrun' : PrpRun c cmd mem n i (q + 1 + 1) := by
        refine ⟨Nat.succ_pos _, by omega, fun k hk => ?_⟩
        obtain hlt | rfl := Nat.lt_or_eq_of_le (Nat.le_of_lt_succ (Nat.lt_of_succ_lt_succ hk))
        · exact hrun.next k (by omega)
        · rw [hnext]
          rfl
      obtain ⟨q', hq, hrun', hmerge⟩ := ih (size + PAGE_SIZE) hrun' (by omega)
      refine ⟨q', by omega, hrun', ?_⟩
      rw [hindex, ok_bind]
      refine hmerge.trans ?_
      rw [show PAGE_SIZE = 4096 from rfl]
      congr 2
      omega
    · have hindex : listIndex (i + q + 1) = .ok () := require_pos (by omega) _
      exact ⟨q, le_rfl, hrun, by rw [hindex, ok_bind, Nat.sub_self]; rfl⟩
    · exact ⟨q, le_rfl, hrun, by rw [Nat.sub_self]; rfl⟩

/-- A run of more than one page starts with a whole page. -/
theorem CopyDomain.run_aligned {q : ℕ} (hrun : PrpRun c cmd mem n i q) (hq : 1 < q) (hk : k < q) :
    pageOffset (prpAt c cmd mem (i + k)) = 0 := by
  have hle := hrun.le
  obtain hpos | hzero := Nat.eq_zero_or_pos (i + k) |>.symm
  · exact h.aligned _ hpos (by omega)
  · obtain ⟨rfl, rfl⟩ : i = 0 ∧ k = 0 := by omega
    have hnext := hrun.next 0 hq
    exact pageOffset_next (hnext ▸ h.aligned (0 + (0 + 1)) (by omega) (by omega))

omit h in
theorem PrpRun.prp {q : ℕ} (hrun : PrpRun c cmd mem n i q) (hk : k < q) :
    prpAt c cmd mem (i + k) = prpAt c cmd mem i + (4096 * k : ℕ) := by
  induction k with
  | zero => exact (add_zero _).symm
  | succ k ih =>
    rw [hrun.next k hk, ih (by omega), add_assoc, ← Nat.cast_add]
    rfl

theorem CopyDomain.run_rem {q : ℕ} (hrun : PrpRun c cmd mem n i q) (hk : k < q) :
    remAt c cmd mem (i + k) + 4096 * k = remAt c cmd mem i := by
  induction k with
  | zero => rfl
  | succ k ih =>
    have hle := hrun.le
    have hrem := h.before (i + (k + 1)) (by omega)
    have hsucc := @remAt_succ c cmd mem (i + k)
    rw [prpSize_aligned (h.run_aligned hrun (by omega) (by omega))] at hsucc
    have := ih (by omega)
    rw [← Nat.add_assoc] at hrem ⊢
    omega

theorem CopyDomain.run_data {q b : ℕ} (hrun : PrpRun c cmd mem n i (q + 1)) (hb : b < 4096 * q) :
    DataByte c cmd mem n (prpAt c cmd mem i + (b : ℕ)) := by
  have hle := hrun.le
  have hk : b / 4096 < q := Nat.div_lt_of_lt_mul hb
  refine ⟨i + b / 4096, by omega, b % 4096, ?_, ?_⟩
  · have hrem := h.run_rem hrun (show b / 4096 < q + 1 by omega)
    have hrem' := h.run_rem hrun (show b / 4096 + 1 < q + 1 by omega)
    have hpos := h.before (i + (b / 4096 + 1)) (by omega)
    rw [prpSize_aligned (h.run_aligned hrun (by omega) (by omega))]
    have := Nat.mod_lt b (show 0 < 4096 by decide)
    omega
  · rw [hrun.prp (by omega), add_assoc, ← Nat.cast_add]
    congr 2
    omega

omit h in
theorem PrpRun.init {q : ℕ} (hrun : PrpRun c cmd mem n i (q + 1)) (hq : 0 < q) : PrpRun c cmd mem n i q :=
  ⟨hq, (Nat.le_succ _).trans hrun.le, fun k hk => hrun.next k (Nat.lt_succ_of_lt hk)⟩

/-- **A run is one copy.** -/
theorem CopyDomain.memAt_run {q : ℕ} (hrun : PrpRun c cmd mem n i q) :
    memAt c cmd mem (i + q) = transfer c cmd (memAt c cmd mem i) (prpAt c cmd mem i) (offsetAt c cmd mem i)
      (remAt c cmd mem i - remAt c cmd mem (i + q)) := by
  induction q with
  | zero => exact absurd hrun.pos (lt_irrefl 0)
  | succ q ih =>
    have hsucc := @remAt_succ c cmd mem (i + q)
    obtain rfl | hq := Nat.eq_zero_or_pos q
    · have hone : remAt c cmd mem i - remAt c cmd mem (i + 1) =
          prpSize (prpAt c cmd mem i) (remAt c cmd mem i) :=
            Nat.sub_eq_of_eq_add (by rw [Nat.add_comm]; exact hsucc.symm)
      rw [Nat.zero_add, hone, memAt]
    have hrem := h.run_rem hrun (Nat.lt_succ_self q)
    have hle := @remAt_le c cmd mem i
    have hprp := hrun.prp (Nat.lt_succ_self q)
    have hdone : remAt c cmd mem i - remAt c cmd mem (i + q) = 4096 * q := by omega
    have hoffset := offsetAt_add (@remAt_anti c cmd mem i (i + q) (Nat.le_add_right i q))
    have hsize : remAt c cmd mem i - remAt c cmd mem (i + q + 1) =
        4096 * q + prpSize (prpAt c cmd mem (i + q)) (remAt c cmd mem (i + q)) := by omega
    rw [hdone] at hoffset
    rw [← Nat.add_assoc, memAt, ih (hrun.init hq), hdone, hsize]
    have hlast (b : ℕ) (hb : b < prpSize (prpAt c cmd mem (i + q)) (remAt c cmd mem (i + q))) :
        DataByte c cmd mem n (prpAt c cmd mem i + (4096 * q + b : ℕ)) := by
      refine ⟨i + q, by have := hrun.le; omega, b, hb, ?_⟩
      rw [hprp, add_assoc, ← Nat.cast_add]
    have hstorage (b : ℕ) (hb : b < remAt c cmd mem i) :
        StorageByte c cmd (c.storageStart + offsetAt c cmd mem i + (b : ℕ)) := by
      refine ⟨cmd.size - remAt c cmd mem i + b, by omega, ?_⟩
      rw [offsetAt, Nat.cast_add, add_assoc, add_assoc]
    have hbytes := prpSize_le (prpAt c cmd mem (i + q)) (remAt c cmd mem (i + q))
    rw [← hoffset]
    unfold transfer
    cases cmd.opcode with
    | write | zoneAppend =>
      dsimp only
      rw [hprp] at hlast hbytes ⊢
      rw [← add_assoc c.storageStart]
      refine copy_append fun b hb b' hb' heq => ?_
      exact h.apart _ (hlast b hb) (heq ▸ hstorage b' (by omega))
    | read =>
      dsimp only
      rw [hprp] at hlast hbytes ⊢
      rw [← add_assoc c.storageStart]
      refine copy_append fun b hb b' hb' heq => ?_
      exact h.apart _ (h.run_data hrun hb') (heq ▸ hstorage (4096 * q + b) (by omega))
    | other => rfl

/-- What a merged copy takes: a page for each entry, or what remains. -/
theorem CopyDomain.run_size {q : ℕ} (hrun : PrpRun c cmd mem n i q) :
    min (remAt c cmd mem i) (prpSize (prpAt c cmd mem i) (remAt c cmd mem i) + 4096 * (q - 1)) =
      remAt c cmd mem i - remAt c cmd mem (i + q) := by
  obtain ⟨q, rfl⟩ : ∃ q', q = q' + 1 := ⟨q - 1, by have := hrun.pos; omega⟩
  have hsucc := @remAt_succ c cmd mem (i + q)
  obtain rfl | hq := Nat.eq_zero_or_pos q
  · have hone : remAt c cmd mem (i + 1) + prpSize (prpAt c cmd mem i) (remAt c cmd mem i) = remAt c cmd mem i := hsucc
    rw [Nat.zero_add]
    omega
  · have hrem := h.run_rem hrun (Nat.lt_succ_self q)
    have hlast := h.before (i + q) (by have := hrun.le; omega)
    have hfirst : pageOffset (prpAt c cmd mem i) = 0 := h.run_aligned hrun (show 1 < q + 1 by omega) (Nat.succ_pos q)
    rw [prpSize_aligned (h.run_aligned hrun (by omega) (Nat.lt_succ_self q))] at hsucc
    rw [prpSize_aligned hfirst, ← Nat.add_assoc]
    omega

/-- **The second loop** goes through the memories of the first entries of runs. -/
theorem CopyDomain.dmaLoop {fuel : ℕ} (hi : i ≤ n) (hfuel : remAt c cmd mem i ≤ fuel) :
    dmaLoop c cmd (listAt c cmd mem n) n fuel (i + 1) (offsetAt c cmd mem i) (remAt c cmd mem i)
      (memAt c cmd mem i) = .ok (n + 1, memAt c cmd mem n) := by
  induction fuel generalizing i with
  | zero =>
    rw [h.eq_of_rem hi (Nat.le_zero.1 hfuel)]
    rfl
  | succ fuel ih =>
    rw [WaitGc.dmaLoop]
    by_cases hrem : remAt c cmd mem i = 0
    · rw [if_pos hrem, h.eq_of_rem hi hrem]
      rfl
    · have hlt : i < n := lt_of_le_of_ne hi fun heq => hrem (heq ▸ h.needs)
      have hle := h.le
      have hindex : listIndex (i + 1) = .ok () := require_pos (by omega) _
      have hlist : listAt c cmd mem n (i + 1) = prpAt c cmd mem i := if_pos ⟨Nat.succ_pos i, hlt⟩
      have hone : PrpRun c cmd mem n i 1 := ⟨Nat.one_pos, hlt, fun k hk => absurd hk (by omega)⟩
      obtain ⟨q, hq, hrun, hmerge⟩ := h.mergePages (prpSize (prpAt c cmd mem i) (remAt c cmd mem i)) hone
        (Nat.le_add_right n (i + 1))
      have hanti := @remAt_anti c cmd mem i (i + q) (Nat.le_add_right i q)
      have hless : remAt c cmd mem (i + q) ≤ fuel := by
        have hsucc := @remAt_succ c cmd mem i
        have hpos := prpSize_pos (prpAt c cmd mem i) hrem
        have := @remAt_anti c cmd mem (i + 1) (i + q) (Nat.add_le_add_left hq i)
        omega
      rw [if_neg hrem, hindex, ok_bind, hlist]
      dsimp only
      rw [hmerge, ok_bind]
      dsimp only
      rw [h.run_size hrun, ← h.memAt_run hrun, offsetAt_add hanti, Nat.sub_sub_self hanti]
      exact ih hrun.le hless

end transfer

/-! ## The two paths -/

/-- The two paths leave the same memory, the list is not overrun, and the second loop ends behind
    the last entry that the first one collected. -/
def PathsAgree (c : CopyCfg) (cmd : CopyCommand) (mem : PhysMem) : Prop :=
  ∃ r, doPerformIoUsingDma c cmd mem = .ok r ∧ doPerformIo c cmd mem = .ok r.mem ∧ r.prpOffs = r.numPrps + 1

theorem walkAt_zero (c : CopyCfg) (cmd : CopyCommand) : walkAt c cmd 0 = .start := by
  simp [walkAt, PrpWalk.start]

theorem offsetAt_zero (c : CopyCfg) (cmd : CopyCommand) (mem : PhysMem) : offsetAt c cmd mem 0 = cmd.offset := by
  simp [offsetAt, remAt]

/-- **The DMA path** copies the entries one after the other. -/
theorem CopyDomain.doPerformIoUsingDma (h : CopyDomain c cmd mem n) :
    doPerformIoUsingDma c cmd mem = .ok ⟨memAt c cmd mem n, n, n + 1⟩ := by
  have hempty : listAt c cmd mem 0 = fun _ => 0 := funext fun j => if_neg (by omega)
  have hcollect : WaitGc.collectPrps c cmd mem cmd.size .start cmd.size (fun _ => 0) =
      .ok (n, listAt c cmd mem n) := by
    have hloop := h.collectPrps (Nat.zero_le n) (le_refl (remAt c cmd mem 0))
    rwa [walkAt_zero, hempty] at hloop
  have hdma : WaitGc.dmaLoop c cmd (listAt c cmd mem n) n cmd.size 1 cmd.offset cmd.size mem =
      .ok (n + 1, memAt c cmd mem n) := by
    have hloop := h.dmaLoop (Nat.zero_le n) (le_refl (remAt c cmd mem 0))
    rwa [offsetAt_zero] at hloop
  unfold WaitGc.doPerformIoUsingDma
  rw [hcollect, ok_bind]
  dsimp only
  rw [hdma]
  rfl

/-- **The `memcpy` path** does too, if it finds its first page. -/
theorem CopyDomain.doPerformIo (h : CopyDomain c cmd mem n)
    (hfirst : c.pfnValid (cmd.prp1.toNat / PAGE_SIZE) = true ∨ pageOffset cmd.prp1 = 0) :
    doPerformIo c cmd mem = .ok (memAt c cmd mem n) := by
  have hloop := h.performIoLoop hfirst (Nat.zero_le n) (le_refl (remAt c cmd mem 0))
  rwa [walkAt_zero, offsetAt_zero] at hloop

/-- **The paths agree.** -/
theorem CopyDomain.pathsAgree (h : CopyDomain c cmd mem n)
    (hfirst : c.pfnValid (cmd.prp1.toNat / PAGE_SIZE) = true ∨ pageOffset cmd.prp1 = 0) : PathsAgree c cmd mem :=
  ⟨_, h.doPerformIoUsingDma, h.doPerformIo hfirst, rfl⟩

/-! ## A first page that is not found -/

section short
variable (p)

/-- The storage is a megabyte behind the page of `p`. -/
def shortCfg (p : BitVec 64) (pfnValid : ℕ → Bool) : CopyCfg := ⟨pageBase p + (2 ^ 20 : ℕ), pfnValid⟩

/-- One block is written from `p`; a second entry is the page of `p` again. -/
def shortWrite (p : BitVec 64) : CopyCommand := ⟨.write, p, pageBase p, 0, 0⟩

/-- A memory that holds one byte. -/
def markedByte (p : BitVec 64) : PhysMem := fun j => if j = p then 1 else 0

theorem pageOffset_pageBase : pageOffset (pageBase p) = 0 := by
  have hlt := p.isLt
  have hpage : PAGE_SIZE = 4096 := rfl
  rw [pageOffset, pageBase, BitVec.toNat_ofNat, hpage]
  omega

theorem prpSize_short : prpSize p 512 + pageOffset p ≤ 4096 ∧ prpSize p 512 ≤ 512 ∧ 0 < prpSize p 512 := by
  have hlt := pageOffset_lt p
  have hpage : PAGE_SIZE = 4096 := rfl
  refine ⟨?_, prpSize_le p 512, prpSize_pos p (by decide)⟩
  unfold prpSize
  dsimp only
  split_ifs <;> omega

theorem natCast_ne {a b : ℕ} (ha : a < 2 ^ 64) (hb : b < 2 ^ 64) (hne : a ≠ b) (q : BitVec 64) :
    q + (a : ℕ) ≠ q + (b : ℕ) := by
  intro heq
  have hcast : ((a : ℕ) : BitVec 64) = (b : ℕ) := add_left_cancel heq
  have hnat := congrArg BitVec.toNat hcast
  rw [BitVec.natCast_eq_ofNat, BitVec.natCast_eq_ofNat, BitVec.toNat_ofNat, BitVec.toNat_ofNat,
    Nat.mod_eq_of_lt ha, Nat.mod_eq_of_lt hb] at hnat
  exact hne hnat

variable (pfnValid : ℕ → Bool)

theorem shortWrite_size : (shortWrite p).size = 512 := by
  unfold CopyCommand.size
  rw [show (shortWrite p).length = 0 from rfl]
  rfl

theorem short_noList : ¬ (shortWrite p).UsesList := by
  have hpage : PAGE_SIZE = 4096 := rfl
  rw [CopyCommand.UsesList, shortWrite_size, hpage]
  omega

theorem short_prpAt_one : prpAt (shortCfg p pfnValid) (shortWrite p) (markedByte p) 1 = pageBase p :=
  if_neg (short_noList p)

theorem short_remAt_one : remAt (shortCfg p pfnValid) (shortWrite p) (markedByte p) 1 = 512 - prpSize p 512 := by
  rw [remAt, remAt, shortWrite_size]
  rfl

/-- How many entries it needs. -/
def shortCount (p : BitVec 64) : ℕ := if 512 - prpSize p 512 = 0 then 1 else 2

theorem short_transfer : CopyDomain (shortCfg p pfnValid) (shortWrite p) (markedByte p) (shortCount p) := by
  obtain ⟨hin, hle, hpos⟩ := prpSize_short p
  have hone := short_remAt_one p pfnValid
  have hprp := short_prpAt_one p pfnValid
  have htwo : remAt (shortCfg p pfnValid) (shortWrite p) (markedByte p) 2 = 0 := by
    have hsucc := @remAt_succ (shortCfg p pfnValid) (shortWrite p) (markedByte p) 1
    rw [hprp, prpSize_aligned (pageOffset_pageBase p), hone] at hsucc
    rw [show (2 : ℕ) = 1 + 1 from rfl]
    omega
  have hsize : remAt (shortCfg p pfnValid) (shortWrite p) (markedByte p) 0 = 512 := shortWrite_size p
  have hdata {j : BitVec 64} (hj : DataByte (shortCfg p pfnValid) (shortWrite p) (markedByte p) (shortCount p) j) :
      ∃ x < 4096, j = pageBase p + (x : ℕ) := by
    obtain ⟨i, hi, k, hk, rfl⟩ := hj
    have hcount : shortCount p ≤ 2 := by unfold shortCount; split_ifs <;> omega
    obtain rfl | rfl : i = 0 ∨ i = 1 := by omega
    · rw [hsize] at hk
      have hk' : k < prpSize p 512 := hk
      refine ⟨pageOffset p + k, by omega, ?_⟩
      rw [Nat.cast_add, ← add_assoc, pageBase_add]
      rfl
    · rw [hprp, prpSize_aligned (pageOffset_pageBase p), hone] at hk
      exact ⟨k, by omega, by rw [hprp]⟩
  refine ⟨?_, ?_, ?_, ?_, ?_, ?_⟩
  · unfold shortCount
    split_ifs with hzero
    · exact hone.trans hzero
    · exact htwo
  · intro i hi
    unfold shortCount at hi
    split_ifs at hi with hzero
    · obtain rfl : i = 0 := by omega
      rw [hsize]
      omega
    · obtain rfl | rfl : i = 0 ∨ i = 1 := by omega
      · rw [hsize]
        omega
      · exact fun h => hzero (hone.symm.trans h)
  · unfold shortCount
    split_ifs <;> omega
  · intro i h0 hi
    have hcount : shortCount p ≤ 2 := by unfold shortCount; split_ifs <;> omega
    obtain rfl : i = 1 := by omega
    rw [hprp]
    exact pageOffset_pageBase p
  · intro j hj hstorage
    obtain ⟨x, hx, rfl⟩ := hdata hj
    obtain ⟨k, hk, heq⟩ := hstorage
    rw [shortWrite_size] at hk
    have hzero : (shortWrite p).offset = 0 := rfl
    rw [hzero, zero_add, shortCfg, add_assoc, ← Nat.cast_add] at heq
    exact natCast_ne (by omega) (by omega) (by omega) _ heq
  · exact fun j hj => absurd hj.1 (short_noList p)

variable {c : CopyCfg} {size : ℕ}

theorem transfer_first (mem : PhysMem) (host offset : BitVec 64) (hpos : 0 < size) (hle : size ≤ 512) :
    transfer c (shortWrite p) mem host offset size (c.storageStart + offset + (0 : ℕ)) = mem (host + (0 : ℕ)) :=
  copy_apply hpos fun i hi hne => natCast_ne (by decide) (by omega) (Ne.symm hne) _

theorem transfer_later (mem : PhysMem) (host offset : BitVec 64) {x : ℕ} (hpos : 0 < x) (hle : x + size ≤ 512) :
    transfer c (shortWrite p) mem host (offset + (x : ℕ)) size (c.storageStart + offset + (0 : ℕ)) =
      mem (c.storageStart + offset + (0 : ℕ)) := by
  refine copy_of_not_mem fun k hk => ?_
  rw [← add_assoc, add_assoc _ (x : BitVec 64), ← Nat.cast_add]
  exact natCast_ne (by decide) (by omega) (by omega) _

theorem short_dma_byte : memAt (shortCfg p pfnValid) (shortWrite p) (markedByte p) (shortCount p)
    ((shortCfg p pfnValid).storageStart + (shortWrite p).offset + (0 : ℕ)) = 1 := by
  obtain ⟨hin, hle, hpos⟩ := prpSize_short p
  have hfirst : memAt (shortCfg p pfnValid) (shortWrite p) (markedByte p) 1
      ((shortCfg p pfnValid).storageStart + (shortWrite p).offset + (0 : ℕ)) = 1 := by
    rw [memAt, memAt, offsetAt_zero, show remAt _ (shortWrite p) (markedByte p) 0 = 512 from shortWrite_size p,
      transfer_first p _ _ _ (prpSize_pos _ (by decide)) (prpSize_le _ _)]
    exact if_pos (add_zero p)
  unfold shortCount
  split_ifs with hzero
  · exact hfirst
  · have hone := short_remAt_one p pfnValid
    have hsize := prpSize_le (prpAt (shortCfg p pfnValid) (shortWrite p) (markedByte p) 1) (512 - prpSize p 512)
    rw [memAt, offsetAt, hone, shortWrite_size, Nat.sub_sub_self hle, transfer_later p _ _ _ hpos (by omega)]
    exact hfirst

theorem short_memcpy_byte {mem : PhysMem} (hpfn : pfnValid (p.toNat / PAGE_SIZE) = false) (ho : pageOffset p ≠ 0)
    (h : doPerformIo (shortCfg p pfnValid) (shortWrite p) (markedByte p) = .ok mem) :
    mem ((shortCfg p pfnValid).storageStart + (shortWrite p).offset + (0 : ℕ)) = 0 := by
  obtain ⟨hin, hle, hpos⟩ := prpSize_short p
  have hlt := pageOffset_lt p
  have hbyte : markedByte p (p + (pageOffset p : ℕ) + (0 : ℕ)) = 0 := by
    refine if_neg fun heq => ?_
    rw [add_assoc, ← Nat.cast_add, Nat.add_zero] at heq
    exact natCast_ne (show pageOffset p < 2 ^ 64 by omega) (show 0 < 2 ^ 64 by decide) ho p
      (heq.trans (add_zero p).symm)
  have hmap : mapPage (shortCfg p pfnValid) p = p :=
    if_neg (by rw [show (shortCfg p pfnValid).pfnValid = pfnValid from rfl, hpfn]; simp)
  have hfirst (mem : PhysMem) : transfer (shortCfg p pfnValid) (shortWrite p) (markedByte p) (p + (pageOffset p : ℕ))
      (shortWrite p).offset (prpSize p 512) = mem →
        mem ((shortCfg p pfnValid).storageStart + (shortWrite p).offset + (0 : ℕ)) = 0 := by
    rintro rfl
    rw [transfer_first p _ _ _ hpos hle, hbyte]
  have hloop : performIoLoop (shortCfg p pfnValid) (shortWrite p) (509 + 1 + 1 + 1) .start (shortWrite p).offset 512
      (markedByte p) = .ok mem := by
    unfold doPerformIo at h
    rwa [shortWrite_size] at h
  have hnext : nextPrp (shortCfg p pfnValid) (shortWrite p) (markedByte p) 512 .start = .ok (p, ⟨1, 0, none⟩) := rfl
  rw [performIoLoop, if_neg (by decide), hnext, ok_bind] at hloop
  dsimp only at hloop
  rw [hmap] at hloop
  generalize hmem : transfer (shortCfg p pfnValid) (shortWrite p) (markedByte p) (p + (pageOffset p : ℕ))
    (shortWrite p).offset (prpSize p 512) = mem₁ at hloop
  rw [performIoLoop] at hloop
  split_ifs at hloop with hzero
  · exact hfirst mem (hmem.trans (Except.ok.inj hloop))
  · have hlast : nextPrp (shortCfg p pfnValid) (shortWrite p) mem₁ (512 - prpSize p 512) ⟨1, 0, none⟩ =
        .ok (pageBase p, ⟨2, 0, none⟩) := by
      have hpage : PAGE_SIZE = 4096 := rfl
      unfold nextPrp
      dsimp only
      rw [if_neg (by decide), if_pos rfl, if_neg (by omega)]
      rfl
    have hdone : 512 - prpSize p 512 - prpSize (pageBase p) (512 - prpSize p 512) = 0 := by
      rw [prpSize_aligned (pageOffset_pageBase p)]
      omega
    have hsize := prpSize_le (pageBase p) (512 - prpSize p 512)
    rw [hlast, ok_bind] at hloop
    dsimp only at hloop
    rw [performIoLoop, if_pos hdone] at hloop
    obtain rfl := Except.ok.inj hloop
    rw [transfer_later p _ _ _ hpos (by omega)]
    exact hfirst mem₁ hmem

/-- **The paths differ** if the page is not found. -/
theorem short_differs (hpfn : pfnValid (p.toNat / PAGE_SIZE) = false) (ho : pageOffset p ≠ 0) :
    ¬ PathsAgree (shortCfg p pfnValid) (shortWrite p) (markedByte p) := by
  rintro ⟨r, hdma, hmemcpy, -⟩
  rw [(short_transfer p pfnValid).doPerformIoUsingDma] at hdma
  obtain rfl := Except.ok.inj hdma
  have hzero := short_memcpy_byte p pfnValid hpfn ho hmemcpy
  have hone : (1 : BitVec 8) = 0 := (short_dma_byte p pfnValid).symm.trans hzero
  exact absurd hone (by decide)

end short

/-! ## The theorem -/

/-- The copies of every command from `prp1` on agree, wherever the storage is and whatever the
    memory holds. -/
def AgreesFrom (pfnValid : ℕ → Bool) (prp1 : BitVec 64) : Prop :=
  ∀ storageStart cmd mem n, cmd.prp1 = prp1 → CopyDomain ⟨storageStart, pfnValid⟩ cmd mem n →
    PathsAgree ⟨storageStart, pfnValid⟩ cmd mem

/-- **The DMA path moves the bytes of the `memcpy` path** exactly if the first page has a page
    frame or is met at its start. -/
theorem dma_copies_agree_iff (pfnValid : ℕ → Bool) (prp1 : BitVec 64) :
    AgreesFrom pfnValid prp1 ↔ pfnValid (prp1.toNat / PAGE_SIZE) = true ∨ pageOffset prp1 = 0 := by
  constructor
  · intro hagrees
    by_contra hno
    rw [not_or, Bool.not_eq_true] at hno
    exact short_differs prp1 pfnValid hno.1 hno.2 (hagrees _ _ _ _ rfl (short_transfer prp1 pfnValid))
  · rintro hfirst storageStart cmd mem n rfl h
    exact h.pathsAgree hfirst

/-- A block is written from the address 4112, on a page that has no page frame: the `memcpy` path
    copies the bytes from 4128 on. -/
theorem dma_copies_differ :
    CopyDomain (shortCfg 4112 fun _ => false) (shortWrite 4112) (markedByte 4112) (shortCount 4112) ∧
      ¬ PathsAgree (shortCfg 4112 fun _ => false) (shortWrite 4112) (markedByte 4112) :=
  ⟨short_transfer _ _, short_differs _ _ rfl (by decide)⟩

end WaitGc

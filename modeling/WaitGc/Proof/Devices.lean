/-
  WAITGC verification — concrete devices.

  * SAMSUNG_970PRO: a capacity decides one number, the wordlines of a block
    (`wordlines`).  Up to 5461 of them the geometry is `pro970 n`, and
    `ssd_init_params` computes it.
  * `tiny` has four lines of two pages; the short runs that show a collection
    are on it.
-/
import WaitGc.Ftl.Device
import Mathlib.Tactic.NormNum
import Mathlib.Tactic.Ring

namespace WaitGc

open Outcome

/-- The wordlines of a block, for a capacity. -/
def wordlines (capacity : ℕ) : ℕ := divRoundUp (divRoundUp capacity 512) 49152

/-- The parameters for `n` wordlines in a block. -/
def pro970Params (n : ℕ) : SsdParams where
  secsPerPg := 8
  pgsz := 4096
  pgsPerFlashpg := 4
  flashpgsPerBlk := 3 * n
  pgsPerOneshotpg := 12
  oneshotpgsPerBlk := n
  pgsPerBlk := 12 * n
  blksPerPl := 32
  plsPerLun := 1
  lunsPerCh := 2
  nchs := 8
  cellMode := 3
  writeEarlyCompletion := true
  pg4kbRdLat _ := 45000
  pgRdLat _ := 45000
  pgWrLat := 1140000
  blkErLat := 3500000
  maxChXferSize := 16384
  fw4kbRdLat := 21500
  fwRdLat := 30490
  fwWbufLat0 := 4000
  fwWbufLat1 := 460
  fwChXferLat := 0
  chBandwidth := 800
  pcieBandwidth := 3360
  pgsPerPl := 384 * n
  pgsPerLun := 384 * n
  pgsPerCh := 768 * n
  ttPgs := 6144 * n
  blksPerLun := 32
  ttLuns := 16
  blksPerLine := 16
  pgsPerLine := 192 * n
  ttLines := 32
  writeBufferSize := 1572864

/-- The geometry for `n` wordlines in a block. -/
def pro970 (n : ℕ) (hpos : 0 < n) (hle : n ≤ 5461) : Geometry where
  toSsdParams := pro970Params n
  secs_pos := Nat.succ_pos 7
  nchs_pos := Nat.succ_pos 7
  luns_pos := Nat.succ_pos 1
  blks_pos := Nat.succ_pos 31
  oneshotpg_pos := Nat.succ_pos 11
  oneshotpgs_pos := hpos
  pgsz_eq := rfl
  plsPerLun_eq := rfl
  pgsPerBlk_eq := Nat.mul_comm 12 n
  flashpgs_eq := by simp only [pro970Params]; ring
  pgsPerPl_eq := by simp only [pro970Params]; ring
  pgsPerLun_eq := by simp only [pro970Params]; ring
  pgsPerCh_eq := by simp only [pro970Params]; ring
  ttPgs_eq := by simp only [pro970Params]; ring
  blksPerLine_eq := rfl
  pgsPerLine_eq := by simp only [pro970Params]; ring
  ttLines_eq := rfl
  nchs_le := by simp only [pro970Params]; norm_num
  luns_le := by simp only [pro970Params]; norm_num
  blks_le := by simp only [pro970Params]; norm_num
  pgs_le := by simp only [pro970Params]; omega

theorem int32_of_lt {x : ℤ} (h₀ : 0 ≤ x) (h : x < 2 ^ 31) : int32 x = x := by
  unfold int32
  exact Int.bmod_eq_of_le (by omega) (by omega)

theorem ulong_of_lt {n : ℕ} (h : n < 2 ^ 64) : ulong n = n := by
  unfold ulong
  omega

theorem u64_of_lt {n : ℕ} (h : n < 2 ^ 64) : u64 n = n := Nat.mod_eq_of_lt h

/-- The parameters as they are computed, `o` the wordlines of a block as an
    `int`. -/
def wrappedParams (o : ℤ) : SsdParams :=
  let pgsPerBlk := int32 ((12 : ℕ) * o)
  let pgsPerPl := ulong (int32 (pgsPerBlk * (32 : ℕ)))
  let pgsPerCh := u64 (u64 (pgsPerPl * 1) * 2)
  { pro970Params o.toNat with
    flashpgsPerBlk := (int32 ((3 : ℕ) * o)).toNat
    pgsPerBlk := pgsPerBlk.toNat
    pgsPerPl := pgsPerPl
    pgsPerLun := u64 (pgsPerPl * 1)
    pgsPerCh := pgsPerCh
    ttPgs := u64 (pgsPerCh * 8)
    pgsPerLine := u64 (16 * ulong pgsPerBlk) }

/-- **`ssd_init_params`** for any capacity. -/
theorem ssdInitParams_wrapped (capacity : ℕ) :
    ssdInitParams samsung970Pro capacity 1 = .ok (wrappedParams (int32 (wordlines capacity))) := by
  have hlba : LBA_SIZE = 512 := rfl
  unfold ssdInitParams wordlines
  simp only [samsung970Pro, Nat.div_one, hlba]
  norm_num [nvmevAssert, require, wrappedParams, pro970Params]
  exact ⟨rfl, by decide⟩

theorem wrappedParams_eq {n : ℕ} (hle : n ≤ 5461) : wrappedParams n = pro970Params n := by
  have hblk : int32 ((12 : ℕ) * (n : ℤ)) = (12 * n : ℕ) := by
    rw [int32_of_lt (by omega) (by omega)]
    push_cast
    rfl
  have hflash : int32 ((3 : ℕ) * (n : ℤ)) = (3 * n : ℕ) := by
    rw [int32_of_lt (by omega) (by omega)]
    push_cast
    rfl
  have hpl : int32 (((12 * n : ℕ) : ℤ) * (32 : ℕ)) = (384 * n : ℕ) := by
    rw [int32_of_lt (by omega) (by omega)]
    push_cast
    ring
  simp only [wrappedParams, hblk, hflash, hpl, pro970Params, Int.toNat_natCast]
  have h₁ : u64 (384 * n * 1) = 384 * n := by rw [u64_of_lt (by omega)]; ring
  have h₂ : u64 (384 * n * 2) = 768 * n := by rw [u64_of_lt (by omega)]; ring
  have h₃ : u64 (768 * n * 8) = 6144 * n := by rw [u64_of_lt (by omega)]; ring
  have h₄ : u64 (16 * (12 * n)) = 192 * n := by rw [u64_of_lt (by omega)]; ring
  rw [ulong_of_lt (by omega), ulong_of_lt (by omega), h₁, h₂, h₃, h₄]

/-- **`ssd_init_params`** for few wordlines. -/
theorem ssdInitParams_pro970 {capacity : ℕ} (hle : wordlines capacity ≤ 5461) :
    ssdInitParams samsung970Pro capacity 1 = .ok (pro970Params (wordlines capacity)) := by
  rw [ssdInitParams_wrapped, int32_of_lt (by omega) (by omega), wrappedParams_eq hle]

/-- The module on this device, with `n` wordlines in a block. -/
def pro970Cfg (build : Build) (n : ℕ) (hpos : 0 < n) (hle : n ≤ 5461) : Cfg where
  geo := pro970 n hpos hle
  cp := convInitParams
  build := build
  nrParts := 1
  nrParts_pos := Nat.one_pos

/-- The smallest device under the greedy policy. -/
def greedyCfg : Cfg := pro970Cfg ⟨.greedy, false, 0⟩ 1 Nat.one_pos (by norm_num)

/-! ## Short runs -/

/-- A page is written twice and deallocated. -/
def trimRun : List Event :=
  [.dispatch ⟨.write ⟨0, 7, 0⟩, 0⟩, .resume, .resume, .resume,
    .dispatch ⟨.write ⟨0, 7, 0⟩, 0⟩, .resume, .resume, .resume,
    .dispatch ⟨.dsm ⟨0, 4, some fun _ => ⟨8, 0⟩⟩, 0⟩]

theorem trimRun_ok : ∃ dev d,
    convInitNamespace greedyCfg (fun _ _ => .null) (fun _ => 0) = .ok dev ∧
      (device greedyCfg).run ⟨dev, none⟩ trimRun = .ok d := ⟨_, _, rfl, rfl⟩

theorem trimRun_reachable : ∃ d, Reachable greedyCfg d := by
  obtain ⟨dev, d, hinit, hrun⟩ := trimRun_ok
  exact ⟨d, _, _, dev, _, hinit, hrun⟩

/-- One block of two pages in a line. -/
def tiny : Geometry where
  toSsdParams :=
    { pro970Params 1 with
      nchs := 1
      lunsPerCh := 1
      blksPerPl := 4
      pgsPerOneshotpg := 1
      pgsPerFlashpg := 1
      oneshotpgsPerBlk := 2
      flashpgsPerBlk := 2
      pgsPerBlk := 2
      pgsPerPl := 8
      pgsPerLun := 8
      pgsPerCh := 8
      ttPgs := 8
      blksPerLun := 4
      ttLuns := 1
      blksPerLine := 1
      pgsPerLine := 2
      ttLines := 4 }
  secs_pos := Nat.succ_pos 7
  nchs_pos := Nat.one_pos
  luns_pos := Nat.one_pos
  blks_pos := Nat.succ_pos 3
  oneshotpg_pos := Nat.one_pos
  oneshotpgs_pos := Nat.succ_pos 1
  pgsz_eq := rfl
  plsPerLun_eq := rfl
  pgsPerBlk_eq := rfl
  flashpgs_eq := rfl
  pgsPerPl_eq := rfl
  pgsPerLun_eq := rfl
  pgsPerCh_eq := rfl
  ttPgs_eq := rfl
  blksPerLine_eq := rfl
  pgsPerLine_eq := rfl
  ttLines_eq := rfl
  nchs_le := by norm_num
  luns_le := by norm_num
  blks_le := by norm_num
  pgs_le := by norm_num

/-- The greedy build on the tiny device. -/
def tinyCfg : Cfg := ⟨tiny, convInitParams, ⟨.greedy, false, 0⟩, 1, Nat.one_pos⟩

/-- Six lines of one block of two pages. -/
def six : Geometry :=
  { tiny with
    toSsdParams :=
      { tiny.toSsdParams with
        blksPerPl := 6
        pgsPerPl := 12
        pgsPerLun := 12
        pgsPerCh := 12
        ttPgs := 12
        blksPerLun := 6
        ttLines := 6 }
    blks_pos := Nat.succ_pos 5
    pgsPerPl_eq := rfl
    pgsPerLun_eq := rfl
    pgsPerCh_eq := rfl
    ttPgs_eq := rfl
    ttLines_eq := rfl
    blks_le := by norm_num }

/-- The greedy build on six lines. -/
def sixCfg : Cfg := ⟨six, convInitParams, ⟨.greedy, false, 0⟩, 1, Nat.one_pos⟩

/-- Pages are written one after the other. -/
def pagesRun (lpns : List ℕ) : List Event :=
  lpns.flatMap fun lpn => [.dispatch ⟨.write ⟨.ofNat 64 (lpn * 8), 7, 0⟩, 0⟩, .resume, .resume, .resume]

/-- Four lines of one page. -/
def single : Geometry :=
  { tiny with
    toSsdParams :=
      { tiny.toSsdParams with
        oneshotpgsPerBlk := 1
        flashpgsPerBlk := 1
        pgsPerBlk := 1
        pgsPerPl := 4
        pgsPerLun := 4
        pgsPerCh := 4
        ttPgs := 4
        pgsPerLine := 1 }
    oneshotpgs_pos := Nat.one_pos
    pgsPerBlk_eq := rfl
    flashpgs_eq := rfl
    pgsPerPl_eq := rfl
    pgsPerLun_eq := rfl
    pgsPerCh_eq := rfl
    ttPgs_eq := rfl
    pgsPerLine_eq := rfl
    pgs_le := by norm_num }

/-- The greedy build on it. -/
def singleCfg : Cfg := ⟨single, convInitParams, ⟨.greedy, false, 0⟩, 1, Nat.one_pos⟩

/-- One page is written. -/
def onePageRun : List Event := [.dispatch ⟨.write ⟨0, 7, 0⟩, 0⟩, .resume, .resume, .resume]

/-- One block of one wordline in a line. -/
def duo : Geometry :=
  { tiny with
    toSsdParams :=
      { tiny.toSsdParams with
        pgsPerOneshotpg := 2
        pgsPerFlashpg := 2
        oneshotpgsPerBlk := 1
        flashpgsPerBlk := 1 }
    oneshotpg_pos := Nat.succ_pos 1
    oneshotpgs_pos := Nat.one_pos
    pgsPerBlk_eq := rfl
    flashpgs_eq := rfl }

/-- The build `b` on this device. -/
def duoCfg (b : Build) : Cfg := ⟨duo, convInitParams, b, 1, Nat.one_pos⟩

/-- The greedy build on it. -/
def duoGreedyCfg : Cfg := duoCfg ⟨.greedy, false, 0⟩

/-- A page is written twice.  The credits are used up then, and the line is collected. -/
def rewriteRun : List Event :=
  [.dispatch ⟨.write ⟨0, 7, 0⟩, 0⟩, .resume, .resume, .resume,
    .dispatch ⟨.write ⟨0, 7, 0⟩, 0⟩, .resume, .resume]

end WaitGc

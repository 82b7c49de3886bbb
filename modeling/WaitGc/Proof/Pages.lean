/-
  WAITGC verification — the pages of a geometry.

  * `Geometry.ord` numbers the pages of a line in the order in which a write
    pointer visits them: wordline, LUN, channel, page of the wordline.
    `Geometry.pageAt` is its inverse.
  * `Geometry.idx` is the index `ppa2pgidx` computes; it numbers all pages of
    the device.
  * `IsPage` says that a `struct ppa` names a page of the device.
-/
import WaitGc.Ftl.State
import WaitGc.Lib.Radix
import Mathlib.Tactic.NormNum
import Mathlib.Tactic.Positivity

namespace WaitGc

open Radix

namespace Geometry
variable (g : Geometry)

/-- Coordinates inside a line. -/
structure InLine (ch lun pg : ℕ) : Prop where
  ch_lt : ch < g.nchs
  lun_lt : lun < g.lunsPerCh
  pg_lt : pg < g.pgsPerBlk

/-! ## The order of the pages of a line -/

/-- The place of a page in the order of its line. -/
def ord (ch lun pg : ℕ) : ℕ :=
  ((pg / g.pgsPerOneshotpg * g.lunsPerCh + lun) * g.nchs + ch) * g.pgsPerOneshotpg +
    pg % g.pgsPerOneshotpg

/-- The channel of the `k`-th page of a line. -/
def chAt (k : ℕ) : ℕ := k / g.pgsPerOneshotpg % g.nchs

/-- The LUN of the `k`-th page of a line. -/
def lunAt (k : ℕ) : ℕ := k / g.pgsPerOneshotpg / g.nchs % g.lunsPerCh

/-- The page number of the `k`-th page of a line. -/
def pgAt (k : ℕ) : ℕ :=
  k / g.pgsPerOneshotpg / g.nchs / g.lunsPerCh * g.pgsPerOneshotpg + k % g.pgsPerOneshotpg

variable {g} {ch lun pg ch' lun' pg' k : ℕ}

theorem pgsPerLine_eq' :
    g.pgsPerLine = g.oneshotpgsPerBlk * g.lunsPerCh * g.nchs * g.pgsPerOneshotpg := by
  rw [g.pgsPerLine_eq, g.blksPerLine_eq, g.pgsPerBlk_eq]; ring

theorem pgsPerLine_pos : 0 < g.pgsPerLine := by
  rw [pgsPerLine_eq']
  exact Nat.mul_pos (Nat.mul_pos (Nat.mul_pos g.oneshotpgs_pos g.luns_pos) g.nchs_pos)
    g.oneshotpg_pos

theorem pgsPerBlk_pos : 0 < g.pgsPerBlk := by
  rw [g.pgsPerBlk_eq]; exact Nat.mul_pos g.oneshotpgs_pos g.oneshotpg_pos

theorem wordline_lt (h : pg < g.pgsPerBlk) : pg / g.pgsPerOneshotpg < g.oneshotpgsPerBlk :=
  Nat.div_lt_of_lt_mul (by rw [Nat.mul_comm, ← g.pgsPerBlk_eq]; exact h)

theorem ord_lt (h : g.InLine ch lun pg) : g.ord ch lun pg < g.pgsPerLine := by
  rw [pgsPerLine_eq']
  exact pair_lt (pair_lt (pair_lt (wordline_lt h.pg_lt) h.lun_lt) h.ch_lt)
    (Nat.mod_lt _ g.oneshotpg_pos)

theorem ord_inj (h : g.InLine ch lun pg) (h' : g.InLine ch' lun' pg')
    (he : g.ord ch lun pg = g.ord ch' lun' pg') : ch = ch' ∧ lun = lun' ∧ pg = pg' := by
  obtain ⟨he, hoff⟩ := pair_inj (Nat.mod_lt _ g.oneshotpg_pos) (Nat.mod_lt _ g.oneshotpg_pos) he
  obtain ⟨he, hch⟩ := pair_inj h.ch_lt h'.ch_lt he
  obtain ⟨hw, hlun⟩ := pair_inj h.lun_lt h'.lun_lt he
  refine ⟨hch, hlun, ?_⟩
  rw [← Nat.div_add_mod pg g.pgsPerOneshotpg, hw, hoff, Nat.div_add_mod]

theorem inLine_at (hk : k < g.pgsPerLine) : g.InLine (g.chAt k) (g.lunAt k) (g.pgAt k) := by
  refine ⟨Nat.mod_lt _ g.nchs_pos, Nat.mod_lt _ g.luns_pos, ?_⟩
  rw [g.pgsPerBlk_eq]
  refine pair_lt ?_ (Nat.mod_lt _ g.oneshotpg_pos)
  rw [Nat.div_div_eq_div_mul, Nat.div_div_eq_div_mul, Nat.div_lt_iff_lt_mul (by
    have := g.oneshotpg_pos; have := g.nchs_pos; have := g.luns_pos; positivity)]
  rw [pgsPerLine_eq'] at hk
  calc k < _ := hk
    _ = _ := by ring

theorem ord_at (k : ℕ) : g.ord (g.chAt k) (g.lunAt k) (g.pgAt k) = k := by
  have hmod := Nat.mod_lt k g.oneshotpg_pos
  unfold ord pgAt
  rw [pair_div hmod, pair_mod hmod, lunAt, chAt, Nat.div_add_mod', Nat.div_add_mod',
    Nat.div_add_mod']

theorem at_ord (h : g.InLine ch lun pg) :
    g.chAt (g.ord ch lun pg) = ch ∧ g.lunAt (g.ord ch lun pg) = lun ∧
      g.pgAt (g.ord ch lun pg) = pg :=
  ord_inj (inLine_at (ord_lt h)) h (ord_at _)

/-! ## The index of all pages -/

variable (g) in
/-- The index of a page of the device. -/
def idx (ch lun blk pg : ℕ) : ℕ :=
  ((ch * g.lunsPerCh + lun) * g.blksPerPl + blk) * g.pgsPerBlk + pg

theorem ttPgs_eq' : g.ttPgs = g.nchs * g.lunsPerCh * g.blksPerPl * g.pgsPerBlk := by
  rw [g.ttPgs_eq, g.pgsPerCh_eq, g.pgsPerLun_eq, g.pgsPerPl_eq, g.plsPerLun_eq]; ring

theorem ttPgs_eq_lines : g.ttPgs = g.ttLines * g.pgsPerLine := by
  rw [ttPgs_eq', g.ttLines_eq, g.pgsPerLine_eq, g.blksPerLine_eq, g.plsPerLun_eq]; ring

theorem ttLines_eq' : g.ttLines = g.blksPerPl := by
  rw [g.ttLines_eq, g.plsPerLun_eq, Nat.mul_one]

theorem ttPgs_le : g.ttPgs ≤ 2 ^ 48 := by
  rw [ttPgs_eq']
  calc g.nchs * g.lunsPerCh * g.blksPerPl * g.pgsPerBlk ≤ 2 ^ 8 * 2 ^ 8 * 2 ^ 16 * 2 ^ 16 :=
        Nat.mul_le_mul (Nat.mul_le_mul (Nat.mul_le_mul g.nchs_le g.luns_le) g.blks_le) g.pgs_le
    _ = 2 ^ 48 := by norm_num

theorem idx_lt {blk : ℕ} (h : g.InLine ch lun pg) (hb : blk < g.blksPerPl) :
    g.idx ch lun blk pg < g.ttPgs := by
  rw [ttPgs_eq']
  exact pair_lt (pair_lt (pair_lt h.ch_lt h.lun_lt) hb) h.pg_lt

theorem idx_inj {blk blk' : ℕ} (h : g.InLine ch lun pg) (hb : blk < g.blksPerPl)
    (h' : g.InLine ch' lun' pg') (hb' : blk' < g.blksPerPl)
    (he : g.idx ch lun blk pg = g.idx ch' lun' blk' pg') :
    ch = ch' ∧ lun = lun' ∧ blk = blk' ∧ pg = pg' := by
  obtain ⟨he, hpg⟩ := pair_inj h.pg_lt h'.pg_lt he
  obtain ⟨he, hblk⟩ := pair_inj hb hb' he
  obtain ⟨hch, hlun⟩ := pair_inj h.lun_lt h'.lun_lt he
  exact ⟨hch, hlun, hblk, hpg⟩

theorem idx_surj {n : ℕ} (hn : n < g.ttPgs) :
    ∃ ch lun blk pg, g.InLine ch lun pg ∧ blk < g.blksPerPl ∧ g.idx ch lun blk pg = n := by
  rw [ttPgs_eq'] at hn
  have hpg := g.pgsPerBlk_pos
  refine ⟨n / g.pgsPerBlk / g.blksPerPl / g.lunsPerCh, n / g.pgsPerBlk / g.blksPerPl % g.lunsPerCh,
    n / g.pgsPerBlk % g.blksPerPl, n % g.pgsPerBlk,
    ⟨?_, Nat.mod_lt _ g.luns_pos, Nat.mod_lt _ hpg⟩, Nat.mod_lt _ g.blks_pos, ?_⟩
  · rw [Nat.div_div_eq_div_mul, Nat.div_div_eq_div_mul, Nat.div_lt_iff_lt_mul (by
      have := g.blks_pos; have := g.luns_pos; positivity)]
    calc n < _ := hn
      _ = _ := by ring
  · unfold idx
    rw [Nat.div_add_mod', Nat.div_add_mod', Nat.div_add_mod']

end Geometry

/-! ## Page addresses -/

@[ext] theorem Ppa.ext' {p q : Ppa} (hpg : p.pg.toNat = q.pg.toNat) (hblk : p.blk.toNat = q.blk.toNat)
    (hpl : p.pl.toNat = q.pl.toNat) (hlun : p.lun.toNat = q.lun.toNat)
    (hch : p.ch.toNat = q.ch.toNat) (hrsv : p.rsv = q.rsv) : p = q := by
  obtain ⟨pg, blk, pl, lun, ch, rsv⟩ := p
  simp only [BitVec.toNat_inj] at *
  subst hpg hblk hpl hlun hch hrsv
  rfl

/-- A `struct ppa` with no bit set in `rsv` is not the unmapped value. -/
theorem mappedPpa_of_rsv {p : Ppa} (h : p.rsv = 0) : mappedPpa p = true := by
  have hmsb : p.ppa.msb = false := by
    simp only [Ppa.ppa, h, BitVec.msb_append]; rfl
  simp only [mappedPpa, bne_iff_ne, ne_eq]
  intro he
  rw [he] at hmsb
  exact absurd hmsb (by decide)

@[simp] theorem mappedPpa_unmapped : mappedPpa .unmapped = false := by decide

variable {c : Cfg} {p q : Ppa}

/-- `p` names a page of the device. -/
def IsPage (c : Cfg) (p : Ppa) : Prop := validPpa c.sp p = true ∧ p.rsv = 0

/-- The place of a page in the order of its line. -/
def Ppa.ord (c : Cfg) (p : Ppa) : ℕ := c.geo.ord p.ch.toNat p.lun.toNat p.pg.toNat

/-- The `k`-th page of line `i`. -/
def pageAt (c : Cfg) (i k : ℕ) : Ppa := .store (c.geo.chAt k) (c.geo.lunAt k) 0 i (c.geo.pgAt k)

theorem isPage_iff : IsPage c p ↔ c.geo.InLine p.ch.toNat p.lun.toNat p.pg.toNat ∧
    p.line < c.sp.blksPerPl ∧ p.pl = 0 ∧ p.rsv = 0 := by
  have hpl : p.pl.toNat < c.sp.plsPerLun ↔ p.pl = 0 := by
    rw [c.geo.plsPerLun_eq, Nat.lt_one_iff, ← BitVec.toNat_inj]; rfl
  simp only [IsPage, validPpa, Bool.and_eq_true, decide_eq_true_eq, hpl, Ppa.line]
  constructor
  · rintro ⟨⟨⟨⟨⟨h₁, h₂⟩, h₃⟩, h₄⟩, h₅⟩, h₆⟩; exact ⟨⟨h₁, h₂, h₅⟩, h₄, h₃, h₆⟩
  · rintro ⟨⟨h₁, h₂, h₅⟩, h₄, h₃, h₆⟩; exact ⟨⟨⟨⟨⟨h₁, h₂⟩, h₃⟩, h₄⟩, h₅⟩, h₆⟩

theorem IsPage.inLine (h : IsPage c p) : c.geo.InLine p.ch.toNat p.lun.toNat p.pg.toNat :=
  (isPage_iff.1 h).1

theorem IsPage.line_lt (h : IsPage c p) : p.line < c.sp.blksPerPl := (isPage_iff.1 h).2.1

theorem IsPage.pl_eq (h : IsPage c p) : p.pl = 0 := (isPage_iff.1 h).2.2.1

theorem IsPage.mapped (h : IsPage c p) : mappedPpa p = true := mappedPpa_of_rsv h.2

theorem IsPage.ord_lt (h : IsPage c p) : p.ord c < c.sp.pgsPerLine := Geometry.ord_lt h.inLine

theorem store_fields {ch lun i pg : ℕ} (h : c.geo.InLine ch lun pg) (hi : i < c.sp.blksPerPl) :
    (Ppa.store ch lun 0 i pg).ch.toNat = ch ∧ (Ppa.store ch lun 0 i pg).lun.toNat = lun ∧
      (Ppa.store ch lun 0 i pg).blk.toNat = i ∧ (Ppa.store ch lun 0 i pg).pg.toNat = pg := by
  have h₁ := h.ch_lt.trans_le c.geo.nchs_le
  have h₂ := h.lun_lt.trans_le c.geo.luns_le
  have h₃ := hi.trans_le c.geo.blks_le
  have h₄ := h.pg_lt.trans_le c.geo.pgs_le
  simp only [Ppa.store, BitVec.toNat_ofNat]
  exact ⟨Nat.mod_eq_of_lt h₁, Nat.mod_eq_of_lt h₂, Nat.mod_eq_of_lt h₃, Nat.mod_eq_of_lt h₄⟩

theorem isPage_store {ch lun i pg : ℕ} (h : c.geo.InLine ch lun pg) (hi : i < c.sp.blksPerPl) :
    IsPage c (.store ch lun 0 i pg) ∧ (Ppa.store ch lun 0 i pg).line = i ∧
      (Ppa.store ch lun 0 i pg).ord c = c.geo.ord ch lun pg := by
  obtain ⟨h₁, h₂, h₃, h₄⟩ := store_fields h hi
  refine ⟨isPage_iff.2 ⟨?_, ?_, rfl, rfl⟩, h₃, ?_⟩
  · rw [h₁, h₂, h₄]; exact h
  · rw [Ppa.line, h₃]; exact hi
  · rw [Ppa.ord, h₁, h₂, h₄]

theorem isPage_pageAt {i k : ℕ} (hi : i < c.sp.blksPerPl) (hk : k < c.sp.pgsPerLine) :
    IsPage c (pageAt c i k) ∧ (pageAt c i k).line = i ∧ (pageAt c i k).ord c = k := by
  obtain ⟨h₁, h₂, h₃⟩ := isPage_store (Geometry.inLine_at hk) hi
  exact ⟨h₁, h₂, h₃.trans (Geometry.ord_at k)⟩

theorem IsPage.eq (hp : IsPage c p) (hq : IsPage c q) (hl : p.line = q.line)
    (ho : p.ord c = q.ord c) : p = q := by
  obtain ⟨h₁, h₂, h₃⟩ := Geometry.ord_inj hp.inLine hq.inLine ho
  exact Ppa.ext' h₃ hl (by rw [hp.pl_eq, hq.pl_eq]) h₂ h₁ (by rw [hp.2, hq.2])

theorem IsPage.pageAt_eq (h : IsPage c p) : pageAt c p.line (p.ord c) = p := by
  obtain ⟨h₁, h₂, h₃⟩ := isPage_pageAt h.line_lt h.ord_lt
  exact h₁.eq h h₂ h₃

/-! ## `ppa2pgidx` -/

theorem pgidx_eq (h : IsPage c p) :
    p.pgidx c.sp = c.geo.idx p.ch.toNat p.lun.toNat p.line p.pg.toNat := by
  have hidx : p.ch.toNat * c.sp.pgsPerCh + p.lun.toNat * c.sp.pgsPerLun +
      p.pl.toNat * c.sp.pgsPerPl + p.blk.toNat * c.sp.pgsPerBlk + p.pg.toNat =
      c.geo.idx p.ch.toNat p.lun.toNat p.line p.pg.toNat := by
    have hpl : p.pl.toNat = 0 := by rw [h.pl_eq]; rfl
    rw [c.geo.pgsPerCh_eq, c.geo.pgsPerLun_eq, c.geo.pgsPerPl_eq, c.geo.plsPerLun_eq, hpl,
      Geometry.idx, Ppa.line]
    ring
  rw [Ppa.pgidx, hidx, u64, Nat.mod_eq_of_lt]
  exact (Geometry.idx_lt h.inLine h.line_lt).trans_le (Geometry.ttPgs_le.trans (by norm_num))

theorem pgidx_lt (h : IsPage c p) : p.pgidx c.sp < c.sp.ttPgs := by
  rw [pgidx_eq h]; exact Geometry.idx_lt h.inLine h.line_lt

theorem pgidx_inj (hp : IsPage c p) (hq : IsPage c q) (h : p.pgidx c.sp = q.pgidx c.sp) : p = q := by
  rw [pgidx_eq hp, pgidx_eq hq] at h
  obtain ⟨h₁, h₂, h₃, h₄⟩ := Geometry.idx_inj hp.inLine hp.line_lt hq.inLine hq.line_lt h
  exact Ppa.ext' h₄ h₃ (by rw [hp.pl_eq, hq.pl_eq]) h₂ h₁ (by rw [hp.2, hq.2])

theorem ppa2pgidx_ok (h : IsPage c p) : ppa2pgidx c.sp p = .ok (p.pgidx c.sp) := by
  rw [ppa2pgidx, nvmevAssert_pos (pgidx_lt h)]; rfl

end WaitGc

/-
  WAITGC verification — a write pointer walks through its line.

  `WritePointer.advance` is the part of `advance_write_pointer` that moves the
  pointer (`advanceWritePointer_eq`); it depends on the counts of the geometry
  only, whether page addresses can express them or not.

  `advanceWritePointer_cases`: a write pointer inside its line moves to the next
  page in the order of the line, or, at the last page, closes the line and
  opens the next free one.  None of the `check_addr` assertions fails.
-/
import WaitGc.Ftl.Lines
import WaitGc.Proof.Pages

namespace WaitGc

open Outcome Radix

/-- A write pointer inside its line. -/
structure WpOk (c : Cfg) (wp : WritePointer) : Prop where
  inLine : c.geo.InLine wp.ch wp.lun wp.pg
  pl_eq : wp.pl = 0
  blk_eq : wp.blk = wp.curline
  lt : wp.curline < c.sp.blksPerPl

/-- The number of pages of its line a write pointer has handed out. -/
def WritePointer.ord (c : Cfg) (wp : WritePointer) : ℕ := c.geo.ord wp.ch wp.lun wp.pg

variable {c : Cfg} {wp : WritePointer} {s : ConvFtl} {io : IoType}

theorem WpOk.ord_lt (h : WpOk c wp) : wp.ord c < c.sp.pgsPerLine := Geometry.ord_lt h.inLine

theorem WpOk.page_eq (h : WpOk c wp) : wp.page = .store wp.ch wp.lun 0 wp.curline wp.pg := by
  rw [WritePointer.page, h.pl_eq, h.blk_eq]

theorem WpOk.isPage (h : WpOk c wp) :
    IsPage c wp.page ∧ wp.page.line = wp.curline ∧ wp.page.ord c = wp.ord c := by
  rw [h.page_eq]; exact isPage_store h.inLine h.lt

theorem checkAddr_ok {a max : ℕ} (h : a < max) : checkAddr a max = .ok () := nvmevAssert_pos h _

theorem getNewPage_ok (h : WpOk c (s.getWp io)) :
    getNewPage s io = .ok (s.getWp io).page := by
  rw [getNewPage, nvmevAssert_pos h.isPage.1.pl_eq]; rfl

/-- The first page of line `i`. -/
def WritePointer.fresh (i : ℕ) : WritePointer := ⟨i, 0, 0, 0, i, 0⟩

theorem wpOk_fresh {i : ℕ} (hi : i < c.sp.blksPerPl) :
    WpOk c (.fresh i) ∧ (WritePointer.fresh i).ord c = 0 :=
  ⟨⟨⟨c.geo.nchs_pos, c.geo.luns_pos, Geometry.pgsPerBlk_pos⟩, rfl, rfl, hi⟩,
    by simp [WritePointer.ord, WritePointer.fresh, Geometry.ord]⟩

@[simp] theorem ConvFtl.getWp_setWp (s : ConvFtl) (io : IoType) (wp : WritePointer) :
    (s.setWp io wp).getWp io = wp := by cases io <;> rfl

theorem ConvFtl.getWp_setWp_of_ne (s : ConvFtl) {io io' : IoType} (h : io' ≠ io)
    (wp : WritePointer) : (s.setWp io wp).getWp io' = s.getWp io' := by
  cases io <;> cases io' <;> first | rfl | exact absurd rfl h

theorem ConvFtl.getWp_congr {s s' : ConvFtl} (hwp : s'.wp = s.wp) (hgc : s'.gcWp = s.gcWp)
    (io : IoType) : s'.getWp io = s.getWp io := by cases io <;> assumption

@[simp] theorem ConvFtl.setWp_lm (s : ConvFtl) (io : IoType) (wp : WritePointer) :
    (s.setWp io wp).lm = s.lm := by cases io <;> rfl

@[simp] theorem ConvFtl.setWp_blk (s : ConvFtl) (io : IoType) (wp : WritePointer) :
    (s.setWp io wp).blk = s.blk := by cases io <;> rfl

/-! ## The moves of a pointer -/

/-- The counts that a walk through a line goes by. -/
structure SsdParams.LineGeometry (sp : SsdParams) : Prop where
  nchs_pos : 0 < sp.nchs
  luns_pos : 0 < sp.lunsPerCh
  blks_pos : 0 < sp.blksPerPl
  pgs_pos : 0 < sp.pgsPerBlk
  oneshotpg_pos : 0 < sp.pgsPerOneshotpg
  oneshotpg_dvd : sp.pgsPerOneshotpg ∣ sp.pgsPerBlk
  plsPerLun_eq : sp.plsPerLun = 1
  pgsPerLine_eq : sp.pgsPerLine = sp.lunsPerCh * sp.nchs * sp.pgsPerBlk

theorem Geometry.lineGeometry (g : Geometry) : g.LineGeometry where
  nchs_pos := g.nchs_pos
  luns_pos := g.luns_pos
  blks_pos := g.blks_pos
  pgs_pos := g.pgsPerBlk_pos
  oneshotpg_pos := g.oneshotpg_pos
  oneshotpg_dvd := by rw [g.pgsPerBlk_eq]; exact Nat.dvd_mul_left _ _
  plsPerLun_eq := g.plsPerLun_eq
  pgsPerLine_eq := by rw [g.pgsPerLine_eq, g.blksPerLine_eq]

/-- The place of a page in the order of its line. -/
def SsdParams.lineOrd (sp : SsdParams) (ch lun pg : ℕ) : ℕ :=
  ((pg / sp.pgsPerOneshotpg * sp.lunsPerCh + lun) * sp.nchs + ch) * sp.pgsPerOneshotpg +
    pg % sp.pgsPerOneshotpg

/-- The pointer is inside its line. -/
structure WritePointer.Inside (sp : SsdParams) (wp : WritePointer) : Prop where
  ch_lt : wp.ch < sp.nchs
  lun_lt : wp.lun < sp.lunsPerCh
  pg_lt : wp.pg < sp.pgsPerBlk

/-- `advance_write_pointer`, up to where the line is used up; and whether it is. -/
def WritePointer.advance (sp : SsdParams) (wpp : WritePointer) : Except Fault (WritePointer × Bool) := do
  checkAddr wpp.pg sp.pgsPerBlk
  let wpp := { wpp with pg := wpp.pg + 1 }
  if wpp.pg % sp.pgsPerOneshotpg ≠ 0 then pure (wpp, false)
  else
    let wpp := { wpp with pg := wpp.pg - sp.pgsPerOneshotpg }
    checkAddr wpp.ch sp.nchs
    let wpp := { wpp with ch := wpp.ch + 1 }
    if wpp.ch ≠ sp.nchs then pure (wpp, false)
    else
      let wpp := { wpp with ch := 0 }
      checkAddr wpp.lun sp.lunsPerCh
      let wpp := { wpp with lun := wpp.lun + 1 }
      if wpp.lun ≠ sp.lunsPerCh then pure (wpp, false)
      else
        let wpp := { wpp with lun := 0, pg := wpp.pg + sp.pgsPerOneshotpg }
        if wpp.pg ≠ sp.pgsPerBlk then pure (wpp, false)
        else pure ({ wpp with pg := 0 }, true)

/-- **`advance_write_pointer`** moves the pointer, and takes the next line when this one is
    used up. -/
theorem advanceWritePointer_eq (c : Cfg) (s : ConvFtl) (io : IoType) :
    advanceWritePointer c s io = (do
      let (wpp, usedUp) ← (s.getWp io).advance c.sp
      if usedUp then
        let lm ← closeLine c s.lm wpp.curline
        openLine c { s with lm := lm } io wpp
      else pure (s.setWp io wpp)) := by
  unfold advanceWritePointer WritePointer.advance
  generalize s.getWp io = wpp
  dsimp only
  cases checkAddr wpp.pg c.sp.pgsPerBlk with
  | error f => rfl
  | ok _ =>
    rw [ok_bind, ok_bind]
    by_cases h₁ : (wpp.pg + 1) % c.sp.pgsPerOneshotpg ≠ 0
    · rw [if_pos h₁, if_pos h₁]
      rfl
    rw [if_neg h₁, if_neg h₁]
    cases checkAddr wpp.ch c.sp.nchs with
    | error f => rfl
    | ok _ =>
      rw [ok_bind, ok_bind]
      by_cases h₂ : wpp.ch + 1 ≠ c.sp.nchs
      · rw [if_pos h₂, if_pos h₂]
        rfl
      rw [if_neg h₂, if_neg h₂]
      cases checkAddr wpp.lun c.sp.lunsPerCh with
      | error f => rfl
      | ok _ =>
        rw [ok_bind, ok_bind]
        by_cases h₃ : wpp.lun + 1 ≠ c.sp.lunsPerCh
        · rw [if_pos h₃, if_pos h₃]
          rfl
        rw [if_neg h₃, if_neg h₃]
        by_cases h₄ : wpp.pg + 1 - c.sp.pgsPerOneshotpg + c.sp.pgsPerOneshotpg ≠ c.sp.pgsPerBlk
        · rw [if_pos h₄, if_pos h₄]
          rfl
        · rw [if_neg h₄, if_neg h₄]
          rfl

namespace SsdParams.LineGeometry
variable {sp : SsdParams} {ch lun pg w : ℕ} (hg : sp.LineGeometry)
include hg

theorem ord_next_pg (h : (pg + 1) % sp.pgsPerOneshotpg ≠ 0) :
    sp.lineOrd ch lun (pg + 1) = sp.lineOrd ch lun pg + 1 := by
  have hlt := Nat.mod_lt pg hg.oneshotpg_pos
  have hdm := Nat.div_add_mod' pg sp.pgsPerOneshotpg
  have hmod : pg % sp.pgsPerOneshotpg + 1 < sp.pgsPerOneshotpg := by
    refine lt_of_le_of_ne hlt fun he => h ?_
    rw [← hdm, Nat.add_assoc, he, ← Nat.add_one_mul, Nat.mul_mod_left]
  have hpg : pg + 1 = pg / sp.pgsPerOneshotpg * sp.pgsPerOneshotpg +
      (pg % sp.pgsPerOneshotpg + 1) := by omega
  unfold SsdParams.lineOrd
  rw [hpg, pair_div hmod, pair_mod hmod, Nat.add_assoc]

theorem wordline_end (h : (pg + 1) % sp.pgsPerOneshotpg = 0) :
    pg + 1 = (pg / sp.pgsPerOneshotpg + 1) * sp.pgsPerOneshotpg ∧
      pg % sp.pgsPerOneshotpg + 1 = sp.pgsPerOneshotpg := by
  have hlt := Nat.mod_lt pg hg.oneshotpg_pos
  have hdm := Nat.div_add_mod' pg sp.pgsPerOneshotpg
  have hmod : pg % sp.pgsPerOneshotpg + 1 = sp.pgsPerOneshotpg := by
    by_contra hne
    rw [← hdm, Nat.add_assoc, pair_mod (by omega)] at h
    omega
  exact ⟨by rw [Nat.add_one_mul]; omega, hmod⟩

theorem ord_wordline : sp.lineOrd ch lun (w * sp.pgsPerOneshotpg) =
    ((w * sp.lunsPerCh + lun) * sp.nchs + ch) * sp.pgsPerOneshotpg := by
  rw [SsdParams.lineOrd, Nat.mul_div_cancel _ hg.oneshotpg_pos, Nat.mul_mod_left, Nat.add_zero]

theorem ord_wordline_end (h : (pg + 1) % sp.pgsPerOneshotpg = 0) :
    sp.lineOrd ch lun pg + 1 = ((pg / sp.pgsPerOneshotpg * sp.lunsPerCh + lun) * sp.nchs + ch + 1) *
      sp.pgsPerOneshotpg := by
  rw [SsdParams.lineOrd, Nat.add_assoc, (hg.wordline_end h).2, Nat.add_one_mul]

theorem ord_lt {wp : WritePointer} (h : wp.Inside sp) : sp.lineOrd wp.ch wp.lun wp.pg < sp.pgsPerLine := by
  obtain ⟨m, hm⟩ := hg.oneshotpg_dvd
  have hpg := h.pg_lt
  rw [hm] at hpg
  calc sp.lineOrd wp.ch wp.lun wp.pg < m * sp.lunsPerCh * sp.nchs * sp.pgsPerOneshotpg :=
        pair_lt (pair_lt (pair_lt (Nat.div_lt_of_lt_mul hpg) h.lun_lt) h.ch_lt) (Nat.mod_lt _ hg.oneshotpg_pos)
    _ = sp.pgsPerLine := by rw [hg.pgsPerLine_eq, hm]; ring

/-- **The moves of a pointer.** -/
theorem advance_cases {wp : WritePointer} (h : wp.Inside sp) :
    (∃ ch lun pg, WritePointer.Inside sp { wp with ch, lun, pg } ∧
      sp.lineOrd ch lun pg = sp.lineOrd wp.ch wp.lun wp.pg + 1 ∧
      wp.advance sp = .ok ({ wp with ch, lun, pg }, false)) ∨
    (sp.lineOrd wp.ch wp.lun wp.pg + 1 = sp.pgsPerLine ∧
      wp.advance sp = .ok ({ wp with ch := 0, lun := 0, pg := 0 }, true)) := by
  obtain ⟨i, ch, lun, pg, blk, pl⟩ := wp
  obtain ⟨hch, hlun, hpg⟩ := h
  obtain ⟨m, hm⟩ := hg.oneshotpg_dvd
  rw [Nat.mul_comm] at hm
  unfold WritePointer.advance
  dsimp only at hch hlun hpg ⊢
  rw [checkAddr_ok hpg, ok_bind]
  by_cases h₁ : (pg + 1) % sp.pgsPerOneshotpg ≠ 0
  · -- the next page of the wordline
    have hlt : pg + 1 < sp.pgsPerBlk := by
      refine lt_of_le_of_ne hpg fun he => h₁ ?_
      rw [he, hm, Nat.mul_mod_left]
    rw [if_pos h₁]
    exact .inl ⟨ch, lun, pg + 1, ⟨hch, hlun, hlt⟩, hg.ord_next_pg h₁, rfl⟩
  have hord : sp.lineOrd ch lun pg + 1 = _ := hg.ord_wordline_end (not_not.1 h₁)
  have hpg₁ := (hg.wordline_end (not_not.1 h₁)).1
  have hw : pg / sp.pgsPerOneshotpg < m := Nat.div_lt_of_lt_mul (by rw [Nat.mul_comm, ← hm]; exact hpg)
  generalize pg / sp.pgsPerOneshotpg = w at hord hpg₁ hw
  have hstart : pg + 1 - sp.pgsPerOneshotpg = w * sp.pgsPerOneshotpg := by
    rw [hpg₁, Nat.add_one_mul, Nat.add_sub_cancel]
  have hstart_lt : w * sp.pgsPerOneshotpg < sp.pgsPerBlk := by
    rw [hm]; exact Nat.mul_lt_mul_of_pos_right hw hg.oneshotpg_pos
  rw [if_neg h₁, checkAddr_ok hch, ok_bind, hstart]
  by_cases h₂ : ch + 1 ≠ sp.nchs
  · -- the same wordline of the next channel
    rw [if_pos h₂]
    exact .inl ⟨ch + 1, lun, w * sp.pgsPerOneshotpg, ⟨lt_of_le_of_ne hch h₂, hlun, hstart_lt⟩,
      hg.ord_wordline.trans (by rw [hord, Nat.add_assoc]), rfl⟩
  rw [Nat.add_assoc, not_not.1 h₂, ← Nat.add_one_mul, Nat.add_assoc] at hord
  rw [if_neg h₂, checkAddr_ok hlun, ok_bind]
  by_cases h₃ : lun + 1 ≠ sp.lunsPerCh
  · -- the same wordline of the next LUN
    rw [if_pos h₃]
    exact .inl ⟨0, lun + 1, w * sp.pgsPerOneshotpg, ⟨hg.nchs_pos, lt_of_le_of_ne hlun h₃, hstart_lt⟩,
      hg.ord_wordline.trans hord.symm, rfl⟩
  rw [not_not.1 h₃, ← Nat.add_one_mul] at hord
  have hnext : w * sp.pgsPerOneshotpg + sp.pgsPerOneshotpg = (w + 1) * sp.pgsPerOneshotpg :=
    (Nat.add_one_mul _ _).symm
  rw [if_neg h₃, hnext]
  by_cases h₄ : (w + 1) * sp.pgsPerOneshotpg ≠ sp.pgsPerBlk
  · -- the next wordline
    have hw₁ : w + 1 < m := lt_of_le_of_ne hw fun he => h₄ (by rw [hm, he])
    have hlt : (w + 1) * sp.pgsPerOneshotpg < sp.pgsPerBlk := by
      rw [hm]; exact Nat.mul_lt_mul_of_pos_right hw₁ hg.oneshotpg_pos
    rw [if_pos h₄]
    exact .inl ⟨0, 0, (w + 1) * sp.pgsPerOneshotpg, ⟨hg.nchs_pos, hg.luns_pos, hlt⟩,
      hg.ord_wordline.trans hord.symm, rfl⟩
  · -- the line is full
    have hw₁ : w + 1 = m := Nat.eq_of_mul_eq_mul_right hg.oneshotpg_pos ((not_not.1 h₄).trans hm)
    rw [if_neg h₄]
    refine .inr ⟨?_, rfl⟩
    rw [hord, hw₁, hg.pgsPerLine_eq, hm]
    ring

end SsdParams.LineGeometry

/-- **The moves of a write pointer.** -/
theorem advanceWritePointer_cases (h : WpOk c (s.getWp io)) :
    (∃ wp, WpOk c wp ∧ wp.curline = (s.getWp io).curline ∧
      wp.ord c = (s.getWp io).ord c + 1 ∧ advanceWritePointer c s io = .ok (s.setWp io wp)) ∨
    ((s.getWp io).ord c + 1 = c.sp.pgsPerLine ∧
      advanceWritePointer c s io = do
        let lm ← closeLine c s.lm (s.getWp io).curline
        openLine c { s with lm := lm } io (.fresh (s.getWp io).curline)) := by
  rw [advanceWritePointer_eq]
  have hin : (s.getWp io).Inside c.sp := ⟨h.inLine.ch_lt, h.inLine.lun_lt, h.inLine.pg_lt⟩
  rcases c.geo.lineGeometry.advance_cases hin with ⟨ch, lun, pg, hin', hord, hrun⟩ | ⟨hord, hrun⟩
  · rw [hrun]
    exact .inl ⟨_, ⟨⟨hin'.ch_lt, hin'.lun_lt, hin'.pg_lt⟩, h.pl_eq, h.blk_eq, h.lt⟩, rfl, hord, rfl⟩
  · rw [h.blk_eq, h.pl_eq] at hrun
    rw [hrun]
    exact .inr ⟨hord, rfl⟩

end WaitGc

/-
  WAITGC verification — the walk of a write pointer through a line.

  `line_walk_iff`: pairs of `get_new_page` and `advance_write_pointer` hand out
  every page of a line once, wordline by wordline, and the next free line follows
  the last page, exactly if the bit fields of `struct ppa` hold the counts of the
  geometry.
-/
import WaitGc.Proof.Devices
import WaitGc.Proof.Frame

namespace WaitGc

open Outcome Radix

/-- The address names this page. -/
structure Ppa.Names (p : Ppa) (ch lun blk pg : ℕ) : Prop where
  ch_eq : p.ch.toNat = ch
  lun_eq : p.lun.toNat = lun
  blk_eq : p.blk.toNat = blk
  pg_eq : p.pg.toNat = pg

/-- The addresses name pages of one wordline. -/
def Ppa.SameWordline (sp : SsdParams) (p q : Ppa) : Prop :=
  p.ch = q.ch ∧ p.lun = q.lun ∧ p.blk = q.blk ∧
    p.pg.toNat / sp.pgsPerOneshotpg = q.pg.toNat / sp.pgsPerOneshotpg

/-- The pointers `wps` walk through line `i`: the `k`-th page is that of `wps k`. -/
structure WalksOnce (sp : SsdParams) (i : ℕ) (wps : ℕ → WritePointer) : Prop where
  start : wps 0 = .fresh i
  moves : ∀ k, k + 1 < sp.pgsPerLine → (wps k).advance sp = .ok (wps (k + 1), false)
  used_up : ∀ k, k + 1 = sp.pgsPerLine → (wps k).advance sp = .ok (.fresh i, true)
  plane : ∀ k < sp.pgsPerLine, (wps k).page.pl = 0
  once : ∀ ch lun pg, ch < sp.nchs → lun < sp.lunsPerCh → pg < sp.pgsPerBlk →
    ∃! k, k < sp.pgsPerLine ∧ (wps k).page.Names ch lun i pg
  wordlines : ∀ k < sp.pgsPerLine, ∀ k' < sp.pgsPerLine,
    ((wps k).page.SameWordline sp (wps k').page ↔ k / sp.pgsPerOneshotpg = k' / sp.pgsPerOneshotpg)
  last : ∀ k < sp.pgsPerLine, lastPgInWordline sp (wps k).page = true ↔ sp.pgsPerOneshotpg ∣ k + 1

/-- The bit fields of `struct ppa` hold the coordinates of every page. -/
structure SsdParams.FitsFields (sp : SsdParams) : Prop where
  nchs_le : sp.nchs ≤ 2 ^ 8
  luns_le : sp.lunsPerCh ≤ 2 ^ 8
  blks_le : sp.blksPerPl ≤ 2 ^ 16
  pgs_le : sp.pgsPerBlk ≤ 2 ^ 16

variable {sp : SsdParams} {i k k' : ℕ} {wp wp' : WritePointer} {c : Cfg} {s s' : ConvFtl} {io : IoType}
  {wps : ℕ → WritePointer}

/-! ## The pointers -/

/-- The pointer after `k` moves. -/
def walk (sp : SsdParams) (i : ℕ) : ℕ → WritePointer
  | 0 => .fresh i
  | k + 1 =>
    match (walk sp i k).advance sp with
    | .ok (wp, _) => wp
    | .error _ => walk sp i k

/-- The pointer is at the `k`-th page of line `i`. -/
structure AtPage (sp : SsdParams) (i k : ℕ) (wp : WritePointer) : Prop where
  inside : wp.Inside sp
  ord_eq : sp.lineOrd wp.ch wp.lun wp.pg = k
  blk_eq : wp.blk = i
  pl_eq : wp.pl = 0
  curline_eq : wp.curline = i

section geometry
variable (hg : sp.LineGeometry)
include hg

theorem atPage_fresh (i : ℕ) : AtPage sp i 0 (.fresh i) where
  inside := ⟨hg.nchs_pos, hg.luns_pos, hg.pgs_pos⟩
  ord_eq := by simp [SsdParams.lineOrd, WritePointer.fresh]
  blk_eq := rfl
  pl_eq := rfl
  curline_eq := rfl

/-- **A move** goes to the next page of the line. -/
theorem walk_atPage (hk : k < sp.pgsPerLine) : AtPage sp i k (walk sp i k) := by
  induction k with
  | zero => exact atPage_fresh hg i
  | succ k ih =>
    have hat := ih (by omega)
    rcases hg.advance_cases hat.inside with ⟨ch, lun, pg, hin, hord, hrun⟩ | ⟨hord, -⟩
    · rw [walk, hrun]
      exact ⟨hin, hord.trans (congrArg (· + 1) hat.ord_eq), hat.blk_eq, hat.pl_eq, hat.curline_eq⟩
    · rw [hat.ord_eq] at hord
      exact absurd hord hk.ne

theorem walk_moves (hk : k + 1 < sp.pgsPerLine) :
    (walk sp i k).advance sp = .ok (walk sp i (k + 1), false) := by
  have hat := walk_atPage hg (i := i) (Nat.lt_of_succ_lt hk)
  rcases hg.advance_cases hat.inside with ⟨ch, lun, pg, -, -, hrun⟩ | ⟨hord, -⟩
  · rw [walk, hrun]
  · rw [hat.ord_eq] at hord
    exact absurd hord hk.ne

theorem walk_used_up (hk : k + 1 = sp.pgsPerLine) :
    (walk sp i k).advance sp = .ok (.fresh i, true) := by
  have hat := walk_atPage hg (i := i) (k := k) (by omega)
  rcases hg.advance_cases hat.inside with ⟨ch, lun, pg, hin, hord, -⟩ | ⟨-, hrun⟩
  · have hlt := hg.ord_lt hin
    rw [hord, hat.ord_eq] at hlt
    exact absurd hk hlt.ne
  · rw [hat.blk_eq, hat.pl_eq, hat.curline_eq] at hrun
    exact hrun

/-! ## The pages they name -/

theorem ord_div (ch lun pg : ℕ) : sp.lineOrd ch lun pg / sp.pgsPerOneshotpg =
    (pg / sp.pgsPerOneshotpg * sp.lunsPerCh + lun) * sp.nchs + ch :=
  pair_div (Nat.mod_lt _ hg.oneshotpg_pos)

theorem ord_mod (ch lun pg : ℕ) :
    sp.lineOrd ch lun pg % sp.pgsPerOneshotpg = pg % sp.pgsPerOneshotpg :=
  pair_mod (Nat.mod_lt _ hg.oneshotpg_pos)

theorem dvd_succ_iff (k : ℕ) :
    sp.pgsPerOneshotpg ∣ k + 1 ↔ k % sp.pgsPerOneshotpg = sp.pgsPerOneshotpg - 1 := by
  have hpos := hg.oneshotpg_pos
  constructor
  · intro hdvd
    have hmod := (hg.wordline_end (Nat.mod_eq_zero_of_dvd hdvd)).2
    omega
  · intro hmod
    refine ⟨k / sp.pgsPerOneshotpg + 1, ?_⟩
    have hdm := Nat.div_add_mod k sp.pgsPerOneshotpg
    rw [Nat.mul_add_one]
    omega

end geometry

theorem AtPage.names (h : AtPage sp i k wp) (hf : sp.FitsFields) (hi : i < sp.blksPerPl) :
    wp.page.Names wp.ch wp.lun i wp.pg where
  ch_eq := Nat.mod_eq_of_lt (h.inside.ch_lt.trans_le hf.nchs_le)
  lun_eq := Nat.mod_eq_of_lt (h.inside.lun_lt.trans_le hf.luns_le)
  blk_eq := by
    show wp.blk % 2 ^ 16 = i
    rw [h.blk_eq]
    exact Nat.mod_eq_of_lt (hi.trans_le hf.blks_le)
  pg_eq := Nat.mod_eq_of_lt (h.inside.pg_lt.trans_le hf.pgs_le)

theorem AtPage.sameWordline_iff (h : AtPage sp i k wp) (h' : AtPage sp i k' wp') (hg : sp.LineGeometry)
    (hf : sp.FitsFields) (hi : i < sp.blksPerPl) :
    wp.page.SameWordline sp wp'.page ↔ k / sp.pgsPerOneshotpg = k' / sp.pgsPerOneshotpg := by
  have hn := h.names hf hi
  have hn' := h'.names hf hi
  rw [← h.ord_eq, ← h'.ord_eq, ord_div hg, ord_div hg, Ppa.SameWordline, ← BitVec.toNat_inj,
    ← BitVec.toNat_inj, ← BitVec.toNat_inj, hn.ch_eq, hn'.ch_eq, hn.lun_eq, hn'.lun_eq, hn.blk_eq,
    hn'.blk_eq, hn.pg_eq, hn'.pg_eq]
  constructor
  · rintro ⟨hch, hlun, -, hw⟩
    rw [hch, hlun, hw]
  · intro he
    obtain ⟨he, hch⟩ := pair_inj h.inside.ch_lt h'.inside.ch_lt he
    obtain ⟨hw, hlun⟩ := pair_inj h.inside.lun_lt h'.inside.lun_lt he
    exact ⟨hch, hlun, rfl, hw⟩

theorem AtPage.eq (h : AtPage sp i k wp) (h' : AtPage sp i k wp') (hg : sp.LineGeometry) :
    wp.ch = wp'.ch ∧ wp.lun = wp'.lun ∧ wp.pg = wp'.pg := by
  obtain ⟨he, hoff⟩ := pair_inj (Nat.mod_lt _ hg.oneshotpg_pos) (Nat.mod_lt _ hg.oneshotpg_pos)
    (h.ord_eq.trans h'.ord_eq.symm)
  obtain ⟨he, hch⟩ := pair_inj h.inside.ch_lt h'.inside.ch_lt he
  obtain ⟨hw, hlun⟩ := pair_inj h.inside.lun_lt h'.inside.lun_lt he
  refine ⟨hch, hlun, ?_⟩
  rw [← Nat.div_add_mod wp.pg sp.pgsPerOneshotpg, hw, hoff, Nat.div_add_mod]

/-- **The walk through a line**, where the fields hold the counts. -/
theorem walksOnce_walk (hg : sp.LineGeometry) (hf : sp.FitsFields) (hi : i < sp.blksPerPl) :
    WalksOnce sp i (walk sp i) where
  start := rfl
  moves _ hk := walk_moves hg hk
  used_up _ hk := walk_used_up hg hk
  plane k hk := by
    show BitVec.ofNat 8 (walk sp i k).pl = 0
    rw [(walk_atPage hg hk).pl_eq]
    rfl
  once ch lun pg hch hlun hpg := by
    have hto : AtPage sp i (sp.lineOrd ch lun pg) ⟨i, ch, lun, pg, i, 0⟩ :=
      ⟨⟨hch, hlun, hpg⟩, rfl, rfl, rfl, rfl⟩
    have hk := hg.ord_lt hto.inside
    have hat := walk_atPage hg (i := i) hk
    have hn := hat.names hf hi
    obtain ⟨he, he', he''⟩ := hat.eq hto hg
    rw [he, he', he''] at hn
    refine ⟨_, ⟨hk, hn⟩, ?_⟩
    rintro k' ⟨hk', hn⟩
    have hat' := walk_atPage hg (i := i) hk'
    have hn' := hat'.names hf hi
    rw [← hat'.ord_eq, ← hn'.ch_eq.symm.trans hn.ch_eq, ← hn'.lun_eq.symm.trans hn.lun_eq,
      ← hn'.pg_eq.symm.trans hn.pg_eq]
  wordlines _ hk _ hk' := (walk_atPage hg hk).sameWordline_iff (walk_atPage hg hk') hg hf hi
  last k hk := by
    have hat := walk_atPage hg (i := i) hk
    have hmod := ord_mod hg (walk sp i k).ch (walk sp i k).lun (walk sp i k).pg
    rw [hat.ord_eq] at hmod
    rw [lastPgInWordline, beq_iff_eq, (hat.names hf hi).pg_eq, dvd_succ_iff hg, hmod]

theorem fitsFields_of_once (hg : sp.LineGeometry) (h : WalksOnce sp (sp.blksPerPl - 1) wps) :
    sp.FitsFields := by
  obtain ⟨k, ⟨-, hn⟩, -⟩ := h.once (sp.nchs - 1) (sp.lunsPerCh - 1) (sp.pgsPerBlk - 1)
    (Nat.sub_one_lt_of_lt hg.nchs_pos) (Nat.sub_one_lt_of_lt hg.luns_pos) (Nat.sub_one_lt_of_lt hg.pgs_pos)
  have hch := hn.ch_eq ▸ (wps k).page.ch.isLt
  have hlun := hn.lun_eq ▸ (wps k).page.lun.isLt
  have hblk := hn.blk_eq ▸ (wps k).page.blk.isLt
  have hpg := hn.pg_eq ▸ (wps k).page.pg.isLt
  exact ⟨by omega, by omega, by omega, by omega⟩

/-! ## The next line -/

/-- `get_new_page`, then `advance_write_pointer`. -/
def takePage (c : Cfg) (s : ConvFtl) (io : IoType) : Except Fault (Ppa × ConvFtl) := do
  let p ← getNewPage s io
  let s ← advanceWritePointer c s io
  pure (p, s)

/-- The free lines are lines of the device, with the ids `init_lines` gives. -/
def FreeLineIds (c : Cfg) (s : ConvFtl) : Prop :=
  ∀ j ∈ s.lm.freeLineList, j < c.sp.blksPerPl ∧ (s.lm.lines j).id = j

/-- Line `i` was closed, and the pointer is at the first page of the next free line. -/
def NextLine (c : Cfg) (s : ConvFtl) (io : IoType) (i : ℕ) (s' : ConvFtl) : Prop :=
  ∃ lm j rest, closeLine c s.lm i = .ok lm ∧ s.lm.freeLineList = j :: rest ∧
    s' = ({ s with lm := { lm with
      freeLineList := rest, freeLineCnt := lm.freeLineCnt - 1 } } : ConvFtl).setWp io (.fresh j)

/-- No `check_addr` fails; only a device without free lines stops for want of one. -/
def NoAddrFault (s : ConvFtl) (e : Fault) : Prop :=
  e ≠ .assert .checkAddr ∧ (e = .noFreeLine → s.lm.freeLineList = [])

theorem withPq_error {lm : LineMgmt} {r : Option (Pqueue × (ℕ → Line))} {e : Fault}
    (h : lm.withPq r = .error e) : e = .wildPointer := by
  cases r with
  | none => exact (Except.error.inj h).symm
  | some r => cases h

theorem noAddrFault_assert {site : Site} (h : site ≠ .checkAddr) : NoAddrFault s (.assert site) :=
  ⟨fun he => h (Fault.assert.inj he), Fault.noConfusion⟩

theorem closeLine_sat (c : Cfg) (s : ConvFtl) (i : ℕ) :
    Sat (NoAddrFault s) (fun lm => lm.freeLineList = s.lm.freeLineList ∧
      ∀ j, (lm.lines j).id = (s.lm.lines j).id) (closeLine c s.lm i) := by
  unfold closeLine
  dsimp only
  split_ifs
  · exact sat_require (noAddrFault_assert (by decide)) fun _ => ⟨rfl, fun _ => rfl⟩
  · refine sat_require (noAddrFault_assert (by decide)) fun _ => ?_
    refine sat_require (noAddrFault_assert (by decide)) fun _ => ?_
    have hins := pqueueInsert_yields s.lm i
    cases hq : s.lm.withPq (s.lm.victimLinePq.pqueueInsert victimLine s.lm.lines i) with
    | ok lm =>
      obtain ⟨hst, -, hlm⟩ := hins.of_ok hq
      have hfree : lm.freeLineList = s.lm.freeLineList := by rw [hlm]
      exact ⟨hfree, fun j => (hst j).1⟩
    | error e =>
      obtain rfl := withPq_error hq
      exact ⟨Fault.noConfusion, Fault.noConfusion⟩

/-- **After the last page** the line is closed and the next free one opened. -/
theorem nextLine_sat (h : (s.getWp io).advance c.sp = .ok (.fresh i, true)) (hi : i < c.sp.blksPerPl)
    (hids : FreeLineIds c s) :
    Sat (NoAddrFault s) (NextLine c s io i) (advanceWritePointer c s io) := by
  rw [advanceWritePointer_eq, h, ok_bind]
  show Sat _ _ (closeLine c s.lm i >>= fun lm => openLine c { s with lm := lm } io (.fresh i))
  cases hclose : closeLine c s.lm i with
  | error e => exact (closeLine_sat c s i).of_error hclose
  | ok lm =>
    obtain ⟨hfree, hid⟩ := (closeLine_sat c s i).of_ok hclose
    rw [ok_bind]
    unfold openLine getNextFreeLine
    rw [checkAddr_ok (show (WritePointer.fresh i).blk < _ from hi), ok_bind]
    dsimp only
    rw [hfree]
    cases hl : s.lm.freeLineList with
    | nil => exact ⟨by decide, fun _ => hl⟩
    | cons j rest =>
      obtain ⟨hj, hjid⟩ := hids j (hl ▸ List.mem_cons_self)
      have hjid' : (lm.lines j).id = j := (hid j).trans hjid
      dsimp only
      rw [hjid', checkAddr_ok hj, ok_bind, nvmevAssert_pos ⟨rfl, rfl, rfl, rfl⟩, ok_bind]
      exact ⟨lm, j, rest, hclose, hl, rfl⟩

/-- **The pairs** of `get_new_page` and `advance_write_pointer` hand out the pages of the walk. -/
theorem takePage_walk (h : WalksOnce c.sp i wps) (hi : i < c.sp.blksPerPl) (hwp : s.getWp io = wps k) :
    (k + 1 < c.sp.pgsPerLine → takePage c s io = .ok ((wps k).page, s.setWp io (wps (k + 1)))) ∧
    (k + 1 = c.sp.pgsPerLine → FreeLineIds c s →
      Sat (NoAddrFault s) (fun r => r.1 = (wps k).page ∧ NextLine c s io i r.2) (takePage c s io)) := by
  have hpage (hk : k < c.sp.pgsPerLine) : getNewPage s io = .ok (wps k).page := by
    rw [getNewPage, hwp, nvmevAssert_pos (h.plane k hk)]
    rfl
  unfold takePage
  constructor
  · intro hk
    rw [hpage (Nat.lt_of_succ_lt hk), ok_bind, advanceWritePointer_eq, hwp, h.moves k hk]
    rfl
  · intro hk hids
    rw [hpage (hk ▸ Nat.lt_succ_self k), ok_bind]
    have hnext := nextLine_sat (hwp ▸ h.used_up k hk) hi hids
    exact hnext.bind fun s' hs' => ⟨rfl, hs'⟩

/-! ## The line is walked once -/

/-- **A line is walked once** exactly if the fields hold the counts. -/
theorem line_walk_iff (hg : sp.LineGeometry) :
    ((∀ i < sp.blksPerPl, ∃ wps, WalksOnce sp i wps) ↔ sp.FitsFields) ∧
    ∀ (c : Cfg) (s : ConvFtl) (io : IoType) (i k : ℕ) (wps : ℕ → WritePointer), c.sp = sp →
      i < sp.blksPerPl → WalksOnce sp i wps → s.getWp io = wps k →
      (k + 1 < sp.pgsPerLine → takePage c s io = .ok ((wps k).page, s.setWp io (wps (k + 1)))) ∧
      (k + 1 = sp.pgsPerLine → FreeLineIds c s →
        Sat (NoAddrFault s) (fun r => r.1 = (wps k).page ∧ NextLine c s io i r.2)
          (takePage c s io)) := by
  refine ⟨⟨?_, ?_⟩, ?_⟩
  · intro h
    obtain ⟨wps, hwps⟩ := h _ (Nat.sub_one_lt_of_lt hg.blks_pos)
    exact fitsFields_of_once hg hwps
  · intro hf i hi
    exact ⟨_, walksOnce_walk hg hf hi⟩
  · rintro c s io i k wps rfl hi hw hwp
    exact takePage_walk hw hi hwp

theorem line_walk_oneWordline :
    (pro970Params 1).LineGeometry ∧ ∀ i < 32, ∃ wps, WalksOnce (pro970Params 1) i wps :=
  have hg : (pro970Params 1).LineGeometry := (pro970 1 Nat.one_pos (by decide)).lineGeometry
  ⟨hg, (line_walk_iff hg).1.2 ⟨by decide, by decide, by decide, by decide⟩⟩

/-- A block of 65544 pages: the page number does not fit 16 bits. -/
theorem line_walk_fails : ∃ sp, ssdInitParams samsung970Pro 137430564865 1 = .ok sp ∧
    sp.LineGeometry ∧ ¬ ∀ i < sp.blksPerPl, ∃ wps, WalksOnce sp i wps := by
  have hg : (wrappedParams (int32 (wordlines 137430564865))).LineGeometry :=
    ⟨by decide, by decide, by decide, by decide, by decide, by decide, by decide, by decide⟩
  refine ⟨_, ssdInitParams_wrapped _, hg, fun h => ?_⟩
  obtain ⟨wps, hwps⟩ := h _ (Nat.sub_one_lt_of_lt hg.blks_pos)
  exact absurd (fitsFields_of_once hg hwps).pgs_le (by decide)

end WaitGc

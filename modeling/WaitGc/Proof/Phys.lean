/-
  WAITGC verification — the flash array and its counters.

  `Phys c s pl pos` is the invariant of the physical side of an FTL: the lines
  are where `pl` says, the counters of blocks and lines count their pages, and
  the pages of a line are in the states its place admits.  `pos io` is the
  number of pages of the open line of `io` that are not free any more; between
  two writes it is the position of the write pointer (`posOf`).

  A page changes its state in three ways: it is programmed
  (`markPageValid_phys`), invalidated (`markPageInvalid_phys`) or erased with
  its block (`markBlockFree_phys`).
-/
import WaitGc.Lib.Tally
import WaitGc.Proof.Shelves
import WaitGc.Proof.WritePointer

namespace WaitGc

open Outcome Function Tally

/-! ## Counted page states -/

/-- `vpc` and `ipc` count the valid and the invalid ones of `n` pages. -/
def Counted (n : ℕ) (st : ℕ → PgStatus) (vpc ipc : ℕ) : Prop :=
  vpc = tally (Finset.range n) st .valid ∧ ipc = tally (Finset.range n) st .invalid

section
variable {n k m vpc ipc : ℕ} {st st' : ℕ → PgStatus}

theorem Counted.congr (h : Counted n st vpc ipc) (he : ∀ k < n, st' k = st k) :
    Counted n st' vpc ipc := by
  have he' : ∀ k ∈ Finset.range n, st' k = st k := fun k hk => he k (Finset.mem_range.1 hk)
  exact ⟨h.1.trans (tally_congr he' _).symm, h.2.trans (tally_congr he' _).symm⟩

theorem Counted.program (h : Counted n st vpc ipc) (hk : k < n) (hs : st k = .free) :
    Counted n (update st k .valid) (vpc + 1) ipc := by
  refine ⟨?_, ?_⟩
  · rw [h.1, tally_update_new (Finset.mem_range.2 hk) (by simp [hs])]
  · rw [h.2, tally_update_other (by simp [hs]) (by simp)]

theorem Counted.invalidate (h : Counted n st vpc ipc) (hk : k < n) (hs : st k = .valid) :
    Counted n (update st k .invalid) (vpc - 1) (ipc + 1) := by
  have hm := Finset.mem_range.2 hk
  refine ⟨?_, ?_⟩
  · rw [h.1, ← tally_update_old hm hs (b := .invalid) (by simp), Nat.add_sub_cancel]
  · rw [h.2, tally_update_new hm (by simp [hs])]

theorem Counted.vpc_pos (h : Counted n st vpc ipc) (hk : k < n) (hs : st k = .valid) : 0 < vpc := by
  rw [h.1]; exact tally_pos (Finset.mem_range.2 hk) hs

theorem Counted.ipc_pos_iff (h : Counted n st vpc ipc) : 0 < ipc ↔ ∃ k < n, st k = .invalid := by
  rw [h.2]
  constructor
  · intro hp
    obtain ⟨k, hk, hs⟩ := exists_of_tally_pos hp
    exact ⟨k, Finset.mem_range.1 hk, hs⟩
  · rintro ⟨k, hk, hs⟩
    exact tally_pos (Finset.mem_range.2 hk) hs

private theorem tally_range_lt {v : PgStatus} (hk : k < n) (hs : st k ≠ v) :
    tally (Finset.range n) st v < n := by
  have hle := tally_le_card (Finset.range n) st v
  rw [Finset.card_range] at hle
  refine lt_of_le_of_ne hle fun he => hs ?_
  exact (tally_eq_card.1 (he.trans (Finset.card_range n).symm)) k (Finset.mem_range.2 hk)

theorem Counted.vpc_lt (h : Counted n st vpc ipc) (hk : k < n) (hs : st k ≠ .valid) : vpc < n := by
  rw [h.1]; exact tally_range_lt hk hs

theorem Counted.ipc_lt (h : Counted n st vpc ipc) (hk : k < n) (hs : st k ≠ .invalid) : ipc < n := by
  rw [h.2]; exact tally_range_lt hk hs

theorem Counted.vpc_le (h : Counted n st vpc ipc) : vpc ≤ n := by
  have hle := tally_le_card (Finset.range n) st .valid
  rwa [Finset.card_range, ← h.1] at hle

theorem Counted.vpc_eq_iff (h : Counted n st vpc ipc) : vpc = n ↔ ∀ k < n, st k = .valid := by
  have he := tally_eq_card (S := Finset.range n) (f := st) (b := .valid)
  rw [Finset.card_range, ← h.1] at he
  rw [he]
  exact ⟨fun h k hk => h k (Finset.mem_range.2 hk), fun h k hk => h k (Finset.mem_range.1 hk)⟩

theorem Counted.add_free (h : Counted n st vpc ipc) :
    vpc + ipc + tally (Finset.range n) st .free = n := by
  have hd : (Finset.range n).filter (fun k => st k ≠ .free) =
      (Finset.range n).filter (fun k => st k = .valid) ∪
        (Finset.range n).filter (fun k => st k = .invalid) := by
    ext k
    simp only [Finset.mem_filter, Finset.mem_union]
    cases st k <;> simp
  have hdisj : Disjoint ((Finset.range n).filter (fun k => st k = .valid))
      ((Finset.range n).filter (fun k => st k = .invalid)) := by
    rw [Finset.disjoint_filter]
    intro k _ hv hi
    rw [hv] at hi
    exact absurd hi (by simp)
  have hn := card_filter_ne (Finset.range n) st .free
  rw [Finset.card_range, hd, Finset.card_union_of_disjoint hdisj] at hn
  rw [h.1, h.2]
  exact hn

theorem Counted.add_eq (h : Counted n st vpc ipc) (hm : m ≤ n)
    (hs : ∀ k < n, st k ≠ .free ↔ k < m) : vpc + ipc = m := by
  have hf := h.add_free
  have hcard : ((Finset.range n).filter fun k => st k ≠ .free).card = m := by
    have he : (Finset.range n).filter (fun k => st k ≠ .free) = Finset.range m := by
      ext k
      simp only [Finset.mem_filter, Finset.mem_range]
      exact ⟨fun ⟨hk, hne⟩ => (hs k hk).1 hne, fun hk =>
        ⟨hk.trans_le hm, (hs k (hk.trans_le hm)).2 hk⟩⟩
    rw [he, Finset.card_range]
  have hn := card_filter_ne (Finset.range n) st .free
  rw [hcard, Finset.card_range] at hn
  omega

theorem counted_free (hs : ∀ k < n, st k = .free) : Counted n st 0 0 := by
  refine ⟨(tally_eq_zero fun k hk => ?_).symm, (tally_eq_zero fun k hk => ?_).symm⟩ <;>
    simp [hs k (Finset.mem_range.1 hk)]

end

/-! ## Pages of the flash array -/

/-- The state of a page. -/
def pageSt (blk : BlkAddr → NandBlock) (p : Ppa) : PgStatus := (blk p.blkAddr).pg p.pg.toNat

/-- The states of the pages of line `i`, in the order of the line. -/
def lineSt (c : Cfg) (blk : BlkAddr → NandBlock) (i k : ℕ) : PgStatus := pageSt blk (pageAt c i k)

variable {c : Cfg} {s : ConvFtl} {blk : BlkAddr → NandBlock} {p q : Ppa} {i k : ℕ}

theorem IsPage.lineSt_eq (h : IsPage c p) (blk : BlkAddr → NandBlock) :
    lineSt c blk p.line (p.ord c) = pageSt blk p := by rw [lineSt, h.pageAt_eq]

theorem pageSt_set (hp : IsPage c p) (hq : IsPage c q) {b : NandBlock} {st : PgStatus}
    (hb : b.pg = update (blk p.blkAddr).pg p.pg.toNat st) :
    pageSt (update blk p.blkAddr b) q = if q = p then st else pageSt blk q := by
  unfold pageSt
  by_cases hqp : q.blkAddr = p.blkAddr
  · rw [hqp, update_self, hb]
    by_cases hpg : q.pg.toNat = p.pg.toNat
    · have he : q = p := by
        simp only [Ppa.blkAddr, BlkAddr.mk.injEq] at hqp
        exact Ppa.ext' hpg hqp.2.2.2 hqp.2.2.1 hqp.2.1 hqp.1 (by rw [hp.2, hq.2])
      rw [if_pos he, hpg, update_self]
    · rw [if_neg (fun he => hpg (by rw [he])), update_of_ne hpg]
  · rw [update_of_ne hqp, if_neg (fun he => hqp (by rw [he]))]

theorem lineSt_set (hp : IsPage c p) (hi : i < c.sp.blksPerPl) (hk : k < c.sp.pgsPerLine)
    {b : NandBlock} {st : PgStatus} (hb : b.pg = update (blk p.blkAddr).pg p.pg.toNat st) :
    lineSt c (update blk p.blkAddr b) i k =
      (if i = p.line then update (lineSt c blk i) (p.ord c) st else lineSt c blk i) k := by
  obtain ⟨hq, hl, ho⟩ := isPage_pageAt hi hk
  rw [lineSt, pageSt_set hp hq hb]
  by_cases hip : i = p.line
  · rw [if_pos hip]
    by_cases hkp : k = p.ord c
    · rw [if_pos (hq.eq hp (hl.trans hip) (ho.trans hkp)), hkp, update_self]
    · rw [if_neg (fun he => hkp (by rw [← ho, he])), update_of_ne hkp]; rfl
  · rw [if_neg (fun he => hip (by rw [← hl, he])), if_neg hip]; rfl

/-! ## The invariant -/

/-- The states of the pages of a line, by its place. -/
def PagesOk (c : Cfg) (st : ℕ → PgStatus) (pos : IoType → ℕ) : Place → Prop
  | .free => ∀ k < c.sp.pgsPerLine, st k = .free
  | .full => ∀ k < c.sp.pgsPerLine, st k = .valid
  | .victim => (∀ k < c.sp.pgsPerLine, st k ≠ .free) ∧ ∃ k < c.sp.pgsPerLine, st k = .invalid
  | .opened io => ∀ k < c.sp.pgsPerLine, st k ≠ .free ↔ k < pos io
  | .gone => True

/-- The physical side of an FTL. -/
structure Phys (c : Cfg) (s : ConvFtl) (pl : ℕ → Place) (pos : IoType → ℕ) : Prop where
  shelved : Shelved c s.lm pl
  wp_ok : ∀ io, WpOk c (s.getWp io)
  opened : ∀ io, ∀ i < c.sp.blksPerPl, pl i = .opened io ↔ i = (s.getWp io).curline
  pos_le : ∀ io, pos io ≤ c.sp.pgsPerLine
  blk_counted : ∀ p, IsPage c p →
    Counted c.sp.pgsPerBlk (s.blk p.blkAddr).pg (s.blk p.blkAddr).vpc (s.blk p.blkAddr).ipc
  line_counted : ∀ i < c.sp.blksPerPl, pl i ≠ .gone →
    Counted c.sp.pgsPerLine (lineSt c s.blk i) (s.lm.lines i).vpc (s.lm.lines i).ipc
  pages : ∀ i < c.sp.blksPerPl, PagesOk c (lineSt c s.blk i) pos (pl i)

/-- The positions of the write pointers. -/
def posOf (c : Cfg) (s : ConvFtl) (io : IoType) : ℕ := (s.getWp io).ord c

variable {pl : ℕ → Place} {pos : IoType → ℕ} {io : IoType}

theorem PagesOk.congr {st st' : ℕ → PgStatus} {x : Place} (h : PagesOk c st pos x)
    (he : ∀ k < c.sp.pgsPerLine, st' k = st k) : PagesOk c st' pos x := by
  cases x with
  | free => exact fun k hk => (he k hk).trans (h k hk)
  | full => exact fun k hk => (he k hk).trans (h k hk)
  | victim =>
    obtain ⟨h₁, k, hk, h₂⟩ := h
    exact ⟨fun k hk => by rw [he k hk]; exact h₁ k hk, k, hk, (he k hk).trans h₂⟩
  | opened io => exact fun k hk => by rw [he k hk]; exact h k hk
  | gone => trivial

/-- The invariant does not see the mapping tables, the clocks and the
    statistics. -/
theorem Phys.congr {s' : ConvFtl} (h : Phys c s pl pos) (hblk : s'.blk = s.blk)
    (hlm : s'.lm = s.lm) (hwp : ∀ io, s'.getWp io = s.getWp io) : Phys c s' pl pos where
  shelved := by rw [hlm]; exact h.shelved
  wp_ok io := by rw [hwp]; exact h.wp_ok io
  opened io := by rw [hwp]; exact h.opened io
  pos_le := h.pos_le
  blk_counted := by rw [hblk]; exact h.blk_counted
  line_counted := by rw [hblk, hlm]; exact h.line_counted
  pages := by rw [hblk]; exact h.pages

/-- Another flash array and other counters, with the page `p` changed. -/
private theorem Phys.setPage (h : Phys c s pl pos) (hp : IsPage c p) {b : NandBlock}
    {st : PgStatus} (hb : b.pg = update (s.blk p.blkAddr).pg p.pg.toNat st)
    (hbc : Counted c.sp.pgsPerBlk b.pg b.vpc b.ipc) {lm : LineMgmt} {pl' : ℕ → Place}
    {pos' : IoType → ℕ} (hlm : Shelved c lm pl') (hpos : ∀ io, pos' io ≤ c.sp.pgsPerLine)
    (hopen : ∀ io, ∀ i < c.sp.blksPerPl, pl' i = .opened io ↔ pl i = .opened io)
    (hgone : ∀ i, pl' i = .gone ↔ pl i = .gone)
    (hother : ∀ i, i ≠ p.line → pl' i = pl i ∧ (lm.lines i).vpc = (s.lm.lines i).vpc ∧
      (lm.lines i).ipc = (s.lm.lines i).ipc)
    (hopenpos : ∀ i < c.sp.blksPerPl, i ≠ p.line → ∀ io, pl i = .opened io → pos' io = pos io)
    (hline : pl p.line ≠ .gone → Counted c.sp.pgsPerLine
      (update (lineSt c s.blk p.line) (p.ord c) st) (lm.lines p.line).vpc (lm.lines p.line).ipc)
    (hpages : PagesOk c (update (lineSt c s.blk p.line) (p.ord c) st) pos' (pl' p.line)) :
    Phys c { s with blk := update s.blk p.blkAddr b, lm := lm } pl' pos' where
  shelved := hlm
  wp_ok io := by cases io <;> [exact h.wp_ok .userIo; exact h.wp_ok .gcIo]
  opened io i hi := by
    rw [hopen io i hi]
    cases io <;> [exact h.opened .userIo i hi; exact h.opened .gcIo i hi]
  pos_le := hpos
  blk_counted q hq := by
    by_cases hqp : q.blkAddr = p.blkAddr
    · simp only [hqp, update_self]; exact hbc
    · simp only [update_of_ne hqp]; exact h.blk_counted q hq
  line_counted i hi hne := by
    have hst : ∀ k < c.sp.pgsPerLine, _ = _ := fun k hk => lineSt_set hp hi hk hb
    by_cases hip : i = p.line
    · simp only [if_pos hip] at hst
      subst hip
      exact (hline (by rwa [Ne, ← hgone])).congr hst
    · simp only [if_neg hip] at hst
      obtain ⟨h₁, h₂, h₃⟩ := hother i hip
      simp only [h₂, h₃]
      exact (h.line_counted i hi (by rwa [← h₁])).congr hst
  pages i hi := by
    have hst : ∀ k < c.sp.pgsPerLine, _ = _ := fun k hk => lineSt_set hp hi hk hb
    by_cases hip : i = p.line
    · simp only [if_pos hip] at hst
      subst hip
      exact hpages.congr hst
    · simp only [if_neg hip] at hst
      obtain ⟨h₁, -, -⟩ := hother i hip
      rw [h₁]
      have hpg := (h.pages i hi).congr hst
      cases hx : pl i with
      | opened io =>
        rw [hx] at hpg
        simp only [PagesOk, hopenpos i hi hip io hx]
        exact hpg
      | _ => rw [hx] at hpg; exact hpg

/-! ## Programming a page -/

/-- From `s` to `s'` the page `p` changes its state to `st`, and its block and
    its line are updated with it. -/
structure PageSet (c : Cfg) (p : Ppa) (st : PgStatus) (s s' : ConvFtl) : Prop where
  frame : s' = { s with blk := s'.blk, lm := s'.lm }
  status : ∀ q, IsPage c q → pageSt s'.blk q = if q = p then st else pageSt s.blk q
  erase : ∀ b, (s'.blk b).eraseCnt = (s.blk b).eraseCnt
  free : s'.lm.freeLineList = s.lm.freeLineList

theorem PageSet.mk' (hp : IsPage c p) {st : PgStatus} {b : NandBlock} {lm : LineMgmt}
    (hb : b.pg = update (s.blk p.blkAddr).pg p.pg.toNat st)
    (he : b.eraseCnt = (s.blk p.blkAddr).eraseCnt) (hf : lm.freeLineList = s.lm.freeLineList) :
    PageSet c p st s { s with blk := update s.blk p.blkAddr b, lm := lm } where
  frame := rfl
  status q hq := pageSt_set hp hq hb
  erase a := by
    by_cases ha : a = p.blkAddr
    · simp only [ha, update_self, he]
    · simp only [update_of_ne ha]
  free := hf

/-- **`mark_page_valid`** on the page an open line is at. -/
theorem markPageValid_phys (h : Phys c s pl pos) (hp : IsPage c p) (hs : pageSt s.blk p = .free)
    (hpl : pl p.line = .opened io) (hpos : pos io = p.ord c) :
    ∃ s', markPageValid c s p = .ok s' ∧ PageSet c p .valid s s' ∧
      Phys c s' pl (update pos io (pos io + 1)) := by
  have hst : (s.blk p.blkAddr).pg p.pg.toNat = .free := hs
  have hbc := h.blk_counted p hp
  have hlc := h.line_counted p.line hp.line_lt (by simp [hpl])
  have hlst : lineSt c s.blk p.line (p.ord c) = .free := by rw [hp.lineSt_eq, hs]
  refine ⟨{ s with
      blk := update s.blk p.blkAddr { s.blk p.blkAddr with
        pg := update (s.blk p.blkAddr).pg p.pg.toNat .valid, vpc := (s.blk p.blkAddr).vpc + 1 }
      lm := { s.lm with lines := update s.lm.lines p.line { s.lm.lines p.line with
        vpc := (s.lm.lines p.line).vpc + 1 } } }, ?_, .mk' hp rfl rfl rfl, ?_⟩
  · unfold markPageValid
    dsimp only
    rw [nvmevAssert_pos hst, ok_bind, nvmevAssert_pos (hbc.vpc_lt hp.inLine.pg_lt (by simp [hst])),
      ok_bind, nvmevAssert_pos (hlc.vpc_lt hp.ord_lt (by simp [hlst]))]
    rfl
  · refine h.setPage hp rfl (hbc.program hp.inLine.pg_lt hst)
      (h.shelved.lines (fun j => ?_) (fun j => ?_) (fun j hj => ?_)) (fun io' => ?_)
      (fun _ _ _ => Iff.rfl)
      (fun _ => Iff.rfl) (fun j hj => ⟨rfl, ?_, ?_⟩) (fun j hjb hj io' hio => ?_) (fun _ => ?_) ?_
    · by_cases hj : j = p.line <;> simp [hj]
    · by_cases hj : j = p.line <;> simp [hj]
    · have hne : j ≠ p.line := fun he => by rw [he, hpl] at hj; cases hj
      exact congrArg Line.vpc (update_of_ne hne _ _)
    · by_cases hio : io' = io
      · subst hio; rw [update_self, hpos]; exact hp.ord_lt
      · rw [update_of_ne hio]; exact h.pos_le io'
    · simp [hj]
    · simp [hj]
    · refine update_of_ne (fun he => hj ?_) _ _
      subst he
      rw [(h.opened io' j hjb).1 hio, (h.opened io' _ hp.line_lt).1 hpl]
    · simpa using hlc.program hp.ord_lt hlst
    · rw [hpl]
      intro k hk
      have hpg := h.pages p.line hp.line_lt
      rw [hpl] at hpg
      by_cases hkp : k = p.ord c
      · subst hkp; simp [hpos]
      · rw [update_of_ne hkp, hpg k hk, update_self]
        omega

/-! ## Invalidating a page -/

private theorem vpc_ne_of_opened (h : Phys c s pl pos) (hi : i < c.sp.blksPerPl)
    (hx : pl i = .opened io) (hset : pos io < c.sp.pgsPerLine) :
    (s.lm.lines i).vpc ≠ c.sp.pgsPerLine := by
  intro he
  have hv := ((h.line_counted i hi (by simp [hx])).vpc_eq_iff.1 he) _ hset
  have hpg := h.pages i hi
  rw [hx] at hpg
  have := (hpg _ hset).1 (by simp [hv])
  omega

/-- What `mark_page_invalid` does to the line of a page, by the place of the
    line: the result and where the line is then. -/
private theorem invalidateLine_shelved (h : Phys c s pl pos)
    (hset : ∀ io, pos io < c.sp.pgsPerLine) (hi : i < c.sp.blksPerPl) (hk : k < c.sp.pgsPerLine)
    (hv : lineSt c s.blk i k = .valid) (hg : pl i ≠ .gone) (now : ℕ) :
    ∃ lm pl', invalidateLine c s.lm i now = .ok lm ∧ Shelved c lm pl' ∧
      lm.freeLineList = s.lm.freeLineList ∧
      (pl' = pl ∧ pl i ≠ .full ∨ pl' = update pl i .victim ∧ pl i = .full) ∧
      PosOnly (update s.lm.lines i { s.lm.lines i with
        lastModifiedTime := now, ipc := (s.lm.lines i).ipc + 1, vpc := (s.lm.lines i).vpc - 1 })
        lm.lines := by
  have hc := h.line_counted i hi hg
  have hipc := hc.ipc_lt hk (by simp [hv])
  have hvpc : 0 < (s.lm.lines i).vpc ∧ (s.lm.lines i).vpc ≤ c.sp.pgsPerLine :=
    ⟨hc.vpc_pos hk hv, hc.vpc_le⟩
  have hpg := h.pages i hi
  unfold invalidateLine
  dsimp only
  generalize hl : s.lm.lines i = l at *
  rw [nvmevAssert_pos hipc, ok_bind]
  -- the line with the fields that are written, at its old position
  have hsh (v : ℕ) (hv : pl i = .victim → v = l.vpc) : Shelved c { s.lm with
      lines := update s.lm.lines i { l with
        lastModifiedTime := now, ipc := l.ipc + 1, vpc := v } } pl := by
    refine h.shelved.lines (fun j => ?_) (fun j => ?_) (fun j hpj => ?_)
    · by_cases hj : j = i <;> simp [hj, hl]
    · by_cases hj : j = i <;> simp [hj, hl]
    · by_cases hj : j = i
      · subst hj
        exact (congrArg Line.vpc (update_self ..)).trans ((hv hpj).trans (congrArg Line.vpc hl.symm))
      · exact congrArg Line.vpc (update_of_ne hj _ _)
  have hpos := h.shelved.pos_ne_zero_iff hi
  rw [hl] at hpos
  cases hx : pl i with
  | gone => exact absurd hx hg
  | free =>
    rw [hx] at hpg
    exact absurd (hpg k hk) (by simp [hv])
  | victim =>
    rw [hx] at hpg
    obtain ⟨-, j, hj, hinv⟩ := hpg
    have hnf : l.vpc ≠ c.sp.pgsPerLine := (hc.vpc_lt hj (by simp [hinv])).ne
    obtain ⟨q, ls, he, hpo, hsh'⟩ := (hsh l.vpc fun _ => rfl).changePriority hi hx (l.vpc - 1)
    simp only [hnf, decide_false, Bool.false_eq_true, false_implies, if_false]
    rw [nvmevAssert_pos trivial, ok_bind, nvmevAssert_pos hvpc, ok_bind, if_pos (hpos.2 hx), he]
    refine ⟨_, pl, rfl, hsh', rfl, .inl ⟨rfl, by simp⟩, ?_⟩
    simpa using hpo
  | opened io =>
    have hnf : l.vpc ≠ c.sp.pgsPerLine := by
      rw [← hl]; exact vpc_ne_of_opened h hi hx (hset io)
    have hp0 : ¬ l.pos ≠ 0 := by rw [hpos, hx]; simp
    simp only [hnf, decide_false, Bool.false_eq_true, false_implies, if_false]
    rw [nvmevAssert_pos trivial, ok_bind, nvmevAssert_pos hvpc, ok_bind, if_neg hp0]
    refine ⟨_, pl, rfl, ?_, rfl, .inl ⟨rfl, by simp⟩, ?_⟩
    · rw [update_idem]; exact hsh (l.vpc - 1) (by rw [hx]; simp)
    · rw [update_idem]; exact .refl _
  | full =>
    rw [hx] at hpg
    have hf : l.vpc = c.sp.pgsPerLine := hc.vpc_eq_iff.2 hpg
    have hp0 : ¬ l.pos ≠ 0 := by rw [hpos, hx]; simp
    have hipc0 : l.ipc = 0 := by have := hc.add_free; omega
    obtain ⟨q, ls, he, hpo, hsh'⟩ :=
      ((hsh (l.vpc - 1) (by rw [hx]; simp)).leaveFull hi hx loose_gone).toVictim hi (by simp [loose_gone])
    simp only [decide_eq_true hf, if_true]
    rw [nvmevAssert_pos (fun _ => hipc0), ok_bind, nvmevAssert_pos hvpc, ok_bind, if_neg hp0,
      update_idem, pure_bind, he]
    refine ⟨_, _, rfl, ?_, rfl, .inr ⟨rfl, trivial⟩, hpo⟩
    rw [update_idem] at hsh'
    exact hsh'

/-- **`mark_page_invalid`** of a valid page. -/
theorem markPageInvalid_phys (h : Phys c s pl pos) (hset : ∀ io, pos io < c.sp.pgsPerLine)
    (hp : IsPage c p) (hs : pageSt s.blk p = .valid) (hg : pl p.line ≠ .gone) :
    ∃ s' pl', markPageInvalid c s p = .ok s' ∧ PageSet c p .invalid s s' ∧
      (∀ i, pl' i = pl i ∨ pl i = .full ∧ pl' i = .victim) ∧ Phys c s' pl' pos := by
  have hst : (s.blk p.blkAddr).pg p.pg.toNat = .valid := hs
  have hbc := h.blk_counted p hp
  have hlst : lineSt c s.blk p.line (p.ord c) = .valid := by rw [hp.lineSt_eq, hs]
  have hpg := h.pages p.line hp.line_lt
  have hlt := hp.inLine.pg_lt
  obtain ⟨lm, pl', he, hsh, hfree, hpl', hpo⟩ :=
    invalidateLine_shelved h hset hp.line_lt hp.ord_lt hlst hg s.curNsecs
  have hvic (hf : pl p.line = .victim ∨ pl p.line = .full) :
      PagesOk c (update (lineSt c s.blk p.line) (p.ord c) .invalid) pos .victim := by
    refine ⟨fun k hk => ?_, p.ord c, hp.ord_lt, by rw [update_self]⟩
    by_cases hkp : k = p.ord c
    · rw [hkp, update_self]; simp
    · rw [update_of_ne hkp]
      rcases hf with hf | hf <;> rw [hf] at hpg
      · exact hpg.1 k hk
      · rw [hpg k hk]; simp
  have hplace : ∀ i, pl' i = pl i ∨ pl i = .full ∧ pl' i = .victim := by
    intro i
    rcases hpl' with ⟨rfl, -⟩ | ⟨rfl, hf⟩
    · exact .inl rfl
    · by_cases hi : i = p.line
      · subst hi; exact .inr ⟨hf, update_self ..⟩
      · exact .inl (update_of_ne hi _ _)
  refine ⟨{ s with
      blk := update s.blk p.blkAddr { s.blk p.blkAddr with
        pg := update (s.blk p.blkAddr).pg p.pg.toNat .invalid
        ipc := (s.blk p.blkAddr).ipc + 1, vpc := (s.blk p.blkAddr).vpc - 1 }
      lm := lm }, pl', ?_, .mk' hp rfl rfl hfree, hplace, ?_⟩
  · unfold markPageInvalid invalidateBlk
    rw [nvmevAssert_pos hst, ok_bind, nvmevAssert_pos (hbc.ipc_lt hlt (by simp [hst])), ok_bind,
      nvmevAssert_pos ⟨hbc.vpc_pos hlt hst, hbc.vpc_le⟩, ok_bind, pure_bind, he]
    rfl
  · refine h.setPage hp rfl (hbc.invalidate hlt hst) hsh h.pos_le (fun io i hi => ?_) (fun i => ?_)
      (fun i hi => ⟨?_, ?_, ?_⟩) (fun _ _ _ _ _ => rfl) (fun _ => ?_) ?_
    · rcases hplace i with he | ⟨hf, hv⟩
      · rw [he]
      · simp [hf, hv]
    · rcases hplace i with he | ⟨hf, hv⟩
      · rw [he]
      · simp [hf, hv]
    · rcases hpl' with ⟨rfl, -⟩ | ⟨rfl, -⟩
      · rfl
      · exact update_of_ne hi _ _
    · rw [hpo.vpc, update_of_ne hi]
    · rw [hpo.ipc, update_of_ne hi]
    · rw [hpo.vpc, hpo.ipc, update_self]
      exact (h.line_counted p.line hp.line_lt hg).invalidate hp.ord_lt hlst
    · rcases hpl' with ⟨rfl, hnf⟩ | ⟨rfl, hf⟩
      · cases hx : pl' p.line with
        | free => rw [hx] at hpg; exact absurd (hpg _ hp.ord_lt) (by simp [hlst])
        | full => exact absurd hx hnf
        | victim => exact hvic (.inl hx)
        | gone => trivial
        | opened io =>
          rw [hx] at hpg
          intro k hk
          by_cases hkp : k = p.ord c
          · subst hkp
            rw [update_self, ← hpg _ hk, hlst]
            simp
          · rw [update_of_ne hkp, hpg k hk]
      · rw [update_self]; exact hvic (.inr hf)

/-! ## Advancing a write pointer -/

/-- The moves of lines when a write pointer of `io` advances. -/
def Moved (io : IoType) (pl pl' : ℕ → Place) : Prop :=
  ∀ i, pl' i = pl i ∨ (pl i = .opened io ∧ (pl' i = .full ∨ pl' i = .victim)) ∨
    (pl i = .free ∧ pl' i = .opened io)

/-- Closing a line whose pages are all written. -/
private theorem closeLine_shelved (h : Phys c s pl pos) (hi : i < c.sp.blksPerPl)
    (hx : pl i = .opened io) (hfull : pos io = c.sp.pgsPerLine) :
    ∃ lm x, closeLine c s.lm i = .ok lm ∧ Shelved c lm (update pl i x) ∧
      PosOnly s.lm.lines lm.lines ∧ lm.freeLineList = s.lm.freeLineList ∧
      (x = .full ∨ x = .victim) ∧ PagesOk c (lineSt c s.blk i) pos x := by
  have hc := h.line_counted i hi (by simp [hx])
  have hpg := h.pages i hi
  rw [hx] at hpg
  have hne : ∀ k < c.sp.pgsPerLine, lineSt c s.blk i k ≠ .free := fun k hk =>
    (hpg k hk).2 (by rw [hfull]; exact hk)
  have hsum := hc.add_eq (h.pos_le io) hpg
  have hloose : (pl i).Loose := by rw [hx]; exact loose_opened io
  unfold closeLine
  dsimp only
  by_cases hv : (s.lm.lines i).vpc = c.sp.pgsPerLine
  · rw [if_pos hv, nvmevAssert_pos (by omega), ok_bind]
    exact ⟨_, .full, rfl, h.shelved.toFull hi hloose, .refl _, rfl, .inl rfl, hc.vpc_eq_iff.1 hv⟩
  · have hipc : 0 < (s.lm.lines i).ipc := by omega
    obtain ⟨q, ls, he, hpo, hsh⟩ := h.shelved.toVictim hi hloose
    rw [if_neg hv, nvmevAssert_pos (lt_of_le_of_ne hc.vpc_le hv), ok_bind, nvmevAssert_pos hipc,
      ok_bind, he]
    exact ⟨_, .victim, rfl, hsh, hpo, rfl, .inr rfl, hne, hc.ipc_pos_iff.1 hipc⟩

/-- The write pointer of `io` leaves line `i` for the free line `j`. -/
private theorem Phys.reopen (h : Phys c s pl pos) {x : Place} {j : ℕ} {lm : LineMgmt}
    (hi : pl i = .opened io) (hib : i < c.sp.blksPerPl) (hj : pl j = .free)
    (hjb : j < c.sp.blksPerPl) (hx : x = .full ∨ x = .victim)
    (hsh : Shelved c lm (update (update pl i x) j (.opened io))) (hpo : PosOnly s.lm.lines lm.lines)
    (hpg : PagesOk c (lineSt c s.blk i) pos x) :
    Phys c (({ s with lm := lm } : ConvFtl).setWp io (.fresh j))
      (update (update pl i x) j (.opened io)) (update pos io 0) := by
  have hji : j ≠ i := fun he => by rw [he, hi] at hj; cases hj
  have hcur : (s.getWp io).curline = i := ((h.opened io i hib).1 hi).symm
  have hwp (io' : IoType) : ({ s with lm := lm } : ConvFtl).getWp io' = s.getWp io' :=
    ConvFtl.getWp_congr rfl rfl io'
  have hplace {k : ℕ} (hkj : k ≠ j) (hki : k ≠ i) :
      update (update pl i x) j (.opened io) k = pl k := by rw [update_of_ne hkj, update_of_ne hki]
  have hpi : update (update pl i x) j (.opened io) i = x := by
    rw [update_of_ne hji.symm, update_self]
  refine ⟨by simpa using hsh, fun io' => ?_, fun io' k hk => ?_, fun io' => ?_,
    by simpa using h.blk_counted, fun k hk hg => ?_, fun k hk => ?_⟩
  · by_cases hio : io' = io
    · subst hio; rw [ConvFtl.getWp_setWp]; exact (wpOk_fresh hjb).1
    · rw [ConvFtl.getWp_setWp_of_ne _ hio, hwp]; exact h.wp_ok io'
  · by_cases hio : io' = io
    · subst hio
      rw [ConvFtl.getWp_setWp]
      by_cases hkj : k = j
      · subst hkj; simp [WritePointer.fresh]
      · simp only [WritePointer.fresh, hkj, iff_false]
        by_cases hki : k = i
        · subst hki; rw [hpi]; rcases hx with rfl | rfl <;> simp
        · rw [hplace hkj hki, h.opened io' k hk, hcur]; exact hki
    · rw [ConvFtl.getWp_setWp_of_ne _ hio, hwp]
      by_cases hkj : k = j
      · subst hkj
        have hne : k ≠ (s.getWp io').curline := fun he => by
          rw [(h.opened io' k hjb).2 he] at hj; cases hj
        simpa [Ne.symm hio] using hne
      · by_cases hki : k = i
        · subst hki
          have hne : k ≠ (s.getWp io').curline := fun he => hio (by
            have := (h.opened io' k hib).2 he
            rw [hi] at this; cases this; rfl)
          rw [hpi]
          rcases hx with rfl | rfl <;> simpa using hne
        · rw [hplace hkj hki]; exact h.opened io' k hk
  · by_cases hio : io' = io
    · subst hio; simp
    · rw [update_of_ne hio]; exact h.pos_le io'
  · have hne : pl k ≠ .gone := by
      by_cases hkj : k = j
      · subst hkj; simp [hj]
      · by_cases hki : k = i
        · subst hki; simp [hi]
        · rwa [hplace hkj hki] at hg
    simpa [hpo.vpc, hpo.ipc] using h.line_counted k hk hne
  · rw [ConvFtl.setWp_blk]
    by_cases hkj : k = j
    · subst hkj
      have hfr := h.pages k hk
      rw [hj] at hfr
      rw [update_self]
      intro n hn
      rw [update_self, hfr n hn]
      simp
    · by_cases hki : k = i
      · subst hki
        rw [hpi]
        rcases hx with rfl | rfl <;> exact hpg
      · rw [hplace hkj hki]
        have hpk := h.pages k hk
        cases hpl : pl k with
        | opened io' =>
          have hio : io' ≠ io := fun he => hki (by
            rw [← hcur, ← he]; exact (h.opened io' k hk).1 hpl)
          rw [hpl] at hpk
          simp only [PagesOk, update_of_ne hio]
          exact hpk
        | _ => rw [hpl] at hpk; exact hpk

/-- **`advance_write_pointer`** after the page of the write pointer was
    programmed. -/
theorem advanceWritePointer_phys (h : Phys c s pl pos)
    (hpos : pos io = (s.getWp io).ord c + 1) :
    Sat (fun e => e = .noFreeLine ∧ s.lm.freeLineList = [] ∧ pos io = c.sp.pgsPerLine)
      (fun s' => ∃ pl', s' = { s with lm := s'.lm, wp := s'.wp, gcWp := s'.gcWp } ∧
        (∀ io' ≠ io, s'.getWp io' = s.getWp io') ∧
        Phys c s' pl' (update pos io (posOf c s' io)) ∧ Moved io pl pl' ∧
        s'.lm.freeLineCnt * c.sp.pgsPerLine + (c.sp.pgsPerLine - posOf c s' io) =
          s.lm.freeLineCnt * c.sp.pgsPerLine + (c.sp.pgsPerLine - pos io) ∧
        s'.lm.freeLineList <:+ s.lm.freeLineList)
      (advanceWritePointer c s io) := by
  have hcur := (h.wp_ok io).lt
  have hplace : pl (s.getWp io).curline = .opened io := (h.opened io _ hcur).2 rfl
  rcases advanceWritePointer_cases (h.wp_ok io) with ⟨wp, hwp, hline, hord, he⟩ | ⟨hord, he⟩
  · -- the next page of the same line
    rw [he]
    have hpos' : update pos io (wp.ord c) = pos := by rw [hord, ← hpos, update_eq_self]
    have hposOf : posOf c (s.setWp io wp) io = wp.ord c := by rw [posOf, ConvFtl.getWp_setWp]
    refine ⟨pl, by cases io <;> rfl, fun io' hio => ConvFtl.getWp_setWp_of_ne _ hio _, ?_,
      fun i => .inl rfl, by rw [hposOf, ConvFtl.setWp_lm, hord, hpos], by rw [ConvFtl.setWp_lm]⟩
    rw [hposOf, hpos']
    refine ⟨by simpa using h.shelved, fun io' => ?_, fun io' i hi => ?_, h.pos_le,
      by simpa using h.blk_counted, by simpa using h.line_counted, by simpa using h.pages⟩
    · by_cases hio : io' = io
      · subst hio; rw [ConvFtl.getWp_setWp]; exact hwp
      · rw [ConvFtl.getWp_setWp_of_ne _ hio]; exact h.wp_ok io'
    · by_cases hio : io' = io
      · subst hio; rw [ConvFtl.getWp_setWp, hline]; exact h.opened io' i hi
      · rw [ConvFtl.getWp_setWp_of_ne _ hio]; exact h.opened io' i hi
  · -- the line is closed and another one opened
    have hfull : pos io = c.sp.pgsPerLine := hpos.trans hord
    generalize (s.getWp io).curline = i at hcur hplace he
    obtain ⟨lm, x, hclose, hsh, hpo, hfree, hx, hpgx⟩ := closeLine_shelved h hcur hplace hfull
    rw [he, hclose, ok_bind]
    unfold openLine
    rw [checkAddr_ok (show (WritePointer.fresh i).blk < _ from hcur), ok_bind]
    unfold getNextFreeLine
    dsimp only
    rw [hfree]
    cases hl : s.lm.freeLineList with
    | nil => exact ⟨rfl, rfl, hfull⟩
    | cons j rest =>
      obtain ⟨hj, hjf⟩ := (h.shelved.mem_free j).1 (hl ▸ List.mem_cons_self)
      have hji : j ≠ i := fun he => by rw [he, hplace] at hjf; cases hjf
      have hid : (lm.lines j).id = j := hsh.id_eq j hj
      have hcnt : lm.freeLineCnt = s.lm.freeLineCnt := by
        rw [hsh.freeCnt, hfree, h.shelved.freeCnt]
      have hpos1 : 0 < s.lm.freeLineCnt := by rw [h.shelved.freeCnt, hl]; simp
      have hord0 : (WritePointer.fresh j).ord c = 0 := (wpOk_fresh hj).2
      dsimp only
      rw [hid, checkAddr_ok hj, ok_bind, nvmevAssert_pos ⟨rfl, rfl, rfl, rfl⟩, ok_bind]
      have hposOf (t : ConvFtl) : posOf c (t.setWp io (.fresh j)) io = 0 := by
        rw [posOf, ConvFtl.getWp_setWp, hord0]
      change Sat _ _ (.ok (ConvFtl.setWp { s with
        lm := { lm with freeLineList := rest, freeLineCnt := lm.freeLineCnt - 1 } } io (.fresh j)))
      refine ⟨update (update pl i x) j (.opened io), by cases io <;> rfl, fun io' hio => ?_, ?_,
        fun k => ?_, ?_, ?_⟩
      · exact (ConvFtl.getWp_setWp_of_ne _ hio _).trans (ConvFtl.getWp_congr rfl rfl _)
      · rw [hposOf]
        exact h.reopen hplace hcur hjf hj hx (hsh.takeFree (hfree.trans hl) (loose_opened io)) hpo hpgx
      · by_cases hkj : k = j
        · subst hkj; exact .inr (.inr ⟨hjf, update_self ..⟩)
        · rw [update_of_ne hkj]
          by_cases hki : k = i
          · subst hki; rw [update_self]; exact .inr (.inl ⟨hplace, hx⟩)
          · rw [update_of_ne hki]; exact .inl rfl
      · rw [hposOf, ConvFtl.setWp_lm, hfull, Nat.sub_self, Nat.sub_zero, Nat.add_zero]
        dsimp only
        rw [hcnt, ← Nat.add_one_mul, Nat.sub_add_cancel hpos1]
      · rw [ConvFtl.setWp_lm]; exact List.suffix_cons j rest

/-! ## Erasing -/

/-- Other fields of the lines than the ones the invariant reads. -/
theorem Phys.lines (h : Phys c s pl pos) {ls : ℕ → Line}
    (hid : ∀ i, (ls i).id = (s.lm.lines i).id) (hpos : ∀ i, (ls i).pos = (s.lm.lines i).pos)
    (hvpc : ∀ i, (ls i).vpc = (s.lm.lines i).vpc) (hipc : ∀ i, (ls i).ipc = (s.lm.lines i).ipc) :
    Phys c { s with lm := { s.lm with lines := ls } } pl pos where
  shelved := h.shelved.lines hid hpos fun i _ => hvpc i
  wp_ok io := by rw [ConvFtl.getWp_congr rfl rfl]; exact h.wp_ok io
  opened io := by rw [ConvFtl.getWp_congr rfl rfl]; exact h.opened io
  pos_le := h.pos_le
  blk_counted := h.blk_counted
  line_counted i hi hg := by simp only [hvpc, hipc]; exact h.line_counted i hi hg
  pages := h.pages

theorem pageSt_markBlockFree (hq : IsPage c q) :
    pageSt (markBlockFree c s p).blk q =
      if q.blkAddr = p.blkAddr then .free else pageSt s.blk q := by
  simp only [markBlockFree, pageSt]
  by_cases hqp : q.blkAddr = p.blkAddr
  · rw [if_pos hqp, hqp, update_self]
    exact if_pos hq.inLine.pg_lt
  · rw [if_neg hqp, update_of_ne hqp]

theorem line_of_blkAddr (h : q.blkAddr = p.blkAddr) : q.line = p.line := by
  simp only [Ppa.blkAddr, BlkAddr.mk.injEq] at h; exact h.2.2.2

@[simp] theorem getWp_markBlockFree (io : IoType) :
    (markBlockFree c s p).getWp io = s.getWp io := ConvFtl.getWp_congr rfl rfl io

@[simp] theorem getWp_markLineFree (io : IoType) :
    (markLineFree s p).getWp io = s.getWp io := ConvFtl.getWp_congr rfl rfl io

/-- **`mark_block_free`** on a block of the line that is being emptied. -/
theorem markBlockFree_phys (h : Phys c s pl pos) (hg : pl p.line = .gone) :
    Phys c (markBlockFree c s p) pl pos := by
  have hst : ∀ i < c.sp.blksPerPl, i ≠ p.line → ∀ k < c.sp.pgsPerLine,
      lineSt c (markBlockFree c s p).blk i k = lineSt c s.blk i k := by
    intro i hi hip k hk
    obtain ⟨hq, hl, -⟩ := isPage_pageAt hi hk
    rw [lineSt, pageSt_markBlockFree hq, if_neg fun he => hip (hl.symm.trans (line_of_blkAddr he))]
    rfl
  refine ⟨h.shelved, fun io => ?_, fun io => ?_, h.pos_le, fun q hq => ?_, fun i hi hne => ?_,
    fun i hi => ?_⟩
  · rw [getWp_markBlockFree]; exact h.wp_ok io
  · rw [getWp_markBlockFree]; exact h.opened io
  · simp only [markBlockFree]
    by_cases hqp : q.blkAddr = p.blkAddr
    · rw [hqp, update_self]
      exact counted_free fun k hk => if_pos hk
    · rw [update_of_ne hqp]; exact h.blk_counted q hq
  · have hip : i ≠ p.line := fun he => hne (by rw [he, hg])
    exact (h.line_counted i hi hne).congr (hst i hi hip)
  · by_cases hip : i = p.line
    · rw [hip, hg]; trivial
    · exact (h.pages i hi).congr (hst i hi hip)

/-- **`mark_line_free`** on the emptied line. -/
theorem markLineFree_phys (h : Phys c s pl pos) (hp : p.line < c.sp.blksPerPl)
    (hg : pl p.line = .gone) (hfree : ∀ k < c.sp.pgsPerLine, lineSt c s.blk p.line k = .free) :
    Phys c (markLineFree s p) (update pl p.line .free) pos := by
  have hsh := h.shelved.toFree hp (by rw [hg]; exact loose_gone)
  refine ⟨?_, fun io => ?_, fun io i hi => ?_, h.pos_le, h.blk_counted, fun i hi hne => ?_,
    fun i hi => ?_⟩
  · exact hsh.lines (fun i => by by_cases hi : i = p.line <;> simp [hi])
      (fun i => by by_cases hi : i = p.line <;> simp [hi])
      (fun i hi => by
        have hne : i ≠ p.line := fun he => by rw [he, update_self] at hi; cases hi
        exact congrArg Line.vpc (update_of_ne hne _ _))
  · rw [getWp_markLineFree]; exact h.wp_ok io
  · rw [getWp_markLineFree, ← h.opened io i hi]
    by_cases hip : i = p.line
    · subst hip; simp [hg]
    · rw [update_of_ne hip]
  · simp only [markLineFree]
    by_cases hip : i = p.line
    · rw [hip, update_self]; exact counted_free hfree
    · rw [update_of_ne hip] at hne ⊢; exact h.line_counted i hi hne
  · by_cases hip : i = p.line
    · subst hip; rw [update_self]; exact hfree
    · rw [update_of_ne hip]; exact h.pages i hi

end WaitGc

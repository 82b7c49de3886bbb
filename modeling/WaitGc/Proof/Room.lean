/-
  WAITGC verification — the space of the device and the WAF counters.

  * The pages of a line are the pages of its blocks (`sum_lineSt`), so a sum
    over the flash array is a sum over the lines (`devSum_eq`).
  * `spaceLeft` is the number of pages that can still be written: the free lines and
    the rest of the two open lines.  It counts the free pages of the array
    (`FtlOk.used_add_spaceLeft`), and the valid pages are the images of the mapped
    ones (`FtlOk.validPages_eq`).
  * `Waf` balances the counters `conv_flush` reports against it.
-/
import WaitGc.Proof.Gc
import Mathlib.Algebra.Group.Action.Defs
import Mathlib.Algebra.BigOperators.Ring.Finset

namespace WaitGc

open Outcome Function Tally

variable {c : Cfg} {s s' : ConvFtl} {pl pl' : ℕ → Place} {blk : BlkAddr → NandBlock} {i v : ℕ}

/-! ## Sums over the flash array -/

/-- The sum of `f` over the blocks of line `i`. -/
def lineSum (c : Cfg) (i : ℕ) (f : BlkAddr → ℕ) : ℕ :=
  ∑ ch ∈ Finset.range c.sp.nchs, ∑ lun ∈ Finset.range c.sp.lunsPerCh, f ⟨ch, lun, 0, i⟩

/-- The sum of `f` over the blocks of the device. -/
def devSum (c : Cfg) (f : BlkAddr → ℕ) : ℕ :=
  ∑ ch ∈ Finset.range c.sp.nchs, ∑ lun ∈ Finset.range c.sp.lunsPerCh,
    ∑ i ∈ Finset.range c.sp.blksPerPl, f ⟨ch, lun, 0, i⟩

/-- The pages of the device that are not free. -/
def usedPages (c : Cfg) (s : ConvFtl) : ℕ :=
  devSum c fun b => ((Finset.range c.sp.pgsPerBlk).filter fun k => (s.blk b).pg k ≠ .free).card

/-- The valid pages of the device. -/
def validPages (c : Cfg) (s : ConvFtl) : ℕ :=
  devSum c fun b => ((Finset.range c.sp.pgsPerBlk).filter fun k => (s.blk b).pg k = .valid).card

/-- The erases of all blocks of the device. -/
def erases (c : Cfg) (s : ConvFtl) : ℕ := devSum c fun b => (s.blk b).eraseCnt

/-- The logical pages that are mapped. -/
def mappedLpns (c : Cfg) (s : ConvFtl) : Finset ℕ :=
  (Finset.range c.sp.ttPgs).filter fun lpn => mappedPpa (s.maptbl lpn) = true

theorem devSum_eq (f : BlkAddr → ℕ) :
    devSum c f = ∑ i ∈ Finset.range c.sp.blksPerPl, lineSum c i f := by
  unfold devSum lineSum
  rw [Finset.sum_comm (s := Finset.range c.sp.blksPerPl)]
  exact Finset.sum_congr rfl fun ch _ => Finset.sum_comm

theorem lineSum_congr {f g : BlkAddr → ℕ}
    (h : ∀ ch < c.sp.nchs, ∀ lun < c.sp.lunsPerCh, f ⟨ch, lun, 0, i⟩ = g ⟨ch, lun, 0, i⟩) :
    lineSum c i f = lineSum c i g :=
  Finset.sum_congr rfl fun _ hch => Finset.sum_congr rfl fun _ hlun =>
    h _ (Finset.mem_range.1 hch) _ (Finset.mem_range.1 hlun)

theorem lineSum_const (n : ℕ) : lineSum c i (fun _ => n) = c.sp.blksPerLine * n := by
  simp only [lineSum, Finset.sum_const, Finset.card_range, smul_eq_mul]
  rw [← Nat.mul_assoc, Nat.mul_comm c.sp.nchs, ← c.geo.blksPerLine_eq]

/-- **The pages of a line are the pages of its blocks.** -/
theorem sum_lineSt (hi : i < c.sp.blksPerPl) (blk : BlkAddr → NandBlock) (g : PgStatus → ℕ) :
    ∑ k ∈ Finset.range c.sp.pgsPerLine, g (lineSt c blk i k) =
      lineSum c i fun b => ∑ k ∈ Finset.range c.sp.pgsPerBlk, g ((blk b).pg k) := by
  simp only [lineSum]
  rw [← Finset.sum_product', ← Finset.sum_product']
  refine Finset.sum_nbij' (fun k => ((c.geo.chAt k, c.geo.lunAt k), c.geo.pgAt k))
    (fun x => c.geo.ord x.1.1 x.1.2 x.2) ?_ ?_ ?_ ?_ ?_
  · intro k hk
    have h := Geometry.inLine_at (Finset.mem_range.1 hk)
    simp only [Finset.mem_product, Finset.mem_range]
    exact ⟨⟨h.ch_lt, h.lun_lt⟩, h.pg_lt⟩
  · rintro ⟨⟨ch, lun⟩, pg⟩ hx
    simp only [Finset.mem_product, Finset.mem_range] at hx
    exact Finset.mem_range.2 (Geometry.ord_lt ⟨hx.1.1, hx.1.2, hx.2⟩)
  · intro k _
    exact Geometry.ord_at k
  · rintro ⟨⟨ch, lun⟩, pg⟩ hx
    simp only [Finset.mem_product, Finset.mem_range] at hx
    obtain ⟨h₁, h₂, h₃⟩ := Geometry.at_ord (g := c.geo) ⟨hx.1.1, hx.1.2, hx.2⟩
    dsimp only
    rw [h₁, h₂, h₃]
  · intro k hk
    obtain ⟨h₁, h₂, h₃, h₄⟩ := store_fields (Geometry.inLine_at (Finset.mem_range.1 hk)) hi
    rw [lineSt, pageSt, Ppa.blkAddr, pageAt, h₁, h₂, h₃, h₄]
    rfl

theorem tally_lineSt (hi : i < c.sp.blksPerPl) (blk : BlkAddr → NandBlock) (st : PgStatus) :
    tally (Finset.range c.sp.pgsPerLine) (lineSt c blk i) st =
      lineSum c i fun b => tally (Finset.range c.sp.pgsPerBlk) (blk b).pg st := by
  simp only [tally, Finset.card_filter]
  exact sum_lineSt hi blk fun x => if x = st then 1 else 0

/-- **The counters of a line are the sums of the counters of its blocks.** -/
theorem Phys.line_eq_sum {pos : IoType → ℕ} (h : Phys c s pl pos) (hi : i < c.sp.blksPerPl)
    (hg : pl i ≠ .gone) :
    (s.lm.lines i).vpc = lineSum c i (fun b => (s.blk b).vpc) ∧
      (s.lm.lines i).ipc = lineSum c i (fun b => (s.blk b).ipc) := by
  obtain ⟨hv, hip⟩ := h.line_counted i hi hg
  have hblk (ch : ℕ) (hch : ch < c.sp.nchs) (lun : ℕ) (hlun : lun < c.sp.lunsPerCh) :
      Counted c.sp.pgsPerBlk (s.blk ⟨ch, lun, 0, i⟩).pg (s.blk ⟨ch, lun, 0, i⟩).vpc
        (s.blk ⟨ch, lun, 0, i⟩).ipc := by
    have hin : c.geo.InLine ch lun 0 := ⟨hch, hlun, Geometry.pgsPerBlk_pos⟩
    obtain ⟨h₁, h₂, h₃, -⟩ := store_fields hin hi
    have hc := h.blk_counted _ (isPage_store hin hi).1
    rw [Ppa.blkAddr, h₁, h₂, h₃] at hc
    exact hc
  constructor
  · rw [hv, tally_lineSt hi]
    exact lineSum_congr fun ch hch lun hlun => (hblk ch hch lun hlun).1.symm
  · rw [hip, tally_lineSt hi]
    exact lineSum_congr fun ch hch lun hlun => (hblk ch hch lun hlun).2.symm

theorem validPages_eq_lines : validPages c s =
    ∑ i ∈ Finset.range c.sp.blksPerPl, tally (Finset.range c.sp.pgsPerLine) (lineSt c s.blk i) .valid := by
  rw [validPages, devSum_eq]
  refine Finset.sum_congr rfl fun i hi => ?_
  rw [tally_lineSt (Finset.mem_range.1 hi)]
  rfl

theorem used_add_free : usedPages c s +
    ∑ i ∈ Finset.range c.sp.blksPerPl, tally (Finset.range c.sp.pgsPerLine) (lineSt c s.blk i) .free =
      c.sp.ttPgs := by
  have hfree : ∑ i ∈ Finset.range c.sp.blksPerPl,
      tally (Finset.range c.sp.pgsPerLine) (lineSt c s.blk i) .free =
      devSum c fun b => tally (Finset.range c.sp.pgsPerBlk) (s.blk b).pg .free := by
    rw [devSum_eq]
    exact Finset.sum_congr rfl fun i hi => tally_lineSt (Finset.mem_range.1 hi) ..
  rw [hfree, usedPages, devSum_eq, devSum_eq, ← Finset.sum_add_distrib]
  have hline : ∀ i ∈ Finset.range c.sp.blksPerPl,
      lineSum c i (fun b => ((Finset.range c.sp.pgsPerBlk).filter fun k => (s.blk b).pg k ≠ .free).card) +
        lineSum c i (fun b => tally (Finset.range c.sp.pgsPerBlk) (s.blk b).pg .free) =
      c.sp.pgsPerLine := by
    intro i _
    simp only [lineSum, ← Finset.sum_add_distrib, card_filter_ne, Finset.card_range]
    rw [c.geo.pgsPerLine_eq]
    exact lineSum_const (i := i) _
  rw [Finset.sum_congr rfl hline, Finset.sum_const, Finset.card_range, smul_eq_mul,
    Geometry.ttPgs_eq_lines, Geometry.ttLines_eq']

/-! ## The space left -/

/-- The pages that can still be written. -/
def spaceLeft (c : Cfg) (s : ConvFtl) : ℕ :=
  openRoom c s .userIo + (c.sp.pgsPerLine - posOf c s .gcIo)

/-- The free pages of a line, by its place. -/
private theorem tally_free_eq {pos : IoType → ℕ} (h : Phys c s pl pos) (hi : i < c.sp.blksPerPl)
    (hg : pl i ≠ .gone) :
    tally (Finset.range c.sp.pgsPerLine) (lineSt c s.blk i) .free =
      (if pl i = .free then c.sp.pgsPerLine else 0) +
        (if i = s.wp.curline then c.sp.pgsPerLine - pos .userIo else 0) +
        (if i = s.gcWp.curline then c.sp.pgsPerLine - pos .gcIo else 0) := by
  have hpg := h.pages i hi
  have hu : i = s.wp.curline ↔ pl i = .opened .userIo := (h.opened .userIo i hi).symm
  have hgc : i = s.gcWp.curline ↔ pl i = .opened .gcIo := (h.opened .gcIo i hi).symm
  simp only [hu, hgc]
  have hc := (h.line_counted i hi hg).add_free
  cases hx : pl i with
  | free =>
    rw [hx] at hpg
    have hall : tally (Finset.range c.sp.pgsPerLine) (lineSt c s.blk i) .free =
        (Finset.range c.sp.pgsPerLine).card :=
      tally_eq_card.2 fun k hk => hpg k (Finset.mem_range.1 hk)
    rw [hall, Finset.card_range]
    simp
  | full =>
    rw [hx] at hpg
    have hnone : tally (Finset.range c.sp.pgsPerLine) (lineSt c s.blk i) .free = 0 :=
      tally_eq_zero fun k hk => by rw [hpg k (Finset.mem_range.1 hk)]; simp
    rw [hnone]
    simp
  | victim =>
    rw [hx] at hpg
    have hnone : tally (Finset.range c.sp.pgsPerLine) (lineSt c s.blk i) .free = 0 :=
      tally_eq_zero fun k hk => hpg.1 k (Finset.mem_range.1 hk)
    rw [hnone]
    simp
  | opened io =>
    rw [hx] at hpg
    have hsum := (h.line_counted i hi hg).add_eq (h.pos_le io) hpg
    have hle := h.pos_le io
    cases io <;> simp <;> omega
  | gone => exact absurd hx hg

theorem card_free {lm : LineMgmt} (h : Shelved c lm pl) :
    ((Finset.range c.sp.blksPerPl).filter fun i => pl i = .free).card = lm.freeLineCnt := by
  rw [h.freeCnt, ← List.toFinset_card_of_nodup h.free_nodup]
  congr 1
  ext i
  rw [Finset.mem_filter, Finset.mem_range, List.mem_toFinset, h.mem_free]
  rfl

/-- **The free pages are the space left.** -/
theorem FtlOk.free_eq_spaceLeft (h : FtlOk c s pl) :
    ∑ i ∈ Finset.range c.sp.blksPerPl, tally (Finset.range c.sp.pgsPerLine) (lineSt c s.blk i) .free =
      spaceLeft c s := by
  have hline : ∀ i ∈ Finset.range c.sp.blksPerPl, _ = _ := fun i hi =>
    tally_free_eq h.phys (Finset.mem_range.1 hi) (h.settled i (Finset.mem_range.1 hi))
  have hu : s.wp.curline ∈ Finset.range c.sp.blksPerPl :=
    Finset.mem_range.2 (h.phys.wp_ok .userIo).lt
  have hg : s.gcWp.curline ∈ Finset.range c.sp.blksPerPl :=
    Finset.mem_range.2 (h.phys.wp_ok .gcIo).lt
  rw [Finset.sum_congr rfl hline, Finset.sum_add_distrib, Finset.sum_add_distrib,
    Finset.sum_ite_eq' _ s.wp.curline, Finset.sum_ite_eq' _ s.gcWp.curline, if_pos hu, if_pos hg,
    ← Finset.sum_filter, Finset.sum_const, card_free h.phys.shelved, smul_eq_mul]
  rfl

/-- **Used pages and the space left are all pages.** -/
theorem FtlOk.used_add_spaceLeft (h : FtlOk c s pl) : usedPages c s + spaceLeft c s = c.sp.ttPgs := by
  rw [← h.free_eq_spaceLeft]; exact used_add_free

/-- **The valid pages are the images of the mapped ones.** -/
theorem FtlOk.validPages_eq (h : FtlOk c s pl) : validPages c s = (mappedLpns c s).card := by
  rw [validPages_eq_lines, ← tally_product (Finset.range c.sp.blksPerPl)
    (Finset.range c.sp.pgsPerLine) fun x => lineSt c s.blk x.1 x.2]
  symm
  refine Finset.card_bij (fun lpn _ => ((s.maptbl lpn).line, (s.maptbl lpn).ord c)) ?_ ?_ ?_
  · intro lpn hl
    obtain ⟨hl, hm⟩ := Finset.mem_filter.1 hl
    obtain ⟨hp, hv, -⟩ := h.map.image lpn (Finset.mem_range.1 hl) hm
    simp only [Finset.mem_filter, Finset.mem_product, Finset.mem_range]
    exact ⟨⟨hp.line_lt, hp.ord_lt⟩, by rw [hp.lineSt_eq, hv]⟩
  · intro lpn hl lpn' hl' he
    obtain ⟨hl, hm⟩ := Finset.mem_filter.1 hl
    obtain ⟨hl', hm'⟩ := Finset.mem_filter.1 hl'
    rw [Finset.mem_range] at hl hl'
    rw [Prod.mk.injEq] at he
    exact h.map.inj hl hl' hm
      ((h.map.image lpn hl hm).1.eq (h.map.image lpn' hl' hm').1 he.1 he.2)
  · rintro ⟨i, k⟩ hx
    simp only [Finset.mem_filter, Finset.mem_product, Finset.mem_range] at hx
    obtain ⟨⟨hi, hk⟩, hv⟩ := hx
    obtain ⟨hp, hl, ho⟩ := isPage_pageAt hi hk
    obtain ⟨lpn, hlpn, he⟩ := h.map.cover _ hp hv id
    refine ⟨lpn, Finset.mem_filter.2 ⟨Finset.mem_range.2 hlpn, ?_⟩, ?_⟩
    · rw [he]; exact hp.mapped
    · rw [he, hl, ho]

/-- A collection maps what was mapped. -/
theorem Emptied.mappedLpns_eq (hE : Emptied c s v s' pl') : mappedLpns c s' = mappedLpns c s := by
  unfold mappedLpns
  refine Finset.filter_congr fun lpn hlpn => ?_
  rw [hE.mapped lpn (Finset.mem_range.1 hlpn)]

theorem FtlOk.victim_counters (h : FtlOk c s pl) {v : ℕ} (hv : v < c.sp.blksPerPl)
    (hp : pl v = .victim) :
    1 ≤ (s.lm.lines v).ipc ∧ (s.lm.lines v).vpc + (s.lm.lines v).ipc = c.sp.pgsPerLine := by
  have hcount := h.phys.line_counted v hv (h.settled v hv)
  have hpg := h.phys.pages v hv
  rw [hp] at hpg
  refine ⟨hcount.ipc_pos_iff.2 hpg.2, hcount.add_eq le_rfl fun k hk => ?_⟩
  exact ⟨fun _ => hk, fun _ => hpg.1 k hk⟩

/-! ## The WAF counters -/

/-- The counters `conv_flush` reports, against the flash array. -/
structure Waf (c : Cfg) (s : ConvFtl) : Prop where
  copied : s.stats.gcValidCopied = s.stats.gcVictimVpcSum
  written : s.stats.hostWritePages + s.stats.gcValidCopied + spaceLeft c s =
    s.stats.gcCnt * c.sp.pgsPerLine + c.sp.ttPgs
  erased : erases c s = s.stats.gcCnt * c.sp.blksPerLine

theorem erases_congr (h : ∀ b, (s'.blk b).eraseCnt = (s.blk b).eraseCnt) :
    erases c s' = erases c s := by
  unfold erases
  rw [funext h]

theorem spaceLeft_congr (hcnt : s'.lm.freeLineCnt = s.lm.freeLineCnt) (hpos : posOf c s' = posOf c s) :
    spaceLeft c s' = spaceLeft c s := by
  rw [spaceLeft, spaceLeft, openRoom, openRoom, hcnt, hpos]

theorem Waf.congr (h : Waf c s) (hst : s'.stats.waf = s.stats.waf)
    (hcnt : s'.lm.freeLineCnt = s.lm.freeLineCnt) (hpos : posOf c s' = posOf c s)
    (he : ∀ b, (s'.blk b).eraseCnt = (s.blk b).eraseCnt) : Waf c s' := by
  simp only [GcStats.waf, Prod.mk.injEq] at hst
  obtain ⟨h₁, h₂, h₃, h₄⟩ := hst
  refine ⟨?_, ?_, ?_⟩
  · rw [h₂, h₄, h.copied]
  · rw [h₁, h₂, h₃, spaceLeft_congr hcnt hpos, h.written]
  · rw [h₁, erases_congr he, h.erased]

theorem HostWrote.spaceLeft_succ {lpn nsecs : ℕ} {p : Ppa} (hw : HostWrote c lpn nsecs s p s' pl') :
    spaceLeft c s' + 1 = spaceLeft c s := by
  have hpos : posOf c s' .gcIo = posOf c s .gcIo := by
    rw [posOf, posOf, ConvFtl.getWp, ConvFtl.getWp, hw.gcWp]
  rw [spaceLeft, spaceLeft, hpos, ← hw.room, Nat.add_right_comm]

/-- A collection wins the rest of the line. -/
theorem Emptied.spaceLeft_add (hE : Emptied c s v s' pl') :
    spaceLeft c s' + (s.lm.lines v).vpc = spaceLeft c s + c.sp.pgsPerLine := by
  have hroom := hE.room
  have hpos : posOf c s' .userIo = posOf c s .userIo := by
    rw [posOf, posOf, ConvFtl.getWp, ConvFtl.getWp, hE.wp]
  rw [openRoom, openRoom] at hroom
  rw [spaceLeft, openRoom, spaceLeft, openRoom, hpos]
  omega

theorem HostWrote.waf {lpn nsecs : ℕ} {p : Ppa} (hw : HostWrote c lpn nsecs s p s' pl')
    (h : Waf c s) : Waf c s' := by
  have hroom := hw.spaceLeft_succ
  have hwritten := h.written
  refine ⟨?_, ?_, ?_⟩
  · rw [hw.stats]
    exact h.copied
  · rw [hw.stats]
    simp only [GcStats.countHost]
    omega
  · rw [erases_congr hw.erase, h.erased, hw.stats]
    rfl

theorem Discarded.waf {lpn : ℕ} (hd : Discarded c lpn s s' pl') (h : Waf c s) : Waf c s' :=
  h.congr (by rw [hd.stats]) hd.freeCnt hd.posOf hd.erase

/-- **A collection** copies what it counts, wins the rest of the line and erases
    each block of the line. -/
theorem Emptied.waf_ok (hE : Emptied c s v s' pl') (hv : v < c.sp.blksPerPl) (h : Waf c s) :
    Waf c s' := by
  have hst := hE.waf
  simp only [GcStats.waf, Prod.mk.injEq] at hst
  obtain ⟨h₁, h₂, h₃, h₄⟩ := hst
  refine ⟨?_, ?_, ?_⟩
  · rw [h₂, h₄, h.copied]
  · have hroom := hE.spaceLeft_add
    have hwritten := h.written
    rw [h₁, h₂, h₃, Nat.add_one_mul]
    omega
  · rw [h₁, Nat.add_one_mul, ← h.erased, erases, erases, devSum_eq, devSum_eq]
    have hone : ∑ i ∈ Finset.range c.sp.blksPerPl,
        lineSum c i (fun b => if b.InLine c v then 1 else 0) = c.sp.blksPerLine := by
      have hline : ∀ i ∈ Finset.range c.sp.blksPerPl,
          lineSum c i (fun b => if b.InLine c v then 1 else 0) =
            if i = v then c.sp.blksPerLine else 0 := by
        intro i _
        by_cases hiv : i = v
        · subst hiv
          have hin : lineSum c i (fun b => if b.InLine c i then 1 else 0) = lineSum c i fun _ => 1 :=
            lineSum_congr fun ch hch lun hlun => if_pos ⟨hch, hlun, rfl, rfl⟩
          rw [if_pos rfl, hin, lineSum_const, Nat.mul_one]
        · have hout : lineSum c i (fun b => if b.InLine c v then 1 else 0) = lineSum c i fun _ => 0 :=
            lineSum_congr fun ch _ lun _ => if_neg fun hb : BlkAddr.InLine c v _ => hiv hb.2.2.2
          rw [if_neg hiv, hout, lineSum_const, Nat.mul_zero]
      rw [Finset.sum_congr rfl hline, Finset.sum_ite_eq', if_pos (Finset.mem_range.2 hv)]
    rw [← hone, ← Finset.sum_add_distrib]
    refine Finset.sum_congr rfl fun i _ => ?_
    simp only [lineSum, ← Finset.sum_add_distrib]
    exact Finset.sum_congr rfl fun ch _ => Finset.sum_congr rfl fun lun _ => hE.erase _

end WaitGc

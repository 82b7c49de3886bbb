/-
  WAITGC verification — the FTL drives a NAND flash.

  `OnFlash c s f` relates an FTL to a flash `f`: the mapping table leads to the
  cells that hold the last writes of the host, a page is free exactly if its
  cell is erased, and the counters of the FTL count what was done to the flash.

  `FlashAnswers c s hs s'`: a flash in the state `s` describes can be brought to the
  one `s'` describes, by operations it can carry out, with no page of the host
  lost at any moment, while the host did `hs`.  A host write programs one cell
  (`convWriteFtl_answers`), a deallocate none (`discardFtl_answers`), and
  `do_gc` copies cells and erases blocks that no page is mapped to
  (`doGc_answers`).
-/
import WaitGc.Lib.Flash
import WaitGc.Proof.Gc

namespace WaitGc

open Outcome Function Flash

variable {c : Cfg} {s s' s₀ s₁ s₂ : ConvFtl} {pl pl' : ℕ → Place} {f : Chip BlkAddr ℕ} {io : IoType}
  {lpn v : ℕ} {p q : Ppa} {t : Timing} {hs hs' : List (HostOp ℕ)} {E : Fault → Prop}

/-! ## Pages and cells -/

/-- The cell of a page. -/
def Ppa.cell (p : Ppa) : BlkAddr × ℕ := (p.blkAddr, p.pg.toNat)

theorem IsPage.eq_of_cell (hp : IsPage c p) (hq : IsPage c q)
    (h : p.blkAddr = q.blkAddr ∧ p.pg.toNat = q.pg.toNat) : p = q := by
  obtain ⟨hb, hpg⟩ := h
  simp only [Ppa.blkAddr, BlkAddr.mk.injEq] at hb
  exact Ppa.ext' hpg hb.2.2.2 hb.2.2.1 hb.2.1 hb.1 (by rw [hp.2, hq.2])

/-- The mapping table, as a map to the cells. -/
def ConvFtl.cells (c : Cfg) (s : ConvFtl) (lpn : ℕ) : Option (BlkAddr × ℕ) :=
  if lpn < c.sp.ttPgs ∧ mappedPpa (s.maptbl lpn) = true then some (s.maptbl lpn).cell else none

theorem cells_congr (h : s'.maptbl = s.maptbl) : s'.cells c = s.cells c := by
  funext lpn
  rw [ConvFtl.cells, ConvFtl.cells, h]

theorem cells_map (h : s'.maptbl = update s.maptbl lpn p) (hlpn : lpn < c.sp.ttPgs)
    (hp : IsPage c p) : s'.cells c = update (s.cells c) lpn (some p.cell) := by
  funext l
  rw [ConvFtl.cells, h]
  by_cases hl : l = lpn
  · subst hl
    rw [update_self, update_self, if_pos ⟨hlpn, hp.mapped⟩]
  · rw [update_of_ne hl, update_of_ne hl]
    rfl

theorem cells_unmap (h : s'.maptbl = update s.maptbl lpn .unmapped) :
    s'.cells c = update (s.cells c) lpn none := by
  funext l
  rw [ConvFtl.cells, h]
  by_cases hl : l = lpn
  · subst hl
    rw [update_self, update_self, mappedPpa_unmapped, if_neg fun hc => Bool.false_ne_true hc.2]
  · rw [update_of_ne hl, update_of_ne hl]
    rfl

theorem Geometry.ord_lt_ord {g : Geometry} {ch lun pg pg' : ℕ} (hch : ch < g.nchs)
    (hlun : lun < g.lunsPerCh) : g.ord ch lun pg < g.ord ch lun pg' ↔ pg < pg' := by
  have hm (k : ℕ) : k % g.pgsPerOneshotpg < g.pgsPerOneshotpg := Nat.mod_lt _ g.oneshotpg_pos
  have hdigits : pg / g.pgsPerOneshotpg < pg' / g.pgsPerOneshotpg ∨
      pg / g.pgsPerOneshotpg = pg' / g.pgsPerOneshotpg ∧ pg % g.pgsPerOneshotpg < pg' % g.pgsPerOneshotpg ↔
        pg < pg' := by
    rw [← Radix.pair_lt_pair_iff (hm pg) (hm pg'), Nat.div_add_mod', Nat.div_add_mod']
  rw [ord, ord, Radix.pair_lt_pair_iff (hm pg) (hm pg'), Radix.pair_lt_pair_iff hch hch,
    Radix.pair_lt_pair_iff hlun hlun, ← hdigits]
  simp only [Nat.lt_irrefl, and_false, or_false]
  refine or_congr_right (and_congr_left fun _ => ⟨fun he => ?_, fun he => by rw [he]⟩)
  exact (Radix.pair_inj hlun hlun (Radix.pair_inj hch hch he).1).1

/-! ## The relation -/

/-- The FTL describes the flash. -/
structure OnFlash (c : Cfg) (s : ConvFtl) (f : Chip BlkAddr ℕ) : Prop where
  holds : f.Holds c.sp.pgsPerBlk (s.cells c)
  free : ∀ q, IsPage c q → (f.cell q.blkAddr q.pg.toNat = none ↔ pageSt s.blk q = .free)
  writes : f.disk.writes = s.stats.hostWritePages
  copies : f.copies = s.stats.gcValidCopied
  erases : ∀ b, f.erases b = (s.blk b).eraseCnt

/-- The flash follows the FTL from `s` to `s'` while the host does `hs`. -/
def FlashAnswers (c : Cfg) (s : ConvFtl) (hs : List (HostOp ℕ)) (s' : ConvFtl) : Prop :=
  ∀ f, OnFlash c s f → ∃ f', f.Runs c.sp.pgsPerBlk hs f' ∧ OnFlash c s' f'

theorem OnFlash.congr (h : OnFlash c s f) (hm : s'.maptbl = s.maptbl)
    (hfree : ∀ q, pageSt s'.blk q = .free ↔ pageSt s.blk q = .free)
    (he : ∀ b, (s'.blk b).eraseCnt = (s.blk b).eraseCnt)
    (hw : s'.stats.hostWritePages = s.stats.hostWritePages)
    (hc : s'.stats.gcValidCopied = s.stats.gcValidCopied) : OnFlash c s' f where
  holds := by rw [cells_congr hm]; exact h.holds
  free q hq := (h.free q hq).trans (hfree q).symm
  writes := h.writes.trans hw.symm
  copies := h.copies.trans hc.symm
  erases b := (h.erases b).trans (he b).symm

theorem FlashAnswers.trans (h : FlashAnswers c s₀ hs s₁) (h' : FlashAnswers c s₁ hs' s₂) :
    FlashAnswers c s₀ (hs ++ hs') s₂ := by
  intro f hf
  obtain ⟨f₁, hruns, hf₁⟩ := h f hf
  obtain ⟨f₂, hruns', hf₂⟩ := h' f₁ hf₁
  exact ⟨f₂, hruns.trans hruns', hf₂⟩

/-- The flash stays as it is. -/
theorem FlashAnswers.keep (hm : s'.maptbl = s.maptbl)
    (hfree : ∀ q, pageSt s'.blk q = .free ↔ pageSt s.blk q = .free)
    (he : ∀ b, (s'.blk b).eraseCnt = (s.blk b).eraseCnt)
    (hw : s'.stats.hostWritePages = s.stats.hostWritePages)
    (hc : s'.stats.gcValidCopied = s.stats.gcValidCopied) : FlashAnswers c s [] s' :=
  fun f hf => ⟨f, .refl _ f, hf.congr hm hfree he hw hc⟩

theorem FlashAnswers.refl (c : Cfg) (s : ConvFtl) : FlashAnswers c s [] s :=
  .keep rfl (fun _ => Iff.rfl) (fun _ => rfl) rfl rfl

theorem FlashAnswers.single (op : Op BlkAddr ℕ)
    (h : ∀ f, OnFlash c s f → f.Legal c.sp.pgsPerBlk op ∧ OnFlash c s' (f.apply op)) :
    FlashAnswers c s op.host.toList s' := by
  intro f hf
  obtain ⟨hl, hf'⟩ := h f hf
  exact ⟨f.apply op, .single hl hf'.holds.durable, hf'⟩

/-! ## Programming -/

/-- **The write pointer is at the next cell of its block.** -/
theorem OnFlash.next (h : OnFlash c s f) (hphys : Phys c s pl (posOf c s)) (io : IoType) :
    f.Next c.sp.pgsPerBlk (s.getWp io).page.blkAddr (s.getWp io).page.pg.toNat := by
  obtain ⟨hp, hopen, -⟩ := hphys.newPage io
  have hord := (hphys.wp_ok io).isPage.2.2
  generalize (s.getWp io).page = p at hp hopen hord
  refine ⟨hp.inLine.pg_lt, fun j hj => ?_⟩
  have hin : c.geo.InLine p.ch.toNat p.lun.toNat j := ⟨hp.inLine.ch_lt, hp.inLine.lun_lt, hj⟩
  obtain ⟨h₁, h₂, h₃, h₄⟩ := store_fields hin hp.line_lt
  obtain ⟨hq, hl, ho⟩ := isPage_store hin hp.line_lt
  generalize hqe : Ppa.store p.ch.toNat p.lun.toNat 0 p.line j = q at h₁ h₂ h₃ h₄ hq hl ho
  have hblk : q.blkAddr = p.blkAddr := by
    rw [Ppa.blkAddr, Ppa.blkAddr, h₁, h₂, h₃, hq.pl_eq, hp.pl_eq]
    rfl
  have hpg := hphys.pages p.line hp.line_lt
  rw [hopen] at hpg
  have hk := hpg (q.ord c) hq.ord_lt
  rw [← hl, hq.lineSt_eq, posOf, ← hord, ho, Ppa.ord,
    Geometry.ord_lt_ord hp.inLine.ch_lt hp.inLine.lun_lt] at hk
  have hf := h.free q hq
  rw [hblk, h₄] at hf
  rw [hf]
  constructor
  · intro hfree
    exact Nat.le_of_not_lt fun hlt => hk.2 hlt hfree
  · intro hle
    by_contra hne
    exact absurd (hk.1 hne) (Nat.not_lt.2 hle)

/-- The free pages after one was programmed. -/
theorem OnFlash.free_program {x : Option (ℕ × ℕ)} (h : OnFlash c s f) (hp : IsPage c p) (hx : x ≠ none)
    (hst : ∀ q, IsPage c q → pageSt s'.blk q = if q = p then .valid else pageSt s.blk q)
    (hq : IsPage c q) : update f.cell p.blkAddr (update (f.cell p.blkAddr) p.pg.toNat x) q.blkAddr
      q.pg.toNat = none ↔ pageSt s'.blk q = .free := by
  rw [hst q hq]
  by_cases hqp : q = p
  · subst hqp
    rw [update_self, update_self, if_pos rfl]
    exact iff_of_false hx (by simp)
  · rw [Chip.update_cell fun hc => hqp (hq.eq_of_cell hp hc), if_neg hqp]
    exact h.free q hq

/-- **A page of the host is programmed.** -/
theorem Wrote.answers_host (h : Wrote c .userIo lpn GcStats.countHost s pl p s' pl')
    (hphys : Phys c s pl (posOf c s)) (hlpn : lpn < c.sp.ttPgs) : FlashAnswers c s [.write lpn] s' := by
  obtain ⟨hp, -, -⟩ := hphys.newPage .userIo
  rw [← h.page] at hp
  refine .single (.write lpn p.blkAddr p.pg.toNat) fun f hf => ?_
  have hnext := hf.next hphys .userIo
  rw [← h.page] at hnext
  refine ⟨hnext, ?_, fun q hq => ?_, ?_, ?_, fun b => ?_⟩
  · rw [cells_map h.maptbl hlpn hp]
    exact hf.holds.write hnext
  · exact hf.free_program hp (by simp) h.status hq
  · rw [h.stats]
    exact congrArg (· + 1) hf.writes
  · rw [h.stats]
    exact hf.copies
  · rw [h.erase b]
    exact hf.erases b

/-- **A page is copied** by the garbage collector. -/
theorem Wrote.answers_gc (h : Wrote c .gcIo lpn GcStats.countCopy s pl p s' pl')
    (hphys : Phys c s pl (posOf c s)) (hlpn : lpn < c.sp.ttPgs) (hq : IsPage c q)
    (hown : s.maptbl lpn = q) : FlashAnswers c s [] s' := by
  obtain ⟨hp, -, -⟩ := hphys.newPage .gcIo
  rw [← h.page] at hp
  refine .single (.copy q.blkAddr q.pg.toNat p.blkAddr p.pg.toNat) fun f hf => ?_
  have hnext := hf.next hphys .gcIo
  rw [← h.page] at hnext
  have hcell : s.cells c lpn = some q.cell := by
    rw [ConvFtl.cells, hown, if_pos ⟨hlpn, hq.mapped⟩]
  obtain ⟨hk, x, -, hx⟩ := hf.holds.found lpn _ _ hcell
  have hne : f.cell q.blkAddr q.pg.toNat ≠ none := by rw [hx]; simp
  refine ⟨⟨hnext, hk, hne⟩, ?_, fun r hr => ?_, ?_, ?_, fun b => ?_⟩
  · rw [cells_map h.maptbl hlpn hp]
    exact hf.holds.copy hcell hnext
  · exact hf.free_program hp hne h.status hr
  · rw [h.stats]
    exact hf.writes
  · rw [h.stats]
    exact congrArg (· + 1) hf.copies
  · rw [h.erase b]
    exact hf.erases b

/-! ## Host writes and deallocates -/

/-- Invalidating a page programs and erases nothing. -/
theorem markPageInvalid_free (s : ConvFtl) (p : Ppa) :
    Yields (fun s' => (∀ q, pageSt s'.blk q = .free ↔ pageSt s.blk q = .free) ∧
      s'.maptbl = s.maptbl ∧ s'.stats = s.stats ∧ ∀ b, (s'.blk b).eraseCnt = (s.blk b).eraseCnt)
      (markPageInvalid c s p) := by
  unfold markPageInvalid invalidateBlk
  simp only [bind_assoc, pure_bind]
  refine yields_require fun hvalid => yields_require fun _ => yields_require fun _ => ?_
  refine Sat.bind (Q := fun _ => True) (yields_iff.2 fun _ _ => trivial) fun lm _ => ?_
  refine ⟨fun q => ?_, rfl, rfl, fun b => ?_⟩
  · dsimp only [pageSt]
    by_cases hb : q.blkAddr = p.blkAddr
    · rw [hb, update_self]
      dsimp only
      by_cases hpg : q.pg.toNat = p.pg.toNat
      · rw [hpg, update_self, hvalid]
        simp
      · rw [update_of_ne hpg]
    · rw [update_of_ne hb]
  · dsimp only
    by_cases hb : b = p.blkAddr
    · subst hb
      rw [update_self]
    · rw [update_of_ne hb]

theorem invalidateOldPage_answers (s : ConvFtl) (p : Ppa) :
    Yields (FlashAnswers c s []) (invalidateOldPage c s p) := by
  unfold invalidateOldPage setRmapEnt
  refine (markPageInvalid_free s p).bind ?_
  rintro s₁ ⟨hfree, hm, hst, he⟩
  refine Sat.bind (Q := fun _ => True) (yields_iff.2 fun _ _ => trivial) fun idx _ => ?_
  exact .keep hm hfree he (by rw [hst]) (by rw [hst])

/-- **A host write** programs one cell. -/
theorem convWriteFtl_answers (h : FtlOk c s pl) (hlpn : lpn < c.sp.ttPgs) (nsecs : ℕ) :
    Yields (fun r => FlashAnswers c s [.write lpn] (consumeWriteCredit r.2)) (convWriteFtl c s lpn nsecs) := by
  obtain ⟨s₀, hs₀⟩ : ∃ s₀ : ConvFtl, s₀ = { s with curNsecs := nsecs } := ⟨_, rfl⟩
  have h₀ : FtlOk c s₀ pl := by
    rw [hs₀]
    exact h.congr rfl rfl rfl rfl rfl rfl
  have hkeep : FlashAnswers c s [] s₀ := by
    rw [hs₀]
    exact .keep rfl (fun _ => Iff.rfl) (fun _ => rfl) rfl rfl
  -- the state the new page is taken from
  obtain ⟨s₁, pl₁, he, hold, hphys⟩ : ∃ s₁ pl₁,
      convWriteFtl c s lpn nsecs = writeNewPage c s₁ .userIo lpn GcStats.countHost ∧
      FlashAnswers c s₀ [] s₁ ∧ Phys c s₁ pl₁ (posOf c s₁) := by
    rw [convWriteFtl_eq, ← hs₀, show s.maptbl = s₀.maptbl by rw [hs₀]]
    by_cases hm : mappedPpa (s₀.maptbl lpn) = true
    · rw [if_pos hm]
      have hline := (h₀.map.image lpn hlpn hm).1.line_lt
      obtain ⟨s₁, pl₁, he, -, -, -, -, -, hphys, -⟩ :=
        invalidateOldPage_ok h₀.phys h₀.map hlpn hm (h₀.settled _ hline)
      exact ⟨s₁, pl₁, by rw [he, ok_bind], (invalidateOldPage_answers s₀ _).of_ok he, hphys⟩
    · rw [if_neg hm]
      exact ⟨s₀, pl, rfl, .refl c s₀, h₀.phys⟩
  rw [he]
  refine (writeNewPage_wrote hphys hlpn .userIo GcStats.countHost).to_yields.mono (fun _ he => he) ?_
  rintro ⟨p, s'⟩ ⟨pl', hw⟩
  have hcredit : FlashAnswers c s' [] (consumeWriteCredit s') := by
    obtain ⟨wfc, hwfc⟩ : ∃ wfc, consumeWriteCredit s' = { s' with wfc := wfc } := ⟨_, rfl⟩
    rw [hwfc]
    exact .keep rfl (fun _ => Iff.rfl) (fun _ => rfl) rfl rfl
  exact ((hkeep.trans hold).trans (hw.answers_host hphys hlpn)).trans hcredit

/-- **A deallocate** drops a page of the host. -/
theorem discardFtl_answers (h : FtlOk c s pl) (hlpn : lpn < c.sp.ttPgs) (now : ℕ) :
    Yields (FlashAnswers c s [.trim lpn]) (discardFtl c s lpn now) := by
  -- the flash has no part in it
  have htrim (s' : ConvFtl) (hcells : s'.cells c = update (s.cells c) lpn none)
      (hfree : ∀ q, pageSt s'.blk q = .free ↔ pageSt s.blk q = .free)
      (he : ∀ b, (s'.blk b).eraseCnt = (s.blk b).eraseCnt) (hst : s'.stats = s.stats) :
      FlashAnswers c s [.trim lpn] s' := by
    refine .single (.trim lpn) fun f hf => ⟨trivial, ?_, fun q hq => ?_, ?_, ?_, fun b => ?_⟩
    · rw [hcells]
      exact hf.holds.trim
    · rw [hfree q]
      exact hf.free q hq
    · rw [hst]
      exact hf.writes
    · rw [hst]
      exact hf.copies
    · rw [he b]
      exact hf.erases b
  unfold discardFtl
  dsimp only
  by_cases hm : mappedPpa (s.maptbl lpn) = true
  · obtain ⟨hp, -⟩ := h.map.image lpn hlpn hm
    rw [if_neg (by simp [hm, hp.1])]
    unfold invalidateOldPage setRmapEnt
    simp only [bind_assoc, pure_bind]
    refine (markPageInvalid_free _ _).bind ?_
    rintro s₁ ⟨hfree, hm₁, hst, he⟩
    refine Sat.bind (Q := fun _ => True) (yields_iff.2 fun _ _ => trivial) fun idx _ => ?_
    refine htrim _ (cells_unmap ?_) hfree he hst
    exact congrArg (fun m => update m lpn Ppa.unmapped) hm₁
  · rw [if_pos (by simp [hm])]
    refine htrim s ?_ (fun _ => Iff.rfl) (fun _ => rfl) rfl
    have hnone : s.cells c lpn = none := by
      rw [ConvFtl.cells, if_neg fun hc => hm hc.2]
    rw [← hnone, update_eq_self]

/-! ## Garbage collection -/

/-- **A block is erased** that no page is mapped to. -/
theorem markBlockFree_answers (hp : ∀ l < c.sp.ttPgs, mappedPpa (s.maptbl l) = true →
    (s.maptbl l).blkAddr ≠ p.blkAddr) : FlashAnswers c s [] (markBlockFree c s p) := by
  refine .single (.erase p.blkAddr) fun f hf => ⟨trivial, ?_, fun q hq => ?_, hf.writes,
    hf.copies, fun b => ?_⟩
  · change (f.apply (.erase p.blkAddr)).Holds c.sp.pgsPerBlk (s.cells c)
    refine hf.holds.erase fun l k hl => ?_
    unfold ConvFtl.cells at hl
    split_ifs at hl with hm
    exact hp l hm.1 hm.2 (congrArg Prod.fst (Option.some.inj hl))
  · rw [pageSt_markBlockFree hq]
    change update f.cell p.blkAddr _ q.blkAddr q.pg.toNat = none ↔ _
    by_cases hb : q.blkAddr = p.blkAddr
    · rw [hb, update_self, if_pos rfl]
      exact iff_of_true rfl rfl
    · rw [update_of_ne hb, if_neg hb]
      exact hf.free q hq
  · change update f.erases p.blkAddr _ b = _
    dsimp only [markBlockFree]
    by_cases hb : b = p.blkAddr
    · subst hb
      rw [update_self, update_self, hf.erases]
    · rw [update_of_ne hb, update_of_ne hb, hf.erases]

variable {done : List Ppa} {erased : List BlkAddr}

/-- A copy of `do_gc`, seen from the flash. -/
theorem GcInv.copy_answers (h : GcInv c s₀ v done erased s) (hq : IsPage c q) (hd : q ∉ done)
    (hs : pageSt s.blk q = .valid) : Yields (fun r => FlashAnswers c s [] r.1) (gcWritePage c s t q) := by
  obtain ⟨pl, hphys, -⟩ := h.phys
  obtain ⟨hlpn, hown⟩ := h.map.owner hq hs hd
  unfold gcWritePage getRmapEnt
  rw [ppa2pgidx_ok hq, ok_bind, pure_bind, nvmevAssert_pos (show validLpn c.sp _ from hlpn), ok_bind]
  refine (writeNewPage_wrote hphys hlpn .gcIo GcStats.countCopy).to_yields.bind ?_
  rintro ⟨p, s'⟩ ⟨pl', hw⟩
  have hans : FlashAnswers c s [] s' := hw.answers_gc hphys hlpn hq hown
  dsimp only
  split_ifs
  · exact hans
  · exact hans
  · exact hans

/-- No page is mapped to a block whose pages were all visited. -/
theorem GcInv.erase_answers (h : GcInv c s₀ v done erased s)
    (hdone : ∀ q, IsPage c q → q.blkAddr = p.blkAddr → q ∈ done) :
    FlashAnswers c s [] (markBlockFree c s p) := by
  refine markBlockFree_answers fun l hl hm hb => ?_
  obtain ⟨hp, -, hstale, -⟩ := h.map.image l hl hm
  exact hstale (hdone _ hp hb)

/-- `copy_page` visits a page. -/
theorem GcInv.visitPage_answers (h : GcInv c s₀ v done erased s) (hq : IsPage c q) (hl : q.line = v)
    (hd : q ∉ done) (he : q.blkAddr ∉ erased) :
    Yields (fun r => GcInv c s₀ v (done ++ [q]) erased r.1 ∧ FlashAnswers c s [] r.1)
      (copyPage c (s, t) q) := by
  refine (h.visitPage hq hl hd he).to_yields.and ?_
  unfold copyPage
  by_cases hs : s.status q = .valid
  · rw [if_pos hs]
    exact h.copy_answers hq hd hs
  · rw [if_neg hs]
    exact .refl c s

/-- `clean_one_flashpg` visits the pages of a flash page. -/
theorem GcInv.visitFlashpg_answers (h : GcInv c s₀ v done erased s)
    (hpage : ∀ q ∈ flashpgPages c p, IsPage c q ∧ q.line = v ∧ q.blkAddr ∉ erased)
    (hnd : (done ++ flashpgPages c p).Nodup) :
    Yields (fun r => FlashAnswers c s [] r.1) (cleanOneFlashpg c s t p) := by
  unfold cleanOneFlashpg
  generalize flashpgPages c p = pages at hpage hnd
  have hloop (t : Timing) : Yields
      (fun r => GcInv c s₀ v (done ++ pages) erased r.1 ∧ FlashAnswers c s [] r.1)
      (pages.foldlM (copyPage c) (s, t)) := by
    refine sat_foldlM (fun pre (st : ConvFtl × Timing) =>
      GcInv c s₀ v (done ++ pre) erased st.1 ∧ FlashAnswers c s [] st.1) pages ?_ ?_
    · rintro pre q post st hl ⟨hI, hans⟩
      obtain ⟨hp, hlq, he⟩ := hpage q (by rw [hl]; simp)
      have hd : q ∉ done ++ pre := by
        rw [hl, ← List.append_assoc] at hnd
        exact fun hm => (List.nodup_append.1 hnd).2.2 q hm q List.mem_cons_self rfl
      rw [← List.append_assoc]
      refine (hI.visitPage_answers hp hlq hd he).mono (fun _ h => h) ?_
      rintro r ⟨hI', hans'⟩
      exact ⟨hI', hans.trans hans'⟩
    · rw [List.append_nil]
      exact ⟨h, .refl c s⟩
  refine Sat.bind (Q := fun _ => True) (yields_iff.2 fun _ _ => trivial) fun n _ => ?_
  split_ifs
  · exact .refl c s
  · exact (hloop _).mono (fun _ h => h) fun _ hr => hr.2
  · exact (hloop _).mono (fun _ h => h) fun _ hr => hr.2

/-- A position is visited. -/
theorem GcInv.visit_answers {pre post : List (ℕ × ℕ × ℕ)} {k : ℕ × ℕ × ℕ} {st : ConvFtl × Timing}
    (h : GcInv c s₀ v (pre.flatMap (gcPages c v)) (erasedAt c v pre) st.1)
    (hv : v < c.sp.blksPerPl) (he : gcPositions c = pre ++ k :: post)
    (hfree : ∀ q, IsPage c q → q.line = v → pageSt s₀.blk q ≠ .free) :
    Yields (fun r => FlashAnswers c st.1 [] r.1) (gcVisit c v st k) := by
  have hk : k ∈ gcPositions c := by rw [he]; simp
  obtain ⟨hf, hch, hlun⟩ := mem_gcPositions.1 hk
  have hin : c.geo.InLine k.2.1 k.2.2 (k.1 * c.sp.pgsPerFlashpg) :=
    ⟨hch, hlun, flashpg_lt hf flashpgsPerBlk_pos.2⟩
  obtain ⟨hp, hl, -⟩ := isPage_store hin hv
  have hpage : ∀ q ∈ gcPages c v k, IsPage c q ∧ q.line = v ∧ q.blkAddr ∉ erasedAt c v pre := by
    intro q hq
    obtain ⟨hqp, hql, -⟩ := (mem_gcPages hv hk).1 hq
    exact ⟨hqp, hql, notMem_erasedAt hv he hq⟩
  have hflat : (pre ++ [k]).flatMap (gcPages c v) = pre.flatMap (gcPages c v) ++ gcPages c v k := by
    rw [List.flatMap_append, List.flatMap_singleton]
  have hnd : (pre.flatMap (gcPages c v) ++ gcPages c v k).Nodup := by
    have hall := nodup_allGcPages (c := c) hv
    rw [allGcPages, he, List.append_cons, List.flatMap_append, hflat] at hall
    exact (List.nodup_append.1 hall).1
  have hfree' : ∀ q ∈ gcPages c v k, pageSt s₀.blk q ≠ .free := fun q hq =>
    hfree q (hpage q hq).1 (hpage q hq).2.1
  unfold gcVisit
  refine Sat.bind ((h.visitFlashpg (t := st.2) _ hpage hnd hfree').to_yields.and
    (h.visitFlashpg_answers hpage hnd)) ?_
  rintro ⟨s₁, t₁⟩ ⟨h₁, hans⟩
  change GcInv c s₀ v (pre.flatMap (gcPages c v) ++ gcPages c v k) (erasedAt c v pre) s₁ at h₁
  change FlashAnswers c st.1 [] s₁ at hans
  rw [← hflat] at h₁
  have herase (hlast : k.1 = c.sp.flashpgsPerBlk - 1) : FlashAnswers c st.1 []
      (markBlockFree c s₁ (.store k.2.1 k.2.2 0 v (k.1 * c.sp.pgsPerFlashpg))) := by
    refine hans.trans (h₁.erase_answers fun q hq hb => ?_)
    obtain ⟨h₁, h₂, h₃, -⟩ := store_fields hin hv
    rw [Ppa.blkAddr, Ppa.blkAddr, h₁, h₂, h₃, BlkAddr.mk.injEq] at hb
    exact mem_visited hv he hlast hq hb.2.2.2 hb.1 hb.2.1
  dsimp only
  split_ifs with hlast
  · exact herase hlast
  · exact herase hlast
  · exact hans

/-- **The loops of `do_gc`.** -/
theorem GcInv.loops_answers (h : GcInv c s₀ v [] [] s₀) (hv : v < c.sp.blksPerPl)
    (hfree : ∀ q, IsPage c q → q.line = v → pageSt s₀.blk q ≠ .free) (t : Timing) :
    Yields (fun r => FlashAnswers c s₀ [] r.1) ((gcPositions c).foldlM (gcVisit c v) (s₀, t)) := by
  refine (sat_foldlM (E := fun _ => True) (fun pre (st : ConvFtl × Timing) =>
    GcInv c s₀ v (pre.flatMap (gcPages c v)) (erasedAt c v pre) st.1 ∧ FlashAnswers c s₀ [] st.1) _ ?_
    ?_).mono (fun _ h => h) fun _ hr => hr.2
  · rintro pre k post st he ⟨hI, hans⟩
    refine ((hI.visit hv he hfree).to_yields.and (hI.visit_answers hv he hfree)).mono (fun _ h => h) ?_
    rintro r ⟨hI', hans'⟩
    exact ⟨hI', hans.trans hans'⟩
  · exact And.intro (by exact h) (.refl c s₀)

/-- **`do_gc` on the victim.** -/
theorem collectLine_answers (h : FtlOk c s pl) (hT : Taken c s pl v s₁) (t : Timing) (force : Bool) :
    Yields (fun r => FlashAnswers c s [] r.1) (collectLine c s₁ t force v) := by
  obtain ⟨hm₁, hr₁, hb₁, hw₁, hg₁, -, -, -⟩ := hT.selecting.ftl
  have hwaf₁ := hT.selecting.waf
  unfold collectLine
  have hs := isotonicCensorSelected_sampled (c := c) s₁ v
  have hphys₂ := hs.phys hT.phys
  generalize isotonicCensorSelected c s₁ v = s₂ at hs hphys₂
  obtain ⟨-, hb₂, hw₂, hg₂, -⟩ := hs.ftl
  obtain ⟨hm₂, hr₂, -, -, -, hwaf₂⟩ := hs.ftl'
  have hid : (s₂.lm.lines v).id = v := hphys₂.shelved.id_eq v hT.lt
  dsimp only
  rw [hid]
  -- the state the loops start from
  obtain ⟨s₃, hs₃⟩ : ∃ s₃ : ConvFtl, s₃ = { s₂ with
    stats := s₂.stats.countGc force (s₂.lm.lines v).vpc
    wfc := { s₂.wfc with creditsToRefill := u32 (s₂.lm.lines v).ipc } } := ⟨_, rfl⟩
  rw [← hs₃]
  have hm₃ : s₃.maptbl = s.maptbl := by rw [hs₃, ← hm₁, ← hm₂]
  have hr₃ : s₃.rmap = s.rmap := by rw [hs₃, ← hr₁, ← hr₂]
  have hb₃ : s₃.blk = s.blk := by rw [hs₃, ← hb₁, ← hb₂]
  have hpos₃ : posOf c s₃ = posOf c s₁ := by
    refine posOf_congr ?_ ?_
    · rw [hs₃, ← hw₂]
    · rw [hs₃, ← hg₂]
  have hphys₃ : Phys c s₃ (update pl v .gone) (posOf c s₃) := by
    rw [hpos₃]
    refine hphys₂.congr (by rw [hs₃]) (by rw [hs₃]) fun io => ?_
    rw [hs₃]
    exact ConvFtl.getWp_congr rfl rfl io
  have hstart : GcInv c s₃ v [] [] s₃ := by
    refine .start hphys₃ h.settled ?_
    rw [hm₃, hr₃, hb₃]
    exact h.map
  have hpages := h.phys.pages v hT.lt
  rw [hT.place] at hpages
  have hne : ∀ q, IsPage c q → q.line = v → pageSt s₃.blk q ≠ .free := by
    rintro q hq rfl
    rw [hb₃, ← hq.lineSt_eq]
    exact hpages.1 _ hq.ord_lt
  have hselect : FlashAnswers c s [] s₃ := by
    have hwaf := hwaf₂.trans hwaf₁
    simp only [GcStats.waf, Prod.mk.injEq] at hwaf
    refine .keep hm₃ (fun q => by rw [hb₃]) (fun b => by rw [hb₃]) ?_ ?_
    · rw [hs₃]
      exact hwaf.2.2.1
    · rw [hs₃]
      exact hwaf.2.1
  refine (hstart.loops_answers hT.lt hne t).bind ?_
  rintro ⟨s₄, t₄⟩ hans
  have hfree : FlashAnswers c s₄ [] (markLineFree s₄ (.store 0 0 0 v 0)) :=
    .keep rfl (fun _ => Iff.rfl) (fun _ => rfl) rfl rfl
  exact (hselect.trans hans).trans hfree

/-- **`do_gc`.** -/
theorem doGc_answers {force : Bool} (h : FtlOk c s pl) (hsel : Selects c s pl E force) (t : Timing) :
    Yields (fun r => FlashAnswers c s [] r.2.1) (doGc c s t force) := by
  unfold doGc
  refine Sat.bind (Sat.to_yields hsel) ?_
  rintro ⟨_ | v, s₁⟩ ⟨hs, htaken⟩
  · obtain ⟨rfl, -⟩ := hs
    exact .refl c s₁
  · refine (collectLine_answers h (htaken v rfl) t force).bind ?_
    rintro ⟨s', t'⟩ hans
    exact hans

/-- **The check of the credits.** -/
theorem checkAndRefill_answers (h : FtlOk c s pl) (hsel : GcDue c s → Selects c s pl E true) (t : Timing) :
    Yields (fun r => FlashAnswers c s [] r.1) (checkAndRefillWriteCredit c s t) := by
  have hrefill (s : ConvFtl) : FlashAnswers c s [] s.refill :=
    .keep rfl (fun _ => Iff.rfl) (fun _ => rfl) rfl rfl
  rw [checkAndRefill_eq]
  split_ifs with h0 hlow
  · refine Sat.map_ok (doGc_answers h (hsel ⟨h0, hlow⟩) t) fun r hans => ?_
    exact hans.trans (hrefill _)
  · exact hrefill s
  · exact .refl c s

end WaitGc

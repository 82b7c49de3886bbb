/-
  WAITGC verification — writing and unmapping a logical page.

  `Wrote` says what `writeNewPage` does, for host and GC writes alike.
  `FtlOk` is the invariant of an FTL between two steps of the dispatcher: the
  physical side, no line on its way, and the mapping tables with no stale page.
  Host writes (`convWriteFtl_ok`) and unmapping (`invalidateOldPage_ok`) keep
  it.
-/
import WaitGc.Ftl.Commands
import WaitGc.Proof.Frame
import WaitGc.Proof.Mapping

namespace WaitGc

open Outcome Function

variable {c : Cfg} {s s' : ConvFtl} {pl pl' : ℕ → Place} {io : IoType} {lpn : ℕ}
  {count : GcStats → GcStats} {p : Ppa} {stale : Ppa → Prop}

/-! ## Writing one page -/

/-- The pages that `io` can still write: the rest of its line and the free
    lines. -/
def openRoom (c : Cfg) (s : ConvFtl) (io : IoType) : ℕ :=
  s.lm.freeLineCnt * c.sp.pgsPerLine + (c.sp.pgsPerLine - posOf c s io)

theorem posOf_lt {pos : IoType → ℕ} (h : Phys c s pl pos) (io : IoType) :
    posOf c s io < c.sp.pgsPerLine := (h.wp_ok io).ord_lt

theorem posOf_congr (hwp : s'.wp = s.wp) (hgc : s'.gcWp = s.gcWp) : posOf c s' = posOf c s := by
  funext io; rw [posOf, posOf, ConvFtl.getWp_congr hwp hgc]

theorem Phys.newPage (h : Phys c s pl (posOf c s)) (io : IoType) :
    IsPage c (s.getWp io).page ∧ pl (s.getWp io).page.line = .opened io ∧
      pageSt s.blk (s.getWp io).page = .free := by
  obtain ⟨hp, hl, ho⟩ := (h.wp_ok io).isPage
  have hx : pl (s.getWp io).page.line = .opened io := by
    rw [hl]; exact (h.opened io _ (h.wp_ok io).lt).2 rfl
  refine ⟨hp, hx, ?_⟩
  have hpg := h.pages _ hp.line_lt
  rw [hx] at hpg
  have hk := hpg _ hp.ord_lt
  rw [hp.lineSt_eq, ho, posOf] at hk
  by_contra hne
  exact absurd (hk.1 hne) (Nat.lt_irrefl _)

/-- What writing page `p` for `lpn` does. -/
structure Wrote (c : Cfg) (io : IoType) (lpn : ℕ) (count : GcStats → GcStats) (s : ConvFtl)
    (pl : ℕ → Place) (p : Ppa) (s' : ConvFtl) (pl' : ℕ → Place) : Prop where
  page : p = (s.getWp io).page
  maptbl : s'.maptbl = update s.maptbl lpn p
  rmap : s'.rmap = update s.rmap (p.pgidx c.sp) lpn
  stats : s'.stats = count s.stats
  wfc : s'.wfc = s.wfc
  erase : ∀ b, (s'.blk b).eraseCnt = (s.blk b).eraseCnt
  other : ∀ io' ≠ io, s'.getWp io' = s.getWp io'
  status : ∀ q, IsPage c q → pageSt s'.blk q = if q = p then .valid else pageSt s.blk q
  phys : Phys c s' pl' (posOf c s')
  moved : Moved io pl pl'
  room : openRoom c s' io + 1 = openRoom c s io
  free : s'.lm.freeLineList <:+ s.lm.freeLineList

/-- **A page is written**: the only way it can fail is that the line is used up
    and no line is free. -/
theorem writeNewPage_wrote (h : Phys c s pl (posOf c s)) (hlpn : lpn < c.sp.ttPgs) (io : IoType)
    (count : GcStats → GcStats) :
    Sat (fun e => e = .noFreeLine ∧ openRoom c s io = 1)
      (fun r => ∃ pl', Wrote c io lpn count s pl r.1 r.2 pl')
      (writeNewPage c s io lpn count) := by
  obtain ⟨hp, hx, hs⟩ := h.newPage io
  have ho := (h.wp_ok io).isPage.2.2
  have hlt := posOf_lt h io
  unfold writeNewPage
  rw [getNewPage_ok (h.wp_ok io), ok_bind]
  generalize hpe : (s.getWp io).page = p at *
  unfold setMaptblEnt setRmapEnt
  rw [nvmevAssert_pos hlpn, ok_bind, pure_bind, ppa2pgidx_ok hp, ok_bind, pure_bind]
  -- the tables are written
  obtain ⟨s₁, hs₁⟩ : ∃ s₁ : ConvFtl, s₁ = { s with
    maptbl := update s.maptbl lpn p, rmap := update s.rmap (p.pgidx c.sp) lpn } := ⟨_, rfl⟩
  have hw₁ (io : IoType) : s₁.getWp io = s.getWp io := by
    rw [hs₁]; exact ConvFtl.getWp_congr rfl rfl io
  have hphys₁ : Phys c s₁ pl (posOf c s) := h.congr (by rw [hs₁]) (by rw [hs₁]) hw₁
  obtain ⟨s₂, he, hset, hphys₂⟩ := markPageValid_phys hphys₁ hp (by rw [hs₁]; exact hs) hx ho.symm
  rw [← hs₁, he, ok_bind]
  -- the page is programmed and counted
  obtain ⟨s₃, hs₃⟩ : ∃ s₃ : ConvFtl, s₃ = { s₂ with stats := count s₂.stats } := ⟨_, rfl⟩
  have hw₃ (io : IoType) : s₃.getWp io = s.getWp io := by
    rw [hs₃, ← hw₁, hset.frame]; exact ConvFtl.getWp_congr rfl rfl io
  have hphys₃ : Phys c s₃ pl (update (posOf c s) io (posOf c s io + 1)) :=
    hphys₂.congr (by rw [hs₃]) (by rw [hs₃]) fun io => by
      rw [hs₃]; exact ConvFtl.getWp_congr rfl rfl io
  have hfree : s₃.lm.freeLineList = s.lm.freeLineList := by rw [hs₃, hset.free, hs₁]
  have hcnt : s₃.lm.freeLineCnt = s.lm.freeLineCnt := by
    rw [hphys₃.shelved.freeCnt, hfree, h.shelved.freeCnt]
  rw [← hs₃]
  -- the write pointer advances
  refine Sat.bind ((advanceWritePointer_phys hphys₃ (by rw [update_self, hw₃]; rfl)).mono
    (fun e he => ⟨he.1, ?_⟩) fun s' hs' => hs') fun s' hs' => ?_
  · obtain ⟨-, hnil, hfull⟩ := he
    rw [update_self] at hfull
    rw [openRoom, ← hcnt, hphys₃.shelved.freeCnt, hnil, ← hfull]
    simp
  · obtain ⟨pl', hframe, hother, hphys', hmoved, hroom, hsuf⟩ := hs'
    have hpos' : update (update (posOf c s) io (posOf c s io + 1)) io (posOf c s' io) =
        posOf c s' := by
      funext io'
      by_cases hio : io' = io
      · subst hio; rw [update_self]
      · rw [update_of_ne hio, update_of_ne hio, posOf, posOf, hother io' hio, hw₃]
    rw [hpos'] at hphys'
    rw [update_self, hcnt] at hroom
    exact ⟨pl', hpe.symm, by rw [hframe, hs₃, hset.frame, hs₁], by rw [hframe, hs₃, hset.frame, hs₁],
      by rw [hframe, hs₃, hset.frame, hs₁], by rw [hframe, hs₃, hset.frame, hs₁],
      fun b => by rw [hframe, hs₃, hset.erase, hs₁], fun io' hio => by rw [hother io' hio, hw₃],
      fun q hq => by rw [hframe, hs₃, hset.status q hq, hs₁], hphys', hmoved,
      by rw [openRoom, openRoom, hroom]; omega, hfree ▸ hsuf⟩

theorem Wrote.mapOk (h : Wrote c io lpn count s pl p s' pl') (hphys : Phys c s pl (posOf c s))
    (hm : MapOk c (update s.maptbl lpn .unmapped) s.rmap s.blk stale) (hlpn : lpn < c.sp.ttPgs)
    (hstale : ¬ stale p) : MapOk c s'.maptbl s'.rmap s'.blk stale := by
  obtain ⟨hp, -, hf⟩ := hphys.newPage io
  rw [← h.page] at hp hf
  rw [h.maptbl, h.rmap]
  exact hm.map hlpn hp hf hstale h.status

/-! ## Unmapping a page -/

/-- **The old page of an overwrite or of a deallocate**: it is invalidated, and
    the tables agree once the entry is cleared. -/
theorem invalidateOldPage_ok (h : Phys c s pl (posOf c s))
    (hm : MapOk c s.maptbl s.rmap s.blk stale) (hlpn : lpn < c.sp.ttPgs)
    (hmap : mappedPpa (s.maptbl lpn) = true) (hg : pl (s.maptbl lpn).line ≠ .gone) :
    ∃ s' pl', invalidateOldPage c s (s.maptbl lpn) = .ok s' ∧
      s' = { s with blk := s'.blk, lm := s'.lm, rmap := s'.rmap } ∧
      (∀ b, (s'.blk b).eraseCnt = (s.blk b).eraseCnt) ∧
      s'.lm.freeLineCnt = s.lm.freeLineCnt ∧
      (∀ q, IsPage c q → pageSt s'.blk q = if q = s.maptbl lpn then .invalid else pageSt s.blk q) ∧
      (∀ i, pl' i = pl i ∨ pl i = .full ∧ pl' i = .victim) ∧
      Phys c s' pl' (posOf c s') ∧
      MapOk c (update s.maptbl lpn .unmapped) s'.rmap s'.blk stale := by
  obtain ⟨hp, hv, -, -⟩ := hm.image lpn hlpn hmap
  obtain ⟨s₁, pl', he, hset, hpl, hphys⟩ := markPageInvalid_phys h (posOf_lt h) hp hv hg
  have hw (t : ℕ → ℕ) : posOf c { s₁ with rmap := t } = posOf c s :=
    posOf_congr (by rw [hset.frame]) (by rw [hset.frame])
  refine ⟨{ s₁ with rmap := update s₁.rmap ((s.maptbl lpn).pgidx c.sp) INVALID_LPN }, pl', ?_, ?_,
    hset.erase, ?_, hset.status, hpl, ?_, ?_⟩
  · unfold invalidateOldPage setRmapEnt
    rw [he, ok_bind, ppa2pgidx_ok hp]
    rfl
  · exact congrArg (fun t : ConvFtl => { t with
      rmap := update s₁.rmap ((s.maptbl lpn).pgidx c.sp) INVALID_LPN }) hset.frame
  · rw [hphys.shelved.freeCnt, hset.free, h.shelved.freeCnt]
  · rw [hw]; exact hphys.congr rfl rfl fun io => ConvFtl.getWp_congr rfl rfl io
  · have hr : s₁.rmap = s.rmap := by rw [hset.frame]
    rw [hr]
    exact hm.unmap hlpn hmap INVALID_LPN hset.status

/-! ## The invariant of an FTL -/

/-- An FTL between two steps of the dispatcher. -/
structure FtlOk (c : Cfg) (s : ConvFtl) (pl : ℕ → Place) : Prop where
  phys : Phys c s pl (posOf c s)
  settled : ∀ i < c.sp.blksPerPl, pl i ≠ .gone
  map : MapOk c s.maptbl s.rmap s.blk fun _ => False

/-- Other clocks, credits and statistics. -/
theorem FtlOk.congr (h : FtlOk c s pl) (hm : s'.maptbl = s.maptbl) (hr : s'.rmap = s.rmap)
    (hb : s'.blk = s.blk) (hlm : s'.lm = s.lm) (hwp : s'.wp = s.wp) (hgc : s'.gcWp = s.gcWp) :
    FtlOk c s' pl where
  phys := by
    rw [posOf_congr hwp hgc]; exact h.phys.congr hb hlm fun io => ConvFtl.getWp_congr hwp hgc io
  settled := h.settled
  map := by rw [hm, hr, hb]; exact h.map

/-- What a host write of `lpn` to page `p` does to an FTL. -/
structure HostWrote (c : Cfg) (lpn nsecs : ℕ) (s : ConvFtl) (p : Ppa) (s' : ConvFtl)
    (pl' : ℕ → Place) : Prop where
  ok : FtlOk c s' pl'
  page : p = s.wp.page
  maptbl : s'.maptbl = update s.maptbl lpn p
  stats : s'.stats = s.stats.countHost
  wfc : s'.wfc = s.wfc
  erase : ∀ b, (s'.blk b).eraseCnt = (s.blk b).eraseCnt
  gcWp : s'.gcWp = s.gcWp
  room : openRoom c s' .userIo + 1 = openRoom c s .userIo

/-- **A host write keeps the invariant.** -/
theorem convWriteFtl_ok (h : FtlOk c s pl) (hlpn : lpn < c.sp.ttPgs) (nsecs : ℕ) :
    Sat (fun e => e = .noFreeLine ∧ openRoom c s .userIo = 1)
      (fun r => ∃ pl', HostWrote c lpn nsecs s r.1 r.2 pl') (convWriteFtl c s lpn nsecs) := by
  obtain ⟨s₀, hs₀⟩ : ∃ s₀ : ConvFtl, s₀ = { s with curNsecs := nsecs } := ⟨_, rfl⟩
  have h₀ : FtlOk c s₀ pl := by rw [hs₀]; exact h.congr rfl rfl rfl rfl rfl rfl
  -- after the old page is invalidated
  obtain ⟨s₁, pl₁, he, hframe, herase, hcnt, hpl, hphys, hmap⟩ : ∃ s₁ pl₁,
      convWriteFtl c s lpn nsecs = writeNewPage c s₁ .userIo lpn GcStats.countHost ∧
      s₁ = { s₀ with blk := s₁.blk, lm := s₁.lm, rmap := s₁.rmap } ∧
      (∀ b, (s₁.blk b).eraseCnt = (s₀.blk b).eraseCnt) ∧
      s₁.lm.freeLineCnt = s₀.lm.freeLineCnt ∧
      (∀ i, pl₁ i = pl i ∨ pl i = .full ∧ pl₁ i = .victim) ∧ Phys c s₁ pl₁ (posOf c s₁) ∧
      MapOk c (update s₀.maptbl lpn .unmapped) s₁.rmap s₁.blk fun _ => False := by
    rw [convWriteFtl_eq, ← hs₀, show s.maptbl = s₀.maptbl by rw [hs₀]]
    by_cases hm : mappedPpa (s₀.maptbl lpn) = true
    · rw [if_pos hm]
      have hline := (h₀.map.image lpn hlpn hm).1.line_lt
      obtain ⟨s₁, pl₁, he, h₁, h₂, h₃, -, h₄, h₅, h₆⟩ :=
        invalidateOldPage_ok h₀.phys h₀.map hlpn hm (h₀.settled _ hline)
      exact ⟨s₁, pl₁, by rw [he, ok_bind], h₁, h₂, h₃, h₄, h₅, h₆⟩
    · rw [if_neg hm]
      exact ⟨s₀, pl, rfl, rfl, fun _ => rfl, rfl, fun _ => .inl rfl, h₀.phys,
        h₀.map.unmap_none hm⟩
  rw [he]
  have hm₁ : s₁.maptbl = s.maptbl := by rw [hframe, hs₀]
  have hpos₁ : posOf c s₁ = posOf c s :=
    posOf_congr (by rw [hframe, hs₀]) (by rw [hframe, hs₀])
  have hroom₁ : openRoom c s₁ .userIo = openRoom c s .userIo := by
    rw [openRoom, openRoom, hcnt, hpos₁, hs₀]
  -- the new page
  refine (writeNewPage_wrote hphys hlpn .userIo GcStats.countHost).mono
    (fun e he => ⟨he.1, hroom₁ ▸ he.2⟩)
    fun r ⟨pl', hw⟩ => ⟨pl', ⟨hw.phys, fun i hi => ?_, ?_⟩, ?_, ?_, ?_, ?_, fun b => ?_, ?_,
      hw.room.trans hroom₁⟩
  · have h₁ : pl₁ i ≠ .gone := by
      rcases hpl i with hi' | ⟨-, hi'⟩
      · rw [hi']; exact h.settled i hi
      · simp [hi']
    rcases hw.moved i with hi' | ⟨-, hi' | hi'⟩ | ⟨-, hi'⟩ <;> rw [hi'] <;> simp [h₁]
  · refine hw.mapOk hphys ?_ hlpn id
    rw [hm₁, ← show s₀.maptbl = s.maptbl by rw [hs₀]]
    exact hmap
  · rw [hw.page]; exact congrArg WritePointer.page (by rw [ConvFtl.getWp, hframe, hs₀])
  · rw [hw.maptbl, hm₁]
  · rw [hw.stats, hframe, hs₀]
  · rw [hw.wfc, hframe, hs₀]
  · rw [hw.erase, herase, hs₀]
  · have hgc : r.2.gcWp = s₁.gcWp := hw.other .gcIo (by simp)
    rw [hgc, hframe, hs₀]

/-- What a deallocate of `lpn` does to an FTL. -/
structure Discarded (c : Cfg) (lpn : ℕ) (s s' : ConvFtl) (pl' : ℕ → Place) : Prop where
  ok : FtlOk c s' pl'
  maptbl : s'.maptbl = update s.maptbl lpn .unmapped
  stats : s'.stats = s.stats
  wfc : s'.wfc = s.wfc
  erase : ∀ b, (s'.blk b).eraseCnt = (s.blk b).eraseCnt
  freeCnt : s'.lm.freeLineCnt = s.lm.freeLineCnt
  posOf : posOf c s' = posOf c s

/-- **A deallocate keeps the invariant**: it does nothing to an unmapped page. -/
theorem discardFtl_ok (h : FtlOk c s pl) (hlpn : lpn < c.sp.ttPgs) (now : ℕ) :
    ∃ s', discardFtl c s lpn now = .ok s' ∧ (s' = s ∨ ∃ pl', Discarded c lpn s s' pl') := by
  unfold discardFtl
  dsimp only
  by_cases hm : mappedPpa (s.maptbl lpn) = true
  swap
  · rw [if_pos (by simp [hm])]
    exact ⟨s, rfl, .inl rfl⟩
  obtain ⟨hp, -⟩ := h.map.image lpn hlpn hm
  rw [if_neg (by simp [hm, hp.1])]
  obtain ⟨s₀, hs₀⟩ : ∃ s₀ : ConvFtl, s₀ = { s with curNsecs := now } := ⟨_, rfl⟩
  have h₀ : FtlOk c s₀ pl := by rw [hs₀]; exact h.congr rfl rfl rfl rfl rfl rfl
  have hmt : s.maptbl = s₀.maptbl := by rw [hs₀]
  rw [← hs₀, hmt]
  rw [hmt] at hm hp
  obtain ⟨s₁, pl₁, he, hframe, herase, hcnt, -, hpl, hphys, hmap⟩ :=
    invalidateOldPage_ok h₀.phys h₀.map hlpn hm (h₀.settled _ hp.line_lt)
  have hmt₁ : s₁.maptbl = s₀.maptbl := by rw [hframe]
  rw [he, ok_bind]
  refine ⟨_, rfl, .inr ⟨pl₁, ⟨?_, ?_, ?_⟩, ?_, ?_, ?_, ?_, ?_, ?_⟩⟩
  · exact hphys.congr rfl rfl fun io => ConvFtl.getWp_congr rfl rfl io
  · intro i hi
    rcases hpl i with hi' | ⟨-, hi'⟩
    · rw [hi']; exact h.settled i hi
    · simp [hi']
  · rw [← hmt₁] at hmap; exact hmap
  · rw [hmt₁, hmt]
  · rw [hframe, hs₀]
  · rw [hframe, hs₀]
  · intro b; rw [herase, hs₀]
  · rw [hcnt, hs₀]
  · exact posOf_congr (by rw [hframe, hs₀]) (by rw [hframe, hs₀])

end WaitGc

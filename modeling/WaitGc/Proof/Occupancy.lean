/-
  WAITGC verification — which logical pages a line holds.

  `lineLpns c s i` are the mapped pages whose image is in line `i`; the valid pages of the
  line count them (`FtlOk.vpc_eq`).  A host write puts its page into the line of the user's
  write pointer and takes it from the others (`HostWrote.lineLpns_eq`).  The invalid pages
  of all lines are what is neither mapped nor free (`FtlOk.sum_ipc`).
-/
import WaitGc.Proof.Frame
import WaitGc.Proof.System

namespace WaitGc

open Outcome Function Tally

variable {c : Cfg} {s s' : ConvFtl} {pl pl' : ℕ → Place} {i j lpn nsecs : ℕ} {p : Ppa} {io : IoType}

/-- The logical pages whose image is in line `i`. -/
def lineLpns (c : Cfg) (s : ConvFtl) (i : ℕ) : Finset ℕ :=
  (mappedLpns c s).filter fun lpn => (s.maptbl lpn).line = i

theorem mem_mappedLpns : lpn ∈ mappedLpns c s ↔ lpn < c.sp.ttPgs ∧ mappedPpa (s.maptbl lpn) = true := by
  rw [mappedLpns, Finset.mem_filter, Finset.mem_range]

theorem mem_lineLpns : lpn ∈ lineLpns c s i ↔
    (lpn < c.sp.ttPgs ∧ mappedPpa (s.maptbl lpn) = true) ∧ (s.maptbl lpn).line = i := by
  rw [lineLpns, Finset.mem_filter, mem_mappedLpns]

/-! ## The counters of a line -/

/-- **The valid pages of a line** are the images of the pages it holds. -/
theorem FtlOk.vpc_eq (h : FtlOk c s pl) (hi : i < c.sp.blksPerPl) :
    (s.lm.lines i).vpc = (lineLpns c s i).card := by
  rw [(h.phys.line_counted i hi (h.settled i hi)).1]
  symm
  refine Finset.card_bij (fun lpn _ => (s.maptbl lpn).ord c) ?_ ?_ ?_
  · intro lpn hl
    obtain ⟨⟨hlpn, hm⟩, rfl⟩ := mem_lineLpns.1 hl
    obtain ⟨hp, hv, -⟩ := h.map.image lpn hlpn hm
    rw [Finset.mem_filter, Finset.mem_range, hp.lineSt_eq]
    exact ⟨hp.ord_lt, hv⟩
  · intro lpn hl lpn' hl' he
    obtain ⟨⟨hlpn, hm⟩, hline⟩ := mem_lineLpns.1 hl
    obtain ⟨⟨hlpn', hm'⟩, hline'⟩ := mem_lineLpns.1 hl'
    have hp := (h.map.image lpn hlpn hm).1
    exact h.map.inj hlpn hlpn' hm (hp.eq (h.map.image lpn' hlpn' hm').1 (hline.trans hline'.symm) he)
  · intro k hk
    rw [Finset.mem_filter, Finset.mem_range] at hk
    obtain ⟨hp, hl, ho⟩ := isPage_pageAt hi hk.1
    obtain ⟨lpn, hlpn, he⟩ := h.map.cover _ hp hk.2 id
    refine ⟨lpn, mem_lineLpns.2 ⟨⟨hlpn, ?_⟩, ?_⟩, ?_⟩
    · rw [he]
      exact hp.mapped
    · rw [he, hl]
    · rw [he, ho]

theorem FtlOk.opened_counters (h : FtlOk c s pl) (io : IoType) :
    (s.lm.lines (s.getWp io).curline).vpc + (s.lm.lines (s.getWp io).curline).ipc = posOf c s io := by
  have hlt := (h.phys.wp_ok io).lt
  have hpg := h.phys.pages _ hlt
  rw [(h.phys.opened io _ hlt).2 rfl] at hpg
  exact (h.phys.line_counted _ hlt (h.settled _ hlt)).add_eq (h.phys.pos_le io) hpg

theorem FtlOk.closed_counters (h : FtlOk c s pl) (hi : i < c.sp.blksPerPl)
    (hx : pl i = .full ∨ pl i = .victim) :
    (s.lm.lines i).vpc + (s.lm.lines i).ipc = c.sp.pgsPerLine := by
  have hcount := h.phys.line_counted i hi (h.settled i hi)
  have hpg := h.phys.pages i hi
  refine hcount.add_eq le_rfl fun k hk => ⟨fun _ => hk, fun _ => ?_⟩
  rcases hx with hx | hx
  · rw [hx] at hpg
    rw [hpg k hk]
    simp
  · rw [hx] at hpg
    exact hpg.1 k hk

theorem FtlOk.full_counters (h : FtlOk c s pl) (hi : i < c.sp.blksPerPl) (hx : pl i = .full) :
    (s.lm.lines i).vpc = c.sp.pgsPerLine := by
  have hpg := h.phys.pages i hi
  rw [hx] at hpg
  exact (h.phys.line_counted i hi (h.settled i hi)).vpc_eq_iff.2 hpg

theorem FtlOk.free_counters (h : FtlOk c s pl) (hi : i < c.sp.blksPerPl) (hx : pl i = .free) :
    (s.lm.lines i).vpc = 0 := by
  have hpg := h.phys.pages i hi
  rw [hx] at hpg
  have hsum := (h.phys.line_counted i hi (h.settled i hi)).add_eq (Nat.zero_le _) fun k hk =>
    iff_of_false (fun hne => hne (hpg k hk)) (Nat.not_lt_zero k)
  omega

/-- **The invalid pages** are what is neither mapped nor left to write. -/
theorem FtlOk.sum_ipc (h : FtlOk c s pl) :
    (∑ i ∈ Finset.range c.sp.blksPerPl, (s.lm.lines i).ipc) + (mappedLpns c s).card + spaceLeft c s =
      c.sp.ttPgs := by
  have hvalid : ∑ i ∈ Finset.range c.sp.blksPerPl, (s.lm.lines i).vpc = (mappedLpns c s).card := by
    rw [← h.validPages_eq, validPages_eq_lines]
    refine Finset.sum_congr rfl fun i hi => ?_
    have hi' := Finset.mem_range.1 hi
    exact (h.phys.line_counted i hi' (h.settled i hi')).1
  rw [← hvalid, ← h.free_eq_spaceLeft, ← Finset.sum_add_distrib, ← Finset.sum_add_distrib,
    Geometry.ttPgs_eq_lines, Geometry.ttLines_eq']
  have hline : ∀ i ∈ Finset.range c.sp.blksPerPl, (s.lm.lines i).ipc + (s.lm.lines i).vpc +
      tally (Finset.range c.sp.pgsPerLine) (lineSt c s.blk i) .free = c.sp.pgsPerLine := by
    intro i hi
    have hi' := Finset.mem_range.1 hi
    rw [Nat.add_comm (s.lm.lines i).ipc]
    exact (h.phys.line_counted i hi' (h.settled i hi')).add_free
  rw [Finset.sum_congr rfl hline, Finset.sum_const, Finset.card_range, smul_eq_mul]

theorem FtlOk.ipc_le (h : FtlOk c s pl) (hi : i < c.sp.blksPerPl) :
    (s.lm.lines i).ipc + (mappedLpns c s).card + spaceLeft c s ≤ c.sp.ttPgs := by
  have hle : (s.lm.lines i).ipc ≤ ∑ i ∈ Finset.range c.sp.blksPerPl, (s.lm.lines i).ipc :=
    Finset.single_le_sum (f := fun i => (s.lm.lines i).ipc) (fun _ _ => Nat.zero_le _) (Finset.mem_range.2 hi)
  have hsum := h.sum_ipc
  omega

theorem FtlOk.ipc_add_le (h : FtlOk c s pl) (hi : i < c.sp.blksPerPl) (hj : j < c.sp.blksPerPl)
    (hij : i ≠ j) : (s.lm.lines i).ipc + (s.lm.lines j).ipc + (mappedLpns c s).card + spaceLeft c s ≤
      c.sp.ttPgs := by
  have hle : ∑ i ∈ {i, j}, (s.lm.lines i).ipc ≤ ∑ i ∈ Finset.range c.sp.blksPerPl, (s.lm.lines i).ipc := by
    refine Finset.sum_le_sum_of_subset ?_
    rw [Finset.insert_subset_iff, Finset.singleton_subset_iff, Finset.mem_range, Finset.mem_range]
    exact ⟨hi, hj⟩
  rw [Finset.sum_pair hij] at hle
  have hsum := h.sum_ipc
  omega

/-! ## Host writes -/

theorem HostWrote.line_eq (hw : HostWrote c lpn nsecs s p s' pl') (h : FtlOk c s pl) :
    IsPage c p ∧ p.line = s.wp.curline := by
  obtain ⟨hp, hl, -⟩ := (h.phys.wp_ok .userIo).isPage
  rw [hw.page]
  exact ⟨hp, hl⟩

theorem HostWrote.mappedLpns_eq (hw : HostWrote c lpn nsecs s p s' pl') (h : FtlOk c s pl)
    (hlpn : lpn < c.sp.ttPgs) : mappedLpns c s' = insert lpn (mappedLpns c s) := by
  ext lpn'
  rw [Finset.mem_insert, mem_mappedLpns, mem_mappedLpns, hw.maptbl]
  by_cases he : lpn' = lpn
  · subst he
    rw [update_self]
    simp [hlpn, (hw.line_eq h).1.mapped]
  · rw [update_of_ne he]
    simp [he]

/-- **A host write** moves its page to the line of the write pointer. -/
theorem HostWrote.lineLpns_eq (hw : HostWrote c lpn nsecs s p s' pl') (h : FtlOk c s pl)
    (hlpn : lpn < c.sp.ttPgs) (i : ℕ) : lineLpns c s' i =
      if i = s.wp.curline then insert lpn (lineLpns c s i) else (lineLpns c s i).erase lpn := by
  obtain ⟨hp, hl⟩ := hw.line_eq h
  ext lpn'
  rw [mem_lineLpns, hw.maptbl]
  by_cases he : lpn' = lpn
  · subst he
    rw [update_self, hl]
    split_ifs with hi
    · simp [hlpn, hp.mapped, hi]
    · simp [Ne.symm hi]
  · rw [update_of_ne he]
    split_ifs with hi
    · rw [Finset.mem_insert, mem_lineLpns]
      simp [he]
    · rw [Finset.mem_erase, mem_lineLpns]
      simp [he]

theorem advanceWritePointer_curline (io : IoType) (hwp : WpOk c (s.getWp io))
    (hpos : (s.getWp io).ord c + 1 < c.sp.pgsPerLine) :
    Yields (fun s' => (s'.getWp io).curline = (s.getWp io).curline) (advanceWritePointer c s io) := by
  rcases advanceWritePointer_cases hwp with ⟨wp, -, hline, -, he⟩ | ⟨hend, -⟩
  · rw [he]
    change ((s.setWp io wp).getWp io).curline = _
    rw [ConvFtl.getWp_setWp, hline]
  · exact absurd hend hpos.ne

theorem convWriteFtl_curline (h : FtlOk c s pl) (hpos : posOf c s .userIo + 1 < c.sp.pgsPerLine) :
    Yields (fun r => r.2.wp.curline = s.wp.curline) (convWriteFtl c s lpn nsecs) := by
  have hwp : WpOk c s.wp := h.phys.wp_ok .userIo
  have hnew (s₁ : ConvFtl) (h₁ : s₁.wp = s.wp) :
      Yields (fun r => r.2.wp.curline = s.wp.curline) (writeNewPage c s₁ .userIo lpn GcStats.countHost) := by
    unfold writeNewPage getNewPage setMaptblEnt setRmapEnt ppa2pgidx
    simp only [bind_assoc, pure_bind]
    refine yields_require fun _ => yields_require fun _ => yields_require fun _ => ?_
    refine (markPageValid_yields _ _).bind ?_
    rintro s₂ ⟨hf₂, -⟩
    have h₂ : s₂.wp = s.wp := by rw [hf₂, ← h₁]
    refine (advanceWritePointer_curline .userIo (by rw [ConvFtl.getWp]; exact h₂ ▸ hwp)
      (by rw [ConvFtl.getWp]; exact h₂ ▸ hpos)).bind ?_
    intro s₃ h₃
    exact h₃.trans (congrArg _ h₂)
  rw [convWriteFtl_eq]
  split_ifs
  · refine (invalidateOldPage_yields _ _).bind ?_
    rintro s₁ ⟨hf₁, -⟩
    exact hnew s₁ (by rw [hf₁])
  · rw [pure_bind]
    exact hnew _ rfl

end WaitGc

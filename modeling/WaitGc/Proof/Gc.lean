/-
  WAITGC verification — garbage collection moves pages and loses none.

  `GcInv c s₀ v done erased s` is the invariant of the loops of `do_gc` on the
  victim `v`, from the state `s₀`: the pages `done` were visited, the blocks
  `erased` were erased, and `s` is the state now.  Visited pages are stale: a
  valid one has its copy outside the line.  A visited page is copied if it was
  valid (`GcInv.copy`) and skipped if not (`GcInv.skip`); a block is erased
  when all its pages are visited (`GcInv.eraseBlock`).

  `collectLine_emptied` is the specification of `do_gc` on the victim.
-/
import WaitGc.Proof.GcOrder

namespace WaitGc

open Outcome Function

variable {c : Cfg} {s s' s₀ : ConvFtl} {pl pl' : ℕ → Place} {v : ℕ} {p q : Ppa}
  {done : List Ppa} {erased : List BlkAddr} {t : Timing}

/-! ## The invariant of the loops -/

/-- The pages of a list that were valid. -/
def copies (s₀ : ConvFtl) (done : List Ppa) : ℕ :=
  done.countP fun q => decide (pageSt s₀.blk q = .valid)

/-- The loops of `do_gc` between two pages. -/
structure GcInv (c : Cfg) (s₀ : ConvFtl) (v : ℕ) (done : List Ppa) (erased : List BlkAddr)
    (s : ConvFtl) : Prop where
  phys : ∃ pl, Phys c s pl (posOf c s) ∧ ∀ i < c.sp.blksPerPl, pl i = .gone ↔ i = v
  map : MapOk c s.maptbl s.rmap s.blk (· ∈ done)
  done_page : ∀ q ∈ done, IsPage c q ∧ q.line = v
  erased_done : ∀ q, IsPage c q → q.blkAddr ∈ erased →
    q.line = v ∧ (pageSt s₀.blk q = .valid → q ∈ done)
  status : ∀ q, IsPage c q → q.line = v →
    pageSt s.blk q = if q.blkAddr ∈ erased then .free else pageSt s₀.blk q
  erase : ∀ b, (s.blk b).eraseCnt = (s₀.blk b).eraseCnt + erased.count b
  mapped : ∀ lpn < c.sp.ttPgs, mappedPpa (s.maptbl lpn) = mappedPpa (s₀.maptbl lpn)
  kept : ∀ lpn < c.sp.ttPgs, s₀.maptbl lpn ∉ done → s.maptbl lpn = s₀.maptbl lpn
  moved : GcMoved s₀ s
  copied : s.stats.gcValidCopied = s₀.stats.gcValidCopied + copies s₀ done
  room : openRoom c s .gcIo + copies s₀ done = openRoom c s₀ .gcIo
  free : s.lm.freeLineList <:+ s₀.lm.freeLineList

theorem copies_append (s₀ : ConvFtl) (done : List Ppa) (q : Ppa) :
    copies s₀ (done ++ [q]) = copies s₀ done + if pageSt s₀.blk q = .valid then 1 else 0 := by
  rw [copies, List.countP_append]
  by_cases h : pageSt s₀.blk q = .valid <;> simp [copies, h]

/-- A page of the victim that is not in an erased block is as it was. -/
theorem GcInv.status_eq (h : GcInv c s₀ v done erased s) (hq : IsPage c q) (hl : q.line = v)
    (he : q.blkAddr ∉ erased) : pageSt s.blk q = pageSt s₀.blk q := by
  rw [h.status q hq hl, if_neg he]

/-- **A page that is not valid is skipped.** -/
theorem GcInv.skip (h : GcInv c s₀ v done erased s) (hq : IsPage c q) (hl : q.line = v)
    (he : q.blkAddr ∉ erased) (hs : pageSt s.blk q ≠ .valid) :
    GcInv c s₀ v (done ++ [q]) erased s := by
  have hcop : copies s₀ (done ++ [q]) = copies s₀ done := by
    rw [copies_append, if_neg (by rwa [← h.status_eq hq hl he]), Nat.add_zero]
  refine { h with
    map := h.map.stale_congr ?_
    done_page := ?_
    erased_done := ?_
    kept := ?_
    copied := by rw [hcop]; exact h.copied
    room := by rw [hcop]; exact h.room }
  · intro q' _ hv
    have hne : q' ≠ q := by rintro rfl; exact hs hv
    simp [hne]
  · intro q' hq'
    rcases List.mem_append.1 hq' with hq' | hq'
    · exact h.done_page q' hq'
    · rw [List.mem_singleton.1 hq']; exact ⟨hq, hl⟩
  · intro q' hp hb
    obtain ⟨hl', hd⟩ := h.erased_done q' hp hb
    exact ⟨hl', fun hv => List.mem_append_left _ (hd hv)⟩
  · intro lpn hlpn hn
    exact h.kept lpn hlpn fun hm => hn (List.mem_append_left _ hm)

/-- The line on its way stays the same when a pointer moves. -/
theorem Moved.gone_iff {io : IoType} (h : Moved io pl pl') (i : ℕ) : pl' i = .gone ↔ pl i = .gone := by
  rcases h i with he | ⟨ho, he | he⟩ | ⟨hf, he⟩
  · rw [he]
  · simp [ho, he]
  · simp [ho, he]
  · simp [hf, he]

/-- **A valid page is copied.** -/
theorem GcInv.copy (h : GcInv c s₀ v done erased s) (hq : IsPage c q) (hl : q.line = v)
    (hd : q ∉ done) (he : q.blkAddr ∉ erased) (hs : pageSt s.blk q = .valid) :
    Sat (fun e => e = .noFreeLine ∧ openRoom c s₀ .gcIo = copies s₀ done + 1)
      (fun r => GcInv c s₀ v (done ++ [q]) erased r.1) (gcWritePage c s t q) := by
  obtain ⟨pl, hphys, hgone⟩ := h.phys
  obtain ⟨hlpn, hown⟩ := h.map.owner hq hs hd
  have hv₀ : pageSt s₀.blk q = .valid := by rw [← h.status_eq hq hl he, hs]
  have hcop : copies s₀ (done ++ [q]) = copies s₀ done + 1 := by rw [copies_append, if_pos hv₀]
  have hret := h.map.retire hq hs hd
  have hy := gcWritePage_yields (c := c) s t q
  have hmain : Sat (fun e => e = .noFreeLine ∧ openRoom c s₀ .gcIo = copies s₀ done + 1)
      (fun r => ∃ p pl', Wrote c .gcIo (s.rmap (q.pgidx c.sp)) GcStats.countCopy s pl p r.1 pl')
      (gcWritePage c s t q) := by
    unfold gcWritePage getRmapEnt
    rw [ppa2pgidx_ok hq, ok_bind, pure_bind, nvmevAssert_pos (show validLpn c.sp _ from hlpn), ok_bind]
    refine Sat.bind ((writeNewPage_wrote hphys hlpn .gcIo GcStats.countCopy).mono ?_ fun _ h => h) ?_
    · rintro e ⟨rfl, hroom⟩
      refine ⟨rfl, ?_⟩
      rw [← h.room, hroom, Nat.add_comm]
    · rintro ⟨p, s'⟩ ⟨pl', hw⟩
      dsimp only
      split_ifs <;> exact ⟨p, pl', hw⟩
  refine (hmain.yields hy).mono (fun _ he => he) ?_
  rintro ⟨s', t'⟩ ⟨⟨p, pl', hw⟩, hmv⟩
  change Wrote c .gcIo (s.rmap (q.pgidx c.sp)) GcStats.countCopy s pl p s' pl' at hw
  change GcMoved s s' at hmv
  generalize s.rmap (q.pgidx c.sp) = lpn at hlpn hown hw hret
  obtain ⟨hp, hplace, -⟩ := hphys.newPage .gcIo
  rw [← hw.page] at hp hplace
  -- the copy is outside the victim
  have hpl : p.line ≠ v := by
    intro hpv
    rw [(hgone _ hp.line_lt).2 hpv] at hplace
    cases hplace
  have hnew : ¬ (p ∈ done ∨ p = q) := by
    rintro (hm | rfl)
    · exact hpl (h.done_page p hm).2
    · exact hpl hl
  change GcInv c s₀ v (done ++ [q]) erased s'
  refine ⟨⟨pl', hw.phys, ?_⟩, ?_, ?_, ?_, ?_, ?_, ?_, ?_, h.moved.trans hmv, ?_, ?_,
    hw.free.trans h.free⟩
  · intro i hi
    rw [hw.moved.gone_iff, hgone i hi]
  · refine (hw.mapOk hphys hret hlpn hnew).stale_congr ?_
    intro q' _ _
    simp
  · intro q' hq'
    rcases List.mem_append.1 hq' with hq' | hq'
    · exact h.done_page q' hq'
    · rw [List.mem_singleton.1 hq']; exact ⟨hq, hl⟩
  · intro q' hq' hb
    obtain ⟨hl', hd'⟩ := h.erased_done q' hq' hb
    exact ⟨hl', fun hv => List.mem_append_left _ (hd' hv)⟩
  · intro q' hq' hl'
    have hne : q' ≠ p := by rintro rfl; exact hpl hl'
    rw [hw.status q' hq', if_neg hne, h.status q' hq' hl']
  · intro b
    rw [hw.erase, h.erase]
  · intro lpn' hlpn'
    rw [hw.maptbl]
    by_cases he' : lpn' = lpn
    · subst he'
      rw [update_self, hp.mapped, ← h.mapped lpn' hlpn', hown, hq.mapped]
    · rw [update_of_ne he', h.mapped lpn' hlpn']
  · intro lpn' hlpn' hn
    have hkept := h.kept lpn' hlpn' fun hm => hn (List.mem_append_left _ hm)
    have hne : lpn' ≠ lpn := by
      rintro rfl
      rw [← hkept, hown] at hn
      exact hn (List.mem_append_right _ (List.mem_singleton_self q))
    rw [hw.maptbl, update_of_ne hne, hkept]
  · rw [hcop, ← Nat.add_assoc, ← h.copied, hw.stats]
    rfl
  · rw [hcop, ← h.room, ← hw.room]
    omega

/-- **A block of visited pages is erased.** -/
theorem GcInv.eraseBlock (h : GcInv c s₀ v done erased s) (hp : IsPage c p) (hl : p.line = v)
    (hdone : ∀ q, IsPage c q → q.blkAddr = p.blkAddr → q ∈ done) :
    GcInv c s₀ v done (erased ++ [p.blkAddr]) (markBlockFree c s p) := by
  obtain ⟨pl, hphys, hgone⟩ := h.phys
  have hgp : pl p.line = .gone := (hgone _ hp.line_lt).2 hl
  have hpos : posOf c (markBlockFree c s p) = posOf c s := posOf_congr rfl rfl
  have hmem (b : BlkAddr) : b ∈ erased ++ [p.blkAddr] ↔ b ∈ erased ∨ b = p.blkAddr := by
    rw [List.mem_append, List.mem_singleton]
  refine ⟨⟨pl, ?_, hgone⟩, ?_, h.done_page, ?_, ?_, ?_, h.mapped, h.kept,
    h.moved.trans (markBlockFree_gcMoved s p), h.copied, ?_, h.free⟩
  · rw [hpos]
    exact markBlockFree_phys hphys hgp
  · refine h.map.erase (fun q => q.blkAddr = p.blkAddr) ?_ ?_ ?_
    · intro q hq hb _
      exact hdone q hq hb
    · intro q hq hb
      rw [pageSt_markBlockFree hq, if_pos hb]
    · intro q hq hb
      rw [pageSt_markBlockFree hq, if_neg hb]
  · intro q hq hb
    rcases (hmem _).1 hb with hb | hb
    · exact h.erased_done q hq hb
    · exact ⟨(line_of_blkAddr hb).trans hl, fun _ => hdone q hq hb⟩
  · intro q hq hl'
    rw [pageSt_markBlockFree hq]
    by_cases hb : q.blkAddr = p.blkAddr
    · rw [if_pos hb, if_pos ((hmem _).2 (.inr hb))]
    · rw [if_neg hb, h.status q hq hl']
      by_cases he : q.blkAddr ∈ erased
      · rw [if_pos he, if_pos ((hmem _).2 (.inl he))]
      · rw [if_neg he, if_neg (fun hm => ((hmem _).1 hm).elim he hb)]
  · intro b
    rw [List.count_append, ← Nat.add_assoc, ← h.erase]
    dsimp only [markBlockFree]
    by_cases hb : b = p.blkAddr
    · subst hb; rw [update_self]; simp
    · rw [update_of_ne hb, List.count_singleton, if_neg (by simpa using Ne.symm hb), Nat.add_zero]
  · rw [openRoom, hpos]
    exact h.room

/-! ## The loops -/

/-- `copy_page` visits a page. -/
theorem GcInv.visitPage (h : GcInv c s₀ v done erased s) (hq : IsPage c q) (hl : q.line = v)
    (hd : q ∉ done) (he : q.blkAddr ∉ erased) :
    Sat (fun e => e = .noFreeLine ∧ openRoom c s₀ .gcIo = copies s₀ (done ++ [q]))
      (fun r => GcInv c s₀ v (done ++ [q]) erased r.1) (copyPage c (s, t) q) := by
  unfold copyPage
  by_cases hs : s.status q = .valid
  · rw [if_pos hs]
    refine (h.copy hq hl hd he hs).mono ?_ fun _ h => h
    rintro e ⟨rfl, hroom⟩
    refine ⟨rfl, ?_⟩
    rw [copies_append, ← h.status_eq hq hl he, show pageSt s.blk q = .valid from hs, if_pos rfl, hroom]
  · rw [if_neg hs]
    exact h.skip hq hl he hs

/-- No page of the flash page is free, and `clean_one_flashpg` counts the valid
    ones. -/
theorem countValid_ok {pages : List Ppa} (hs : ∀ q ∈ pages, s.status q ≠ .free) :
    ∃ n, countValid s pages = .ok n ∧ (n = 0 → ∀ q ∈ pages, s.status q ≠ .valid) := by
  refine Sat.exists_ok (E := fun _ => False) ?_ fun _ => id
  refine sat_foldlM (fun pre n => n = 0 → ∀ q ∈ pre, s.status q ≠ .valid) _ ?_ ?_
  · intro pre q post n hl h
    rw [nvmevAssert_pos (hs q (by rw [hl]; simp)), ok_bind]
    intro h0 q' hq'
    split_ifs at h0 with hv
    rcases List.mem_append.1 hq' with hq' | hq'
    · exact h h0 q' hq'
    · rw [List.mem_singleton.1 hq']; exact hv
  · exact fun _ _ hq => (nomatch hq)

theorem foldlM_copyPage_skip {pages : List Ppa} (hs : ∀ q ∈ pages, s.status q ≠ .valid) :
    pages.foldlM (copyPage c) (s, t) = .ok (s, t) := by
  induction pages with
  | nil => rfl
  | cons q pages ih =>
    rw [List.foldlM_cons, copyPage, if_neg (hs q List.mem_cons_self), pure_bind]
    exact ih fun q' hq' => hs q' (List.mem_cons_of_mem _ hq')

/-- `clean_one_flashpg` visits the pages of a flash page. -/
theorem GcInv.visitFlashpg (h : GcInv c s₀ v done erased s) (p : Ppa)
    (hpage : ∀ q ∈ flashpgPages c p, IsPage c q ∧ q.line = v ∧ q.blkAddr ∉ erased)
    (hnd : (done ++ flashpgPages c p).Nodup)
    (hfree : ∀ q ∈ flashpgPages c p, pageSt s₀.blk q ≠ .free) :
    Sat (fun e => e = .noFreeLine ∧ openRoom c s₀ .gcIo ≤ copies s₀ (done ++ flashpgPages c p))
      (fun r => GcInv c s₀ v (done ++ flashpgPages c p) erased r.1)
      (cleanOneFlashpg c s t p) := by
  unfold cleanOneFlashpg
  generalize flashpgPages c p = pages at hpage hnd hfree
  have hst : ∀ q ∈ pages, s.status q ≠ .free := by
    intro q hq
    obtain ⟨hp, hl, he⟩ := hpage q hq
    change pageSt s.blk q ≠ .free
    rw [h.status_eq hp hl he]
    exact hfree q hq
  obtain ⟨n, hn, hzero⟩ := countValid_ok hst
  have hloop (t : Timing) : Sat (fun e => e = .noFreeLine ∧
      openRoom c s₀ .gcIo ≤ copies s₀ (done ++ pages))
      (fun r => GcInv c s₀ v (done ++ pages) erased r.1) (pages.foldlM (copyPage c) (s, t)) := by
    refine sat_foldlM (fun pre (st : ConvFtl × Timing) => GcInv c s₀ v (done ++ pre) erased st.1)
      pages ?_ ?_
    · intro pre q post st hl hI
      obtain ⟨hp, hlq, he⟩ := hpage q (by rw [hl]; simp)
      have hsplit : done ++ pages = (done ++ pre ++ [q]) ++ post := by rw [hl]; simp
      have hd : q ∉ done ++ pre := by
        rw [hsplit] at hnd
        have hnd' := (List.nodup_append.1 hnd).1
        exact fun hm => (List.nodup_append.1 hnd').2.2 q hm q (List.mem_singleton_self q) rfl
      rw [← List.append_assoc]
      refine (hI.visitPage hp hlq hd he).mono ?_ fun _ h => h
      rintro e ⟨rfl, hroom⟩
      refine ⟨rfl, ?_⟩
      rw [hroom, hsplit]
      exact (List.sublist_append_left _ _).countP_le
    · rw [List.append_nil]; exact h
  rw [hn, ok_bind]
  split_ifs with h0
  · -- no page is valid, so the loop would not move either
    have hskip := foldlM_copyPage_skip (c := c) (t := t) (hzero h0)
    have hI := hloop t
    rw [hskip] at hI
    exact hI
  · exact hloop _
  · exact hloop _

theorem erasedAt_append (k : ℕ × ℕ × ℕ) (pre : List (ℕ × ℕ × ℕ)) :
    erasedAt c v (pre ++ [k]) = erasedAt c v pre ++
      if k.1 = c.sp.flashpgsPerBlk - 1 then [⟨k.2.1, k.2.2, 0, v⟩] else [] := by
  rw [erasedAt, List.filter_append, List.map_append, ← erasedAt]
  congr 1
  by_cases hk : k.1 = c.sp.flashpgsPerBlk - 1
  · rw [if_pos hk, List.filter_singleton]
    simp [hk]
  · rw [if_neg hk, List.filter_singleton]
    simp [hk]

/-- **A position is visited.** -/
theorem GcInv.visit {pre post : List (ℕ × ℕ × ℕ)} {k : ℕ × ℕ × ℕ} {st : ConvFtl × Timing}
    (h : GcInv c s₀ v (pre.flatMap (gcPages c v)) (erasedAt c v pre) st.1)
    (hv : v < c.sp.blksPerPl) (he : gcPositions c = pre ++ k :: post)
    (hfree : ∀ q, IsPage c q → q.line = v → pageSt s₀.blk q ≠ .free) :
    Sat (fun e => e = .noFreeLine ∧ openRoom c s₀ .gcIo ≤ copies s₀ (allGcPages c v))
      (fun r => GcInv c s₀ v ((pre ++ [k]).flatMap (gcPages c v)) (erasedAt c v (pre ++ [k])) r.1)
      (gcVisit c v st k) := by
  have hk : k ∈ gcPositions c := by rw [he]; simp
  obtain ⟨hf, hch, hlun⟩ := mem_gcPositions.1 hk
  have hin : c.geo.InLine k.2.1 k.2.2 (k.1 * c.sp.pgsPerFlashpg) :=
    ⟨hch, hlun, flashpg_lt hf flashpgsPerBlk_pos.2⟩
  obtain ⟨hp, hl, -⟩ := isPage_store hin hv
  have hblk : (Ppa.store k.2.1 k.2.2 0 v (k.1 * c.sp.pgsPerFlashpg)).blkAddr =
      ⟨k.2.1, k.2.2, 0, v⟩ := by
    obtain ⟨h₁, h₂, h₃, -⟩ := store_fields hin hv
    rw [Ppa.blkAddr, h₁, h₂, h₃, hp.pl_eq]
    rfl
  have hflat : (pre ++ [k]).flatMap (gcPages c v) = pre.flatMap (gcPages c v) ++ gcPages c v k := by
    rw [List.flatMap_append, List.flatMap_singleton]
  have hsplit : allGcPages c v = (pre ++ [k]).flatMap (gcPages c v) ++ post.flatMap (gcPages c v) := by
    rw [allGcPages, he, ← List.flatMap_append, List.append_assoc]
    rfl
  have hnd : (pre.flatMap (gcPages c v) ++ gcPages c v k).Nodup := by
    have hall := nodup_allGcPages (c := c) hv
    rw [hsplit, hflat] at hall
    exact (List.nodup_append.1 hall).1
  unfold gcVisit
  refine Sat.bind ((h.visitFlashpg _ ?_ hnd ?_).mono ?_ fun _ h => h) ?_
  · intro q hq
    obtain ⟨hqp, hql, -⟩ := (mem_gcPages hv hk).1 hq
    exact ⟨hqp, hql, notMem_erasedAt hv he hq⟩
  · intro q hq
    obtain ⟨hqp, hql, -⟩ := (mem_gcPages hv hk).1 hq
    exact hfree q hqp hql
  · rintro e ⟨rfl, hroom⟩
    refine ⟨rfl, hroom.trans ?_⟩
    rw [hsplit, hflat]
    exact (List.sublist_append_left _ _).countP_le
  rintro ⟨s₁, t₁⟩ h₁
  change GcInv c s₀ v (pre.flatMap (gcPages c v) ++ gcPages c v k) (erasedAt c v pre) s₁ at h₁
  rw [← hflat] at h₁
  have herase (hlast : k.1 = c.sp.flashpgsPerBlk - 1) :
      GcInv c s₀ v ((pre ++ [k]).flatMap (gcPages c v)) (erasedAt c v (pre ++ [k]))
        (markBlockFree c s₁ (.store k.2.1 k.2.2 0 v (k.1 * c.sp.pgsPerFlashpg))) := by
    rw [erasedAt_append, if_pos hlast, ← hblk]
    refine h₁.eraseBlock hp hl ?_
    intro q hq hb
    rw [hblk, Ppa.blkAddr, BlkAddr.mk.injEq] at hb
    exact mem_visited hv he hlast hq hb.2.2.2 hb.1 hb.2.1
  dsimp only
  split_ifs with hlast
  · exact herase hlast
  · exact herase hlast
  · rw [erasedAt_append, if_neg hlast, List.append_nil]
    exact h₁

/-- **The loops of `do_gc`.** -/
theorem GcInv.loops (h : GcInv c s₀ v [] [] s₀) (hv : v < c.sp.blksPerPl)
    (hfree : ∀ q, IsPage c q → q.line = v → pageSt s₀.blk q ≠ .free) (t : Timing) :
    Sat (fun e => e = .noFreeLine ∧ openRoom c s₀ .gcIo ≤ copies s₀ (allGcPages c v))
      (fun r => GcInv c s₀ v (allGcPages c v) (erasedAt c v (gcPositions c)) r.1)
      ((gcPositions c).foldlM (gcVisit c v) (s₀, t)) := by
  refine sat_foldlM (fun pre (st : ConvFtl × Timing) =>
    GcInv c s₀ v (pre.flatMap (gcPages c v)) (erasedAt c v pre) st.1) _ ?_ h
  intro pre k post st he hI
  exact hI.visit hv he hfree

/-! ## `do_gc` on the victim -/

theorem copies_allGcPages {vpc ipc : ℕ} (hv : v < c.sp.blksPerPl)
    (hc : Counted c.sp.pgsPerLine (lineSt c s₀.blk v) vpc ipc) :
    copies s₀ (allGcPages c v) = vpc := by
  have hperm : (allGcPages c v).Perm ((List.range c.sp.pgsPerLine).map (pageAt c v)) := by
    refine (List.perm_ext_iff_of_nodup (nodup_allGcPages hv) ?_).2 ?_
    · refine List.Nodup.map_on ?_ List.nodup_range
      intro k hk k' hk' he
      rw [← (isPage_pageAt hv (List.mem_range.1 hk)).2.2, he,
        (isPage_pageAt hv (List.mem_range.1 hk')).2.2]
    · intro q
      rw [mem_allGcPages hv, List.mem_map]
      constructor
      · rintro ⟨hq, rfl⟩
        exact ⟨q.ord c, List.mem_range.2 hq.ord_lt, hq.pageAt_eq⟩
      · rintro ⟨k, hk, rfl⟩
        obtain ⟨hp, hl, -⟩ := isPage_pageAt hv (List.mem_range.1 hk)
        exact ⟨hp, hl⟩
  rw [hc.1, Tally.tally_range, copies, hperm.countP_eq, List.countP_map]
  rfl

/-- What `do_gc` does to the FTL `s`, whose line `v` is the victim. -/
structure Emptied (c : Cfg) (s : ConvFtl) (v : ℕ) (s' : ConvFtl) (pl' : ℕ → Place) : Prop where
  ok : FtlOk c s' pl'
  mapped : ∀ lpn < c.sp.ttPgs, mappedPpa (s'.maptbl lpn) = mappedPpa (s.maptbl lpn)
  kept : ∀ lpn < c.sp.ttPgs, mappedPpa (s.maptbl lpn) = true → (s.maptbl lpn).line ≠ v →
    s'.maptbl lpn = s.maptbl lpn
  free : ∀ q, IsPage c q → q.line = v → pageSt s'.blk q = .free
  erase : ∀ b, (s'.blk b).eraseCnt = (s.blk b).eraseCnt + if b.InLine c v then 1 else 0
  wp : s'.wp = s.wp
  waf : s'.stats.waf = (s.stats.gcCnt + 1, s.stats.gcValidCopied + (s.lm.lines v).vpc,
    s.stats.hostWritePages, s.stats.gcVictimVpcSum + (s.lm.lines v).vpc)
  wfc : s'.wfc = { s.wfc with creditsToRefill := u32 (s.lm.lines v).ipc }
  room : openRoom c s' .gcIo + (s.lm.lines v).vpc = openRoom c s .gcIo + c.sp.pgsPerLine
  freeList : ∃ rest, rest <:+ s.lm.freeLineList ∧ s'.lm.freeLineList = rest ++ [v]
  line : (s'.lm.lines v).vpc = 0 ∧ (s'.lm.lines v).ipc = 0

/-- The loops start on a line that was taken out of the queue. -/
theorem GcInv.start (hphys : Phys c s (update pl v .gone) (posOf c s))
    (hset : ∀ i < c.sp.blksPerPl, pl i ≠ .gone) (hmap : MapOk c s.maptbl s.rmap s.blk fun _ => False) :
    GcInv c s v [] [] s where
  phys := by
    refine ⟨_, hphys, ?_⟩
    intro i hi
    by_cases hiv : i = v
    · subst hiv; simp
    · rw [update_of_ne hiv]; simp [hiv, hset i hi]
  map := hmap.stale_congr fun q _ _ => by simp
  done_page := fun q hq => (nomatch hq)
  erased_done := fun q _ hb => (nomatch hb)
  status := fun q _ _ => rfl
  erase := fun b => rfl
  mapped := fun lpn _ => rfl
  kept := fun lpn _ _ => rfl
  moved := .refl s
  copied := rfl
  room := rfl
  free := List.suffix_rfl

/-- The line is freed after the loops. -/
theorem GcInv.finish (h : GcInv c s₀ v (allGcPages c v) (erasedAt c v (gcPositions c)) s)
    (hv : v < c.sp.blksPerPl) {p : Ppa} (hp : p.line = v) :
    ∃ pl', FtlOk c (markLineFree s p) pl' ∧
      ∀ q, IsPage c q → q.line = v → pageSt (markLineFree s p).blk q = .free := by
  obtain ⟨pl, hphys, hgone⟩ := h.phys
  have hfree : ∀ q, IsPage c q → q.line = v → pageSt s.blk q = .free := by
    intro q hq hl
    rw [h.status q hq hl, if_pos]
    refine (blkAddr_mem_erasedAt hq).2 ⟨mem_gcPositions.2 ⟨?_, hq.inLine.ch_lt, hq.inLine.lun_lt⟩, hl⟩
    exact Nat.sub_lt flashpgsPerBlk_pos.1 Nat.one_pos
  subst hp
  have hpos : posOf c (markLineFree s p) = posOf c s := posOf_congr rfl rfl
  refine ⟨update pl p.line .free, ⟨?_, ?_, ?_⟩, hfree⟩
  · rw [hpos]
    refine markLineFree_phys hphys hv ((hgone _ hv).2 rfl) ?_
    intro k hk
    obtain ⟨hq, hl, -⟩ := isPage_pageAt hv hk
    exact hfree _ hq hl
  · intro i hi
    by_cases hiv : i = p.line
    · subst hiv; simp
    · rw [update_of_ne hiv, Ne, hgone i hi]; exact hiv
  · refine h.map.stale_congr ?_
    intro q hq hval
    refine ⟨False.elim, fun hm => ?_⟩
    rw [hfree q hq (h.done_page q hm).2] at hval
    cases hval

theorem Selecting.ftl (h : Selecting c s v s') : s'.maptbl = s.maptbl ∧ s'.rmap = s.rmap ∧
    s'.blk = s.blk ∧ s'.wp = s.wp ∧ s'.gcWp = s.gcWp ∧ s'.wfc = s.wfc ∧
    s'.lm.freeLineList = s.lm.freeLineList ∧ s'.lm.freeLineCnt = s.lm.freeLineCnt := by
  rw [h.shelf, h.frame]; exact ⟨rfl, rfl, rfl, rfl, rfl, rfl, rfl, rfl⟩

theorem Sampled.ftl' (h : Sampled s s') : s'.maptbl = s.maptbl ∧ s'.rmap = s.rmap ∧
    s'.wfc = s.wfc ∧ s'.lm.freeLineList = s.lm.freeLineList ∧
    s'.lm.freeLineCnt = s.lm.freeLineCnt ∧ s'.stats.waf = s.stats.waf := by
  rw [h.stats, h.frame]; exact ⟨rfl, rfl, rfl, rfl, rfl, rfl⟩

/-- **`do_gc` empties the victim**: the only way it can fail is that the free
    lines run out before all valid pages are copied. -/
theorem collectLine_emptied (h : FtlOk c s pl) {s₁ : ConvFtl} (hT : Taken c s pl v s₁) (t : Timing)
    (force : Bool) :
    Sat (fun e => e = .noFreeLine ∧ openRoom c s .gcIo ≤ (s.lm.lines v).vpc)
      (fun r => ∃ pl', Emptied c s v r.1 pl') (collectLine c s₁ t force v) := by
  obtain ⟨hm₁, hr₁, hb₁, hw₁, hg₁, hf₁, hl₁, hc₁⟩ := hT.selecting.ftl
  have hsame₁ := hT.selecting.line v
  have hwaf₁ := hT.selecting.waf
  unfold collectLine
  have hs := isotonicCensorSelected_sampled (c := c) s₁ v
  have hphys₂ := hs.phys hT.phys
  generalize isotonicCensorSelected c s₁ v = s₂ at hs hphys₂
  obtain ⟨-, hb₂, hw₂, hg₂, -⟩ := hs.ftl
  obtain ⟨hm₂, hr₂, hf₂, hl₂, hc₂, hwaf₂⟩ := hs.ftl'
  have hsame := hsame₁.trans (hs.line v)
  have hid : (s₂.lm.lines v).id = v := hphys₂.shelved.id_eq v hT.lt
  dsimp only
  rw [hid, hsame.vpc, hsame.ipc]
  -- the state the loops start from
  obtain ⟨s₃, hs₃⟩ : ∃ s₃ : ConvFtl, s₃ = { s₂ with
    stats := s₂.stats.countGc force (s.lm.lines v).vpc
    wfc := { s₂.wfc with creditsToRefill := u32 (s.lm.lines v).ipc } } := ⟨_, rfl⟩
  rw [← hs₃]
  have hm₃ : s₃.maptbl = s.maptbl := by rw [hs₃, ← hm₁, ← hm₂]
  have hr₃ : s₃.rmap = s.rmap := by rw [hs₃, ← hr₁, ← hr₂]
  have hb₃ : s₃.blk = s.blk := by rw [hs₃, ← hb₁, ← hb₂]
  have hw₃ : s₃.wp = s.wp := by rw [hs₃, ← hw₁, ← hw₂]
  have hl₃ : s₃.lm.freeLineList = s.lm.freeLineList := by rw [hs₃, ← hl₁, ← hl₂]
  have hwfc₃ : s₃.wfc = { s.wfc with creditsToRefill := u32 (s.lm.lines v).ipc } := by
    rw [hs₃, ← hf₁, ← hf₂]
  have hpos₃ : posOf c s₃ = posOf c s := by
    refine posOf_congr hw₃ ?_
    rw [hs₃, ← hg₁, ← hg₂]
  have hroom₃ : openRoom c s₃ .gcIo = openRoom c s .gcIo := by
    rw [openRoom, openRoom, hpos₃]
    rw [hs₃, ← hc₁, ← hc₂]
  have hwaf₃ : s₃.stats.waf = (s.stats.gcCnt + 1, s.stats.gcValidCopied, s.stats.hostWritePages,
      s.stats.gcVictimVpcSum + (s.lm.lines v).vpc) := by
    have he := hwaf₂.trans hwaf₁
    simp only [GcStats.waf, Prod.mk.injEq] at he ⊢
    obtain ⟨h₁, h₂, h₃, h₄⟩ := he
    rw [hs₃]
    exact ⟨congrArg (· + 1) h₁, h₂, h₃, congrArg (· + (s.lm.lines v).vpc) h₄⟩
  have hphys₃ : Phys c s₃ (update pl v .gone) (posOf c s₃) := by
    rw [hpos₃, ← posOf_congr (c := c) hw₁ hg₁]
    refine hphys₂.congr ?_ ?_ ?_
    · rw [hs₃]
    · rw [hs₃]
    · intro io
      rw [hs₃]
      exact ConvFtl.getWp_congr rfl rfl io
  have hstart : GcInv c s₃ v [] [] s₃ := by
    refine .start hphys₃ h.settled ?_
    rw [hm₃, hr₃, hb₃]
    exact h.map
  have hvc := h.phys.line_counted v hT.lt (h.settled v hT.lt)
  have hcop : copies s₃ (allGcPages c v) = (s.lm.lines v).vpc := by
    rw [← hb₃] at hvc
    exact copies_allGcPages hT.lt hvc
  have hpages := h.phys.pages v hT.lt
  rw [hT.place] at hpages
  have hne : ∀ q, IsPage c q → q.line = v → pageSt s₃.blk q ≠ .free := by
    rintro q hq rfl
    rw [hb₃, ← hq.lineSt_eq]
    exact hpages.1 _ hq.ord_lt
  refine Sat.bind ((hstart.loops hT.lt hne t).mono ?_ fun _ hI => hI) ?_
  · rintro e ⟨rfl, hroom⟩
    rw [hcop, hroom₃] at hroom
    exact ⟨rfl, hroom⟩
  rintro ⟨s₄, t₄⟩ hI
  change GcInv c s₃ v _ _ s₄ at hI
  have hline : (Ppa.store 0 0 0 v 0).line = v :=
    (isPage_store ⟨c.geo.nchs_pos, c.geo.luns_pos, Geometry.pgsPerBlk_pos⟩ hT.lt).2.1
  obtain ⟨pl', hok, hfree⟩ := hI.finish hT.lt hline
  have hframe := hI.moved.frame
  have hcopied := hI.copied
  have hroom := hI.room
  rw [hcop] at hcopied hroom
  refine ⟨pl', hok, ?_, ?_, hfree, ?_, ?_, ?_, ?_, ?_, ⟨s₄.lm.freeLineList, ?_, ?_⟩, ?_, ?_⟩
  · intro lpn hlpn
    exact (hI.mapped lpn hlpn).trans (by rw [hm₃])
  · intro lpn hlpn _ hl
    rw [← hm₃] at hl ⊢
    exact hI.kept lpn hlpn fun hm => hl ((mem_allGcPages hT.lt).1 hm).2
  · intro b
    rw [← hb₃, ← count_erasedAt]
    exact hI.erase b
  · change s₄.wp = s.wp
    rw [hframe, ← hw₃]
  · change s₄.stats.waf = _
    simp only [GcStats.waf, Prod.mk.injEq] at hwaf₃ ⊢
    obtain ⟨h₁, h₂, h₃, h₄⟩ := hwaf₃
    refine ⟨?_, by rw [hcopied, h₂], ?_, ?_⟩
    · rw [hframe]; exact h₁
    · rw [hframe]; exact h₃
    · rw [hframe]; exact h₄
  · change s₄.wfc = _
    rw [hframe, ← hwfc₃]
  · rw [← hroom₃, ← hroom]
    have hpos : posOf c (markLineFree s₄ (.store 0 0 0 v 0)) .gcIo = posOf c s₄ .gcIo :=
      congrFun (posOf_congr rfl rfl) _
    have hcnt : (markLineFree s₄ (.store 0 0 0 v 0)).lm.freeLineCnt = s₄.lm.freeLineCnt + 1 := rfl
    rw [openRoom, hpos, hcnt, openRoom, Nat.add_one_mul]
    omega
  · rw [← hl₃]; exact hI.free
  · change s₄.lm.freeLineList ++ [(Ppa.store 0 0 0 v 0).line] = _
    rw [hline]
  · dsimp only [markLineFree]
    rw [hline, update_self]
  · dsimp only [markLineFree]
    rw [hline, update_self]

/-! ## `do_gc` -/

/-- A selection from the shelved lines of `s`. -/
def Selects (c : Cfg) (s : ConvFtl) (pl : ℕ → Place) (E : Fault → Prop) (force : Bool) : Prop :=
  Sat E (fun r => Selection c s force r ∧ ∀ v, r.1 = some v → Taken c s pl v r.2)
    (selectVictimLine c s force)

theorem selects_greedy (hpol : c.build.policy = .greedy) (h : FtlOk c s pl) (force : Bool) :
    Selects c s pl (fun e => c.build.isoLogSamples = true ∧ e = .wildPointer) force := by
  unfold Selects selectVictimLine
  rw [hpol]
  exact selectVictimGreedy_taken hpol h.phys force

/-- What `do_gc` does: nothing, or it empties a line of the queue. -/
inductive GcDone (c : Cfg) (s : ConvFtl) (pl : ℕ → Place) (force : Bool) :
    Bool → ConvFtl → (ℕ → Place) → Prop where
  | idle (h : selectVictimLine c s force = .ok (none, s))
      (hnull : force = true → s.lm.victimLinePq.size = 1) : GcDone c s pl force false s pl
  | collected {v : ℕ} {s₁ s' : ConvFtl} {pl' : ℕ → Place}
      (hsel : selectVictimLine c s force = .ok (some v, s₁)) (hT : Taken c s pl v s₁)
      (hE : Emptied c s v s' pl') : GcDone c s pl force true s' pl'

/-- **`do_gc`** on an FTL whose lines are shelved. -/
theorem doGc_done {E : Fault → Prop} {force : Bool} (h : FtlOk c s pl)
    (hsel : Selects c s pl E force) (t : Timing) :
    Sat (fun e => E e ∨ e = .noFreeLine ∧ ∃ v < c.sp.blksPerPl, pl v = .victim ∧
        openRoom c s .gcIo ≤ (s.lm.lines v).vpc)
      (fun r => ∃ pl', GcDone c s pl force r.1 r.2.1 pl') (doGc c s t force) := by
  unfold doGc
  unfold Selects at hsel
  cases hr : selectVictimLine c s force with
  | error e =>
    rw [hr] at hsel
    exact .inl hsel
  | ok r =>
    rw [hr] at hsel
    obtain ⟨hs, htaken⟩ := hsel
    rcases r with ⟨_ | v, s₁⟩
    · -- nothing was selected
      obtain ⟨rfl, hnull⟩ := hs
      refine ⟨pl, .idle hr fun hf => ?_⟩
      have hpos := h.phys.shelved.linked.size_pos
      rcases hnull hf with h0 | hpeek
      · omega
      · by_contra hne
        obtain ⟨v, -, -, hd⟩ := h.phys.shelved.slot (k := 1) le_rfl (by omega)
        rw [Pqueue.pqueuePeek, if_neg hne, hd] at hpeek
        cases hpeek
    · have hT := htaken v rfl
      rw [ok_bind]
      dsimp only
      refine Sat.bind ((collectLine_emptied h hT t force).mono ?_ fun _ h => h) ?_
      · rintro e ⟨rfl, hroom⟩
        exact .inr ⟨rfl, v, hT.lt, hT.place, hroom⟩
      · rintro ⟨s', t'⟩ ⟨pl', hE⟩
        exact ⟨pl', .collected hr hT hE⟩

theorem GcDone.ftlOk {force done : Bool} (hg : GcDone c s pl force done s' pl')
    (h : FtlOk c s pl) : FtlOk c s' pl' := by
  cases hg with
  | idle => exact h
  | collected _ _ hE => exact hE.ok

end WaitGc

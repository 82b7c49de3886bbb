/-
  WAITGC verification — where an FTL stands.

  `Stands` gives the free lines of an FTL, the positions of its write pointers, its credits,
  and the logical pages that are mapped and that the two open lines hold.  A host write
  moves it (`Stands.page`, `Stands.lastPage`), and a check of the credits under the greedy
  policy finds no victim (`Stands.check_idle`), empties the only one
  (`Stands.check_collect`) or runs out of lines (`Stands.check_fails`).
-/
import WaitGc.Proof.GcFrame
import WaitGc.Proof.Occupancy

namespace WaitGc

open Outcome Function

variable {c : Cfg} {s s' : ConvFtl} {E : Fault → Prop} {pl pl' : ℕ → Place} {f u g w r i v lpn : ℕ}
  {m a z x : Finset ℕ}

/-! ## Where an FTL stands -/

/-- The body of the loop of `conv_write`, as the FTL sees it. -/
def writePage (c : Cfg) (s : ConvFtl) (lpn nsecsLatest : ℕ) (t : Timing) :
    Except Fault (ConvFtl × Timing) := do
  let (_, s) ← convWriteFtl c s lpn nsecsLatest
  checkAndRefillWriteCredit c (consumeWriteCredit s) t

/-- The same, up to the check of the credits. -/
def hostWrite (c : Cfg) (s : ConvFtl) (lpn nsecsLatest : ℕ) : Except Fault ConvFtl :=
  (convWriteFtl c s lpn nsecsLatest).map fun x => consumeWriteCredit x.2

theorem writePage_eq {n : ℕ} (h : hostWrite c s lpn n = .ok s') (t : Timing) :
    writePage c s lpn n t = checkAndRefillWriteCredit c s' t := by
  obtain ⟨x, hx, rfl⟩ := exists_ok_of_map h
  unfold writePage
  rw [hx, ok_bind]

/-- The free lines of an FTL, the positions of its write pointers, its credits, and the pages
    that are mapped and that the two open lines hold. -/
structure Stands (c : Cfg) (s : ConvFtl) (free user gc credits refill : ℕ) (mapped userLpns gcLpns : Finset ℕ) :
    Prop where
  ok : ∃ pl, FtlOk c s pl
  free : s.lm.freeLineCnt = free
  user : posOf c s .userIo = user
  gc : posOf c s .gcIo = gc
  wfc : s.wfc = ⟨credits, refill⟩
  mapped : mappedLpns c s = mapped
  userLine : lineLpns c s s.wp.curline = userLpns
  gcLine : lineLpns c s s.gcWp.curline = gcLpns

theorem Stands.spaceLeft_eq (h : Stands c s f u g w r m a z) :
    spaceLeft c s = f * c.sp.pgsPerLine + (c.sp.pgsPerLine - u) + (c.sp.pgsPerLine - g) := by
  rw [spaceLeft, openRoom, h.free, h.user, h.gc]

theorem lines_inj {n x y : ℕ} (h : f * n + x = g * n + y) (hx : 0 < x) (hxn : x ≤ n) (hy : 0 < y)
    (hyn : y ≤ n) : f = g ∧ x = y := by
  have hle {f g x y : ℕ} (h : f * n + x = g * n + y) (hx : 0 < x) (hyn : y ≤ n) : f ≤ g := by
    by_contra hlt
    have hmul := Nat.mul_le_mul_right n (show g + 1 ≤ f by omega)
    rw [Nat.add_one_mul] at hmul
    omega
  obtain rfl : f = g := le_antisymm (hle h hx hyn) (hle h.symm hy hxn)
  exact ⟨rfl, Nat.add_left_cancel h⟩

theorem FtlOk.curline_ne (h : FtlOk c s pl) : s.gcWp.curline ≠ s.wp.curline := by
  intro he
  have hg := (h.phys.opened .gcIo _ (h.phys.wp_ok .gcIo).lt).2 rfl
  have hu := (h.phys.opened .userIo _ (h.phys.wp_ok .userIo).lt).2 rfl
  change pl s.gcWp.curline = _ at hg
  change pl s.wp.curline = _ at hu
  rw [he, hu] at hg
  cases hg

/-- A line whose pointer is at its first page holds nothing. -/
theorem FtlOk.curline_empty (h : FtlOk c s pl) (io : IoType) (hpos : posOf c s io = 0) :
    lineLpns c s (s.getWp io).curline = ∅ := by
  have hsum := h.opened_counters io
  rw [hpos, h.vpc_eq (h.phys.wp_ok io).lt] at hsum
  exact Finset.card_eq_zero.1 (by omega)

theorem FtlOk.setWfc (h : FtlOk c s pl) (wfc : WriteFlowControl) : FtlOk c { s with wfc := wfc } pl :=
  h.congr rfl rfl rfl rfl rfl rfl

/-- The FTL `s'` after a host write of `lpn`, whatever becomes of the user's line. -/
structure StandsAfter (c : Cfg) (s : ConvFtl) (f u g w r lpn nsecs : ℕ) (m a z : Finset ℕ) (s' : ConvFtl) : Prop where
  written : hostWrite c s lpn nsecs = .ok s'
  ok : ∃ pl, FtlOk c s' pl
  gc : posOf c s' .gcIo = g
  wfc : s'.wfc = ⟨w, r⟩
  mapped : mappedLpns c s' = insert lpn m
  userLine : lineLpns c s' s.wp.curline = insert lpn a
  gcWp : s'.gcWp = s.gcWp
  gcLine : lineLpns c s' s'.gcWp.curline = z.erase lpn
  room : s'.lm.freeLineCnt * c.sp.pgsPerLine + (c.sp.pgsPerLine - posOf c s' .userIo) + 1 =
    f * c.sp.pgsPerLine + (c.sp.pgsPerLine - u)
  curline : u + 1 < c.sp.pgsPerLine → s'.wp.curline = s.wp.curline

/-- **A host write**, where the line or the free lines have room. -/
theorem Stands.wrote (h : Stands c s f u g (w + 1) r m a z) (hw : w + 1 < 2 ^ 32) (hlpn : lpn < c.sp.ttPgs)
    (hroom : u + 1 < c.sp.pgsPerLine ∨ 0 < f) (n : ℕ) : ∃ s', StandsAfter c s f u g w r lpn n m a z s' := by
  obtain ⟨pl, hok⟩ := h.ok
  have hwrote := convWriteFtl_ok hok hlpn n
  have hcur (hpos : posOf c s .userIo + 1 < c.sp.pgsPerLine) :
      Yields (fun x => x.2.wp.curline = s.wp.curline) (convWriteFtl c s lpn n) := convWriteFtl_curline hok hpos
  cases hr : convWriteFtl c s lpn n with
  | error e =>
    -- it has one page left at most
    rw [hr] at hwrote
    have hopen := hwrote.2
    rw [openRoom, h.free, h.user] at hopen
    have hu := posOf_lt hok.phys .userIo
    rw [h.user] at hu
    rcases hroom with hu' | hf
    · omega
    · have hmul := Nat.mul_le_mul_right c.sp.pgsPerLine hf
      omega
  | ok x =>
    rw [hr] at hwrote hcur
    obtain ⟨p, s₁⟩ := x
    obtain ⟨pl', hwrote⟩ := hwrote
    have hgc := hwrote.gcWp
    have hlines := hwrote.lineLpns_eq hok hlpn
    have hroom' := hwrote.room
    have hcons : consumeWriteCredit s₁ = _ := consumeWriteCredit_eq
      (by rw [hwrote.wfc, h.wfc]; exact Nat.succ_pos w) (by rw [hwrote.wfc, h.wfc]; exact hw)
    rw [hwrote.wfc, h.wfc] at hcons
    dsimp only at hcons
    rw [Nat.add_sub_cancel] at hcons
    rw [openRoom, openRoom, h.free, h.user] at hroom'
    refine ⟨{ s₁ with wfc := ⟨w, r⟩ }, ?_, ⟨pl', hwrote.ok.setWfc _⟩, ?_, rfl, ?_, ?_, hgc, ?_, hroom', ?_⟩
    · unfold hostWrite
      rw [hr, ← hcons]
      rfl
    · change posOf c s₁ .gcIo = g
      rw [← h.gc, posOf, posOf, ConvFtl.getWp, ConvFtl.getWp, hgc]
    · change mappedLpns c s₁ = _
      rw [hwrote.mappedLpns_eq hok hlpn, h.mapped]
    · change lineLpns c s₁ _ = _
      rw [hlines, if_pos rfl, h.userLine]
    · change lineLpns c s₁ s₁.gcWp.curline = _
      rw [hlines, hgc, if_neg hok.curline_ne, h.gcLine]
    · intro hu
      exact hcur (by rw [h.user]; exact hu)

/-- A page inside the line. -/
theorem Stands.page (h : Stands c s f u g (w + 1) r m a z) (hw : w + 1 < 2 ^ 32) (hlpn : lpn < c.sp.ttPgs)
    (hu : u + 1 < c.sp.pgsPerLine) (n : ℕ) :
    ∃ s', hostWrite c s lpn n = .ok s' ∧
      Stands c s' f (u + 1) g w r (insert lpn m) (insert lpn a) (z.erase lpn) := by
  obtain ⟨s', hw⟩ := h.wrote hw hlpn (.inl hu) n
  have hroom := hw.room
  obtain ⟨pl, hok⟩ := hw.ok
  have hlt := posOf_lt hok.phys .userIo
  obtain ⟨hfree, hpos⟩ := lines_inj (f := s'.lm.freeLineCnt) (g := f) (n := c.sp.pgsPerLine)
    (x := c.sp.pgsPerLine - posOf c s' .userIo) (y := c.sp.pgsPerLine - (u + 1)) (by omega) (by omega)
    (by omega) (by omega) (by omega)
  refine ⟨s', hw.written, hw.ok, hfree, by omega, hw.gc, hw.wfc, hw.mapped, ?_, hw.gcLine⟩
  rw [hw.curline hu]
  exact hw.userLine

/-- A closed line that holds the pages `x`. -/
def HoldsClosed (c : Cfg) (s : ConvFtl) (x : Finset ℕ) : Prop :=
  ∃ i < c.sp.blksPerPl, i ≠ s.wp.curline ∧ i ≠ s.gcWp.curline ∧ lineLpns c s i = x

/-- The last page of the line, with a free one to follow. -/
theorem Stands.lastPage (h : Stands c s (f + 1) u g (w + 1) r m a z) (hw : w + 1 < 2 ^ 32)
    (hlpn : lpn < c.sp.ttPgs) (hu : u + 1 = c.sp.pgsPerLine) (n : ℕ) :
    ∃ s', hostWrite c s lpn n = .ok s' ∧
      Stands c s' f 0 g w r (insert lpn m) ∅ (z.erase lpn) ∧ HoldsClosed c s' (insert lpn a) := by
  obtain ⟨pl₀, hok₀⟩ := h.ok
  obtain ⟨s', hw⟩ := h.wrote hw hlpn (.inr (Nat.succ_pos f)) n
  have hroom := hw.room
  obtain ⟨pl, hok⟩ := hw.ok
  have hlt := posOf_lt hok.phys .userIo
  rw [Nat.add_one_mul] at hroom
  obtain ⟨hfree, hpos⟩ := lines_inj (f := s'.lm.freeLineCnt) (g := f) (n := c.sp.pgsPerLine)
    (x := c.sp.pgsPerLine - posOf c s' .userIo) (y := c.sp.pgsPerLine) (by omega) (by omega)
    (by omega) (by omega) le_rfl
  have hzero : posOf c s' .userIo = 0 := by omega
  have hempty : lineLpns c s' s'.wp.curline = ∅ := hok.curline_empty .userIo hzero
  refine ⟨s', hw.written, ⟨hw.ok, hfree, hzero, hw.gc, hw.wfc, hw.mapped, hempty, hw.gcLine⟩,
    s.wp.curline, (hok₀.phys.wp_ok .userIo).lt, ?_, ?_, hw.userLine⟩
  · -- the new line is empty
    intro hcur
    rw [← hcur, hw.userLine] at hempty
    exact Finset.insert_ne_empty _ _ hempty
  · rw [hw.gcWp]
    exact hok₀.curline_ne.symm

/-- A line that holds a page and is not open is used up. -/
theorem FtlOk.closed_of_mem (h : FtlOk c s pl) (hl : lpn ∈ lineLpns c s i) (hu : i ≠ s.wp.curline)
    (hg : i ≠ s.gcWp.curline) : i < c.sp.blksPerPl ∧ (pl i = .full ∨ pl i = .victim) := by
  obtain ⟨⟨hlpn, hm⟩, hline⟩ := mem_lineLpns.1 hl
  have hi : i < c.sp.blksPerPl := hline ▸ (h.map.image lpn hlpn hm).1.line_lt
  refine ⟨hi, ?_⟩
  cases hp : pl i with
  | full => exact .inl rfl
  | victim => exact .inr rfl
  | free =>
    have hcard := Finset.card_pos.2 ⟨lpn, hl⟩
    rw [← h.vpc_eq hi, h.free_counters hi hp] at hcard
    exact absurd hcard (lt_irrefl 0)
  | opened io =>
    have hcur := (h.phys.opened io i hi).1 hp
    cases io with
    | userIo => exact absurd hcur hu
    | gcIo => exact absurd hcur hg
  | gone => exact absurd hp (h.settled i hi)

/-- A closed line with an invalid page is in the victim queue. -/
theorem HoldsClosed.victim (h : HoldsClosed c s x) (hok : FtlOk c s pl) (hx : x.Nonempty)
    (hlt : x.card < c.sp.pgsPerLine) : ∃ i < c.sp.blksPerPl, lineLpns c s i = x ∧ pl i = .victim ∧
      (s.lm.lines i).vpc = x.card ∧ x.card + (s.lm.lines i).ipc = c.sp.pgsPerLine := by
  obtain ⟨i, hi, hu, hg, hline⟩ := h
  obtain ⟨lpn, hlpn⟩ := hx
  have hclosed := (hok.closed_of_mem (hline ▸ hlpn) hu hg).2
  have hvpc := hok.vpc_eq hi
  have hsum := hok.closed_counters hi hclosed
  rw [hline] at hvpc
  refine ⟨i, hi, hline, ?_, hvpc, hvpc ▸ hsum⟩
  rcases hclosed with hp | hp
  · have hfull := hok.full_counters hi hp
    omega
  · exact hp

/-! ## The check of the credits -/

theorem Stands.refill (h : Stands c s f u g 0 r m a z) (hr : r < 2 ^ 32) : Stands c s.refill f u g r r m a z := by
  have hwfc : s.refill = { s with wfc := ⟨r, r⟩ } := by
    unfold ConvFtl.refill
    rw [h.wfc]
    dsimp only
    rw [Nat.zero_add, u32, Nat.mod_eq_of_lt hr]
  obtain ⟨pl, hok⟩ := h.ok
  rw [hwfc]
  exact ⟨⟨pl, hok.setWfc _⟩, h.free, h.user, h.gc, rfl, h.mapped, h.userLine, h.gcLine⟩

/-- The collector's line holds no mapped page: its used pages are invalid. -/
theorem Stands.gc_ipc (h : Stands c s f u g w r m a ∅) (hok : FtlOk c s pl) :
    (s.lm.lines s.gcWp.curline).ipc = g := by
  have hsum : (s.lm.lines s.gcWp.curline).vpc + (s.lm.lines s.gcWp.curline).ipc = posOf c s .gcIo :=
    hok.opened_counters .gcIo
  have hvpc : (s.lm.lines s.gcWp.curline).vpc = (lineLpns c s s.gcWp.curline).card :=
    hok.vpc_eq (hok.phys.wp_ok .gcIo).lt
  rw [hvpc, h.gcLine, h.gc, Finset.card_empty, Nat.zero_add] at hsum
  exact hsum

/-- A line of the queue is not the collector's. -/
theorem FtlOk.gc_ne_victim (h : FtlOk c s pl) (hp : pl v = .victim) : s.gcWp.curline ≠ v := by
  rintro rfl
  have hopen := (h.phys.opened .gcIo _ (h.phys.wp_ok .gcIo).lt).2 rfl
  change pl s.gcWp.curline = _ at hopen
  rw [hopen] at hp
  cases hp

theorem Emptied.lineLpns_subset (hE : Emptied c s v s' pl) (hi : i ≠ v) :
    lineLpns c s i ⊆ lineLpns c s' i := by
  intro lpn hl
  obtain ⟨⟨hlpn, hm⟩, hline⟩ := mem_lineLpns.1 hl
  have hkept := hE.kept lpn hlpn hm (by rw [hline]; exact hi)
  rw [mem_lineLpns, hkept]
  exact ⟨⟨hlpn, hm⟩, hline⟩

/-- What a line holds after a collection was there, or in the victim. -/
theorem Emptied.mem_line (hE : Emptied c s v s' pl) (hl : lpn ∈ lineLpns c s' i) :
    lpn ∈ lineLpns c s v ∨ lpn ∈ lineLpns c s i := by
  obtain ⟨⟨hlpn, hm⟩, hline⟩ := mem_lineLpns.1 hl
  rw [hE.mapped lpn hlpn] at hm
  by_cases hv : (s.maptbl lpn).line = v
  · exact .inl (mem_lineLpns.2 ⟨⟨hlpn, hm⟩, hv⟩)
  · rw [hE.kept lpn hlpn hm hv] at hline
    exact .inr (mem_lineLpns.2 ⟨⟨hlpn, hm⟩, hline⟩)

/-- Where the only victim was collected: it becomes the only free line, and its pages move to the
    collector's line. -/
theorem Stands.collected (h : Stands c s 0 0 0 0 r m ∅ ∅) (hok : FtlOk c s pl)
    (hx : lineLpns c s v = x) (hvpc : (s.lm.lines v).vpc = x.card)
    (hipc : x.card + (s.lm.lines v).ipc = c.sp.pgsPerLine)
    (honly : ∀ i < c.sp.blksPerPl, pl i = .victim → i = v) (hP : c.sp.pgsPerLine < 2 ^ 32)
    (hsum : c.sp.ttPgs = c.sp.pgsPerLine - x.card + m.card + 2 * c.sp.pgsPerLine) (hE : Emptied c s v s' pl') :
    Stands c s'.refill 1 0 x.card (c.sp.pgsPerLine - x.card) (c.sp.pgsPerLine - x.card) m ∅ x := by
  have hspace := h.spaceLeft_eq
  rw [Nat.zero_mul] at hspace
  -- the victim is the free line
  obtain ⟨rest, hsuf, hfree⟩ := hE.freeList
  have hlen := hsuf.length_le
  have hcnt := hE.ok.phys.shelved.freeCnt
  rw [hfree, List.length_append, List.length_singleton] at hcnt
  rw [← hok.phys.shelved.freeCnt, h.free] at hlen
  have hone : s'.lm.freeLineCnt = 1 := by omega
  have hroom := hE.room
  have hgc := posOf_lt hE.ok.phys .gcIo
  rw [openRoom, openRoom, hone, h.free, h.gc, hvpc] at hroom
  have hpos : posOf c s' .gcIo = x.card := by omega
  have huser : posOf c s' .userIo = 0 := by
    rw [← h.user, posOf, posOf, ConvFtl.getWp, ConvFtl.getWp, hE.wp]
  -- the credits
  have hwfc : s'.refill.wfc = ⟨c.sp.pgsPerLine - x.card, c.sp.pgsPerLine - x.card⟩ := by
    unfold ConvFtl.refill
    rw [hE.wfc, h.wfc]
    dsimp only
    rw [Nat.zero_add, u32, u32, Nat.mod_mod, Nat.mod_eq_of_lt (by omega),
      show (s.lm.lines v).ipc = c.sp.pgsPerLine - x.card by omega]
  -- no page is invalid
  have hmapped := hE.mappedLpns_eq
  rw [h.mapped] at hmapped
  have hlt' : s'.gcWp.curline < c.sp.blksPerPl := (hE.ok.phys.wp_ok .gcIo).lt
  have hgcIpc := hE.ok.ipc_le hlt'
  have hgain := hE.spaceLeft_add
  have hopen : (s'.lm.lines s'.gcWp.curline).vpc + (s'.lm.lines s'.gcWp.curline).ipc = posOf c s' .gcIo :=
    hE.ok.opened_counters .gcIo
  rw [hmapped] at hgcIpc
  have hcard : (lineLpns c s' s'.gcWp.curline).card = x.card := by
    rw [← hE.ok.vpc_eq hlt']
    omega
  have hline : lineLpns c s' s'.gcWp.curline = x := by
    refine Finset.eq_of_subset_of_card_le (fun lpn hl => ?_) hcard.ge
    rcases hE.mem_line hl with hv | hl'
    · exact hx ▸ hv
    -- the other closed lines are full, and would be too much for the collector's line
    have hu : s'.gcWp.curline ≠ s.wp.curline := by
      intro he
      rw [he, h.userLine] at hl'
      exact absurd hl' (Finset.notMem_empty lpn)
    have hg : s'.gcWp.curline ≠ s.gcWp.curline := by
      intro he
      rw [he, h.gcLine] at hl'
      exact absurd hl' (Finset.notMem_empty lpn)
    rcases (hok.closed_of_mem hl' hu hg).2 with hp | hp
    · have hfull := hok.full_counters hlt' hp
      have hle : (lineLpns c s s'.gcWp.curline).card ≤ (lineLpns c s' s'.gcWp.curline).card := by
        refine Finset.card_le_card (hE.lineLpns_subset ?_)
        rintro rfl
        omega
      rw [hok.vpc_eq hlt'] at hfull
      omega
    · rw [honly _ hlt' hp, hx] at hl'
      exact hl'
  exact ⟨⟨pl', hE.ok.setWfc _⟩, hone, huser, hpos, hwfc, hmapped, hE.ok.curline_empty .userIo huser, hline⟩

section greedy
variable (hpol : c.build.policy = .greedy) (hiso : c.build.isoLogSamples = false)
include hpol hiso

/-- A check without credits, by what a forced collection finds. -/
theorem FtlOk.check_cases (h : FtlOk c s pl) (h0 : s.wfc.writeCredits = 0) {Q : ConvFtl → Prop}
    (hnone : (shouldGcHigh c s = true → ∀ v < c.sp.blksPerPl, pl v ≠ .victim) → Q s.refill)
    (hshort : ∀ v < c.sp.blksPerPl, pl v = .victim → openRoom c s .gcIo ≤ (s.lm.lines v).vpc → E .noFreeLine)
    (hcol : ∀ v < c.sp.blksPerPl, pl v = .victim → ∀ s' pl', Emptied c s v s' pl' → Q s'.refill) (t : Timing) :
    Sat E (fun x => Q x.1) (checkAndRefillWriteCredit c s t) := by
  rw [checkAndRefill_eq, if_pos h0]
  split_ifs with hlow
  · have hdone := doGc_done h (selects_greedy hpol h true) t
    refine Sat.map_ok (hdone.mono ?_ fun _ h => h) ?_
    · rintro e (⟨hi, -⟩ | ⟨rfl, v, hv, hp, hroom⟩)
      · rw [hiso] at hi
        cases hi
      · exact hshort v hv hp hroom
    · rintro ⟨b, s', t'⟩ ⟨pl', hdone⟩
      change Q s'.refill
      cases hdone with
      | idle _ hnull =>
        refine hnone fun _ v hv hp => ?_
        have hmem := h.phys.shelved.member hv hp
        have hone := hnull rfl
        omega
      | collected _ hT hE => exact hcol _ hT.lt hT.place _ _ hE
  · exact hnone fun hhigh => absurd hhigh hlow

/-- A check without a victim reclaims nothing, and gives its credits all the same: the invalid
    pages are all in the collector's line. -/
theorem Stands.check_idle (h : Stands c s f u g 0 r m a ∅) (hr : r < 2 ^ 32)
    (hsum : c.sp.ttPgs ≤ g + m.card + (f * c.sp.pgsPerLine + (c.sp.pgsPerLine - u) + (c.sp.pgsPerLine - g)))
    (t : Timing) :
    Sat E (fun x => Stands c x.1 f u g r r m a ∅) (checkAndRefillWriteCredit c s t) := by
  obtain ⟨pl, hok⟩ := h.ok
  have hnone : ∀ v < c.sp.blksPerPl, pl v ≠ .victim := by
    intro v hv hp
    have hle := hok.ipc_add_le (hok.phys.wp_ok .gcIo).lt hv (hok.gc_ne_victim hp)
    have hpos := (hok.victim_counters hv hp).1
    change (s.lm.lines s.gcWp.curline).ipc + _ + _ + _ ≤ _ at hle
    rw [h.gc_ipc hok, h.mapped, h.spaceLeft_eq] at hle
    omega
  refine hok.check_cases hpol hiso (by rw [h.wfc]) (Q := fun s' => Stands c s' f u g r r m a ∅)
    (fun _ => h.refill hr) ?_ ?_ t
  · exact fun v hv hp => absurd hp (hnone v hv)
  · exact fun v hv hp => absurd hp (hnone v hv)

/-- A check without a free line, with one victim: the victim becomes the only free line, and its
    pages move to the collector's. -/
theorem Stands.check_collect (h : Stands c s 0 0 0 0 r m ∅ ∅) (hx : HoldsClosed c s x) (hne : x.Nonempty)
    (hlt : x.card < c.sp.pgsPerLine) (hP : c.sp.pgsPerLine < 2 ^ 32)
    (hsum : c.sp.ttPgs = c.sp.pgsPerLine - x.card + m.card + 2 * c.sp.pgsPerLine) (t : Timing) :
    Sat E (fun y => Stands c y.1 1 0 x.card (c.sp.pgsPerLine - x.card) (c.sp.pgsPerLine - x.card) m ∅ x)
      (checkAndRefillWriteCredit c s t) := by
  obtain ⟨pl, hok⟩ := h.ok
  have hspace := h.spaceLeft_eq
  rw [Nat.zero_mul] at hspace
  obtain ⟨i, hi, hline, hvic, hvpc, hipc⟩ := hx.victim hok hne hlt
  have honly : ∀ v < c.sp.blksPerPl, pl v = .victim → v = i := by
    intro v hv hp
    by_contra hvi
    have hle := hok.ipc_add_le hv hi hvi
    have hpos := (hok.victim_counters hv hp).1
    rw [h.mapped] at hle
    omega
  have hcounters := hok.victim_counters hi hvic
  refine hok.check_cases hpol hiso (by rw [h.wfc])
    (Q := fun s' => Stands c s' 1 0 x.card (c.sp.pgsPerLine - x.card) (c.sp.pgsPerLine - x.card) m ∅ x)
    (fun hn => ?_) (fun v hv hp hshort => ?_) ?_ t
  · refine absurd hvic (hn ?_ i hi)
    rw [shouldGcHigh, h.free]
    exact decide_eq_true (Nat.zero_le _)
  · rw [honly v hv hp, openRoom, h.free, h.gc] at hshort
    omega
  · intro v hv hp s' pl' hE
    obtain rfl := honly v hv hp
    exact h.collected hok hline hvpc hipc honly hP hsum hE

/-- A check without a free line, whose victims leave more than the collector's line has room for. -/
theorem Stands.check_fails (h : Stands c s 0 0 g 0 r m ∅ ∅) (hx : HoldsClosed c s x) (hne : x.Nonempty)
    (hlt : x.card < c.sp.pgsPerLine) (hroom : c.sp.pgsPerLine ≤ g + x.card)
    (hsum : c.sp.ttPgs = c.sp.pgsPerLine - x.card + g + m.card + c.sp.pgsPerLine + (c.sp.pgsPerLine - g))
    (t : Timing) : Sat (fun f => f = .noFreeLine) (fun _ => False) (checkAndRefillWriteCredit c s t) := by
  obtain ⟨pl, hok⟩ := h.ok
  have hspace := h.spaceLeft_eq
  rw [Nat.zero_mul] at hspace
  obtain ⟨i, hi, -, hvic, -, -⟩ := hx.victim hok hne hlt
  refine hok.check_cases hpol hiso (by rw [h.wfc]) (E := fun f => f = .noFreeLine) (Q := fun _ => False)
    (fun hn => ?_) (fun _ _ _ _ => rfl) ?_ t
  · refine hn ?_ i hi hvic
    rw [shouldGcHigh, h.free]
    exact decide_eq_true (Nat.zero_le _)
  · intro v hv hp s' pl' hE
    have hle := hok.ipc_add_le (hok.phys.wp_ok .gcIo).lt hv (hok.gc_ne_victim hp)
    change (s.lm.lines s.gcWp.curline).ipc + _ + _ + _ ≤ _ at hle
    rw [h.gc_ipc hok, h.mapped] at hle
    have hcounters := (hok.victim_counters hv hp).2
    -- the victim is free, and the collector's line still has a free page
    obtain ⟨rest, -, hfree⟩ := hE.freeList
    have hcnt := hE.ok.phys.shelved.freeCnt
    rw [hfree, List.length_append, List.length_singleton] at hcnt
    have hgain := hE.room
    have hgc := posOf_lt hE.ok.phys .gcIo
    rw [openRoom, openRoom, hcnt, h.free, h.gc, Nat.add_one_mul, Nat.zero_mul] at hgain
    omega

end greedy

/-- A page inside the line, with credits to spare. -/
theorem Stands.write_inside (h : Stands c s f u g (w + 2) r m a z) (hw : w + 2 < 2 ^ 32) (hlpn : lpn < c.sp.ttPgs)
    (hu : u + 1 < c.sp.pgsPerLine) (n : ℕ) (t : Timing) :
    Sat E (fun x => Stands c x.1 f (u + 1) g (w + 1) r (insert lpn m) (insert lpn a) (z.erase lpn))
      (writePage c s lpn n t) := by
  obtain ⟨s', he, h'⟩ := h.page hw hlpn hu n
  rw [writePage_eq he, checkAndRefill_eq, if_neg (by rw [h'.wfc]; exact Nat.succ_ne_zero w)]
  exact h'

end WaitGc

/-
  WAITGC verification — what a deallocate unmaps.

  `conv_discard` walks the pages that its ranges touch and unmaps those that are mapped
  (`TrimInv`), so every page that is wholly inside a range loses its mapping and the
  counter grows by the pages that lost one.  Both ends of a range are rounded outwards:
  a page at an end is unmapped as well, though some of its sectors are not in any range
  (`deallocate_partial_page`).  `deallocate_exact_iff` says when this does not happen.
-/
import WaitGc.Proof.Devices
import WaitGc.Proof.System

namespace WaitGc

open Outcome Function

variable {c : Cfg} {s s' : ConvFtl} {d d' : Dev} {lpn now n : ℕ} {ranges : ℕ → DsmRange}
  {E : Fault → Prop}

/-! ## Pages of the namespace -/

/-- The entry of a page of the namespace. -/
def Dev.entry (c : Cfg) (d : Dev) (lpn : ℕ) : Ppa :=
  (d.ftls (lpn % c.nrParts)).maptbl (lpn / c.nrParts)

/-- The page is mapped. -/
def Dev.Mapped (c : Cfg) (d : Dev) (lpn : ℕ) : Prop := mappedPpa (d.entry c lpn) = true

instance (lpn : ℕ) : Decidable (d.Mapped c lpn) := inferInstanceAs (Decidable (_ = _))

/-- The status of the flash page of a page. -/
def Dev.pageStatus (c : Cfg) (d : Dev) (lpn : ℕ) : PgStatus :=
  (d.ftls (lpn % c.nrParts)).status (d.entry c lpn)

/-- The pages of the namespace. -/
def nsPages (c : Cfg) : ℕ := c.nrParts * c.sp.ttPgs

theorem lt_nsPages : lpn < nsPages c ↔ lpn / c.nrParts < c.sp.ttPgs := by
  rw [nsPages, Nat.div_lt_iff_lt_mul c.nrParts_pos, Nat.mul_comm]

theorem setFtl_entry (d : Dev) (s : ConvFtl) (lpn lpn' : ℕ) :
    (d.setFtl (lpn % c.nrParts) s).entry c lpn' =
      if lpn' % c.nrParts = lpn % c.nrParts then s.maptbl (lpn' / c.nrParts) else d.entry c lpn' := by
  rw [Dev.entry, setFtl_ftls]
  split_ifs <;> rfl

theorem sum_setFtl {f : ConvFtl → ℕ} {part k : ℕ} (hpart : part < c.nrParts)
    (hf : f s = f (d.ftls part) + k) : (d.setFtl part s).sum c f = d.sum c f + k := by
  have h := setFtl_sum d hpart s f
  omega

/-! ## One page -/

theorem discardFtl_unmapped (hm : ¬ mappedPpa (s.maptbl lpn) = true) : discardFtl c s lpn now = .ok s := by
  unfold discardFtl
  dsimp only
  rw [if_pos (by simp [hm])]
  rfl

/-- A mapped page is unmapped, and counted. -/
theorem discardFtl_mapped (h : FtlInv c s) (hlpn : lpn < c.sp.ttPgs)
    (hm : mappedPpa (s.maptbl lpn) = true) (now : ℕ) :
    ∃ s', discardFtl c s lpn now = .ok s' ∧ FtlInv c s' ∧
      s'.maptbl = update s.maptbl lpn .unmapped ∧ s'.dsmInvalidatedPages = s.dsmInvalidatedPages + 1 := by
  have hinv := (ftlInv_rules c fun _ => True).discard s lpn now h hlpn
  obtain ⟨⟨pl, hok⟩, -⟩ := h
  obtain ⟨s', he, hs'⟩ := discardFtl_ok hok hlpn now
  rw [he] at hinv
  -- the branch that unmaps was taken
  have hframe := (discardFtl_yields (c := c) s lpn now).of_ok he
  have hcount : s'.maptbl lpn = .unmapped ∧ s'.dsmInvalidatedPages = s.dsmInvalidatedPages + 1 := by
    obtain ⟨hp, -⟩ := hok.map.image lpn hlpn hm
    unfold discardFtl at he
    dsimp only at he
    rw [if_neg (by simp [hm, hp.1])] at he
    obtain ⟨s₁, hs₁, he⟩ := bind_eq_ok he
    have hdsm := ((invalidateOldPage_yields (c := c) _ _).of_ok hs₁).1
    cases he
    exact ⟨update_self _ _ _, by rw [hdsm]⟩
  refine ⟨s', he, hinv, ?_, hcount.2⟩
  rcases hs' with rfl | ⟨pl', hd⟩
  · rw [hcount.1] at hm
    exact absurd hm (by decide)
  · exact hd.maptbl

/-- The loop of `conv_discard` after the pages `pre`. -/
structure TrimInv (c : Cfg) (d d' : Dev) (pre : List ℕ) : Prop where
  inv : ∀ part < c.nrParts, FtlInv c (d'.ftls part)
  entry : ∀ lpn, d'.entry c lpn = if lpn ∈ pre ∧ d.Mapped c lpn then .unmapped else d.entry c lpn
  count : d'.sum c (·.dsmInvalidatedPages) = d.sum c (·.dsmInvalidatedPages) +
    (pre.toFinset.filter fun lpn => d.Mapped c lpn).card

/-- **One page of the loop.** -/
theorem TrimInv.step {pre : List ℕ} (h : TrimInv c d d' pre) (hlpn : lpn < nsPages c) (now : ℕ) :
    ∃ d'', discardLpn c now d' lpn = .ok d'' ∧ TrimInv c d d'' (pre ++ [lpn]) := by
  have hpart := Nat.mod_lt lpn c.nrParts_pos
  have hentry := h.entry lpn
  have hunmapped : ¬ mappedPpa .unmapped = true := by decide
  have hpre : (pre ++ [lpn]).toFinset = insert lpn pre.toFinset := by
    ext x
    simp
  by_cases hm : d'.Mapped c lpn
  · -- it is mapped still
    have hnew : lpn ∉ pre ∧ d.Mapped c lpn := by
      rw [Dev.Mapped, hentry] at hm
      by_cases hin : lpn ∈ pre ∧ d.Mapped c lpn
      · rw [if_pos hin] at hm
        exact absurd hm hunmapped
      · rw [if_neg hin] at hm
        exact ⟨fun hmem => hin ⟨hmem, hm⟩, hm⟩
    obtain ⟨s', he, hinv, hmaptbl, hdsm⟩ := discardFtl_mapped (h.inv _ hpart) (lt_nsPages.1 hlpn) hm now
    refine ⟨d'.setFtl (lpn % c.nrParts) s', by rw [discardLpn, he]; rfl, ?_, fun x => ?_, ?_⟩
    · intro part hp
      rw [setFtl_ftls]
      split_ifs
      · exact hinv
      · exact h.inv part hp
    · rw [setFtl_entry, hmaptbl]
      by_cases hx : x = lpn
      · subst hx
        rw [if_pos rfl, update_self, if_pos ⟨by simp, hnew.2⟩]
      · have hkeep : (if x % c.nrParts = lpn % c.nrParts then
            update ((d'.ftls (lpn % c.nrParts)).maptbl) (lpn / c.nrParts) .unmapped (x / c.nrParts)
            else d'.entry c x) = d'.entry c x := by
          split_ifs with hmod
          · have hdiv : x / c.nrParts ≠ lpn / c.nrParts := by
              intro hdiv
              exact hx (by rw [← Nat.div_add_mod x c.nrParts, ← Nat.div_add_mod lpn c.nrParts, hdiv, hmod])
            rw [update_of_ne hdiv, Dev.entry, hmod]
          · rfl
        rw [hkeep, h.entry x]
        simp [hx]
    · have hsum := sum_setFtl (f := fun s => s.dsmInvalidatedPages) hpart hdsm
      have hnotin : lpn ∉ pre.toFinset.filter fun lpn => d.Mapped c lpn := by simp [hnew.1]
      rw [hsum, h.count, hpre, Finset.filter_insert, if_pos hnew.2, Finset.card_insert_of_notMem hnotin]
      exact Nat.add_assoc _ _ _
  · -- a hole, or unmapped before
    refine ⟨d', ?_, h.inv, fun x => ?_, ?_⟩
    · rw [discardLpn, discardFtl_unmapped hm, ok_bind]
      refine congrArg Except.ok ?_
      rw [Dev.setFtl, update_eq_self]
    · rw [h.entry x]
      by_cases hx : x = lpn
      · subst hx
        by_cases hmem : x ∈ pre
        · simp [hmem]
        · -- it was a hole
          rw [Dev.Mapped, hentry, if_neg fun hin => hmem hin.1] at hm
          have hno : ¬ d.Mapped c x := hm
          simp [hno]
      · simp [hx]
    · rw [h.count, hpre, Finset.filter_insert]
      refine congrArg _ ?_
      split_ifs with hmd
      · have hmem : lpn ∈ pre := by
          by_contra hmem
          rw [Dev.Mapped, hentry, if_neg fun hin => hmem hin.1] at hm
          exact hm hmd
        rw [Finset.insert_eq_of_mem (by simp [hmem, hmd])]
      · rfl

/-! ## Ranges -/

/-- The range is inside the namespace. -/
structure RangeInBounds (c : Cfg) (r : DsmRange) : Prop where
  blocks : r.slba.toNat + r.nlb.toNat ≤ 2 ^ 64
  pages : r.nlb ≠ 0 → (r.slba.toNat + r.nlb.toNat - 1) / c.sp.secsPerPg / c.nrParts < c.sp.ttPgs

/-- The sector `x` is in the range. -/
def DsmRange.Has (r : DsmRange) (x : ℕ) : Prop := r.slba.toNat ≤ x ∧ x < r.slba.toNat + r.nlb.toNat

/-- Every sector of the page is in `P`. -/
def PageIn (c : Cfg) (P : ℕ → Prop) (lpn : ℕ) : Prop :=
  ∀ x, lpn * c.sp.secsPerPg ≤ x → x < (lpn + 1) * c.sp.secsPerPg → P x

/-- The sector `x` is in one of the first `n` ranges. -/
def InRanges (ranges : ℕ → DsmRange) (n x : ℕ) : Prop := ∃ i < n, (ranges i).Has x

/-- The page of the first block of a range. -/
def firstPage (c : Cfg) (r : DsmRange) : ℕ := r.slba.toNat / c.sp.secsPerPg

/-- The page of its last block. -/
def lastPage (c : Cfg) (r : DsmRange) : ℕ := (r.slba.toNat + r.nlb.toNat - 1) / c.sp.secsPerPg

theorem nlb_pos {r : DsmRange} (h : r.nlb ≠ 0) : 0 < r.nlb.toNat :=
  Nat.pos_of_ne_zero fun h0 => h (BitVec.eq_of_toNat_eq h0)

/-- **The pages that `conv_discard` walks.** -/
theorem mem_discardLpns {r : DsmRange} (h : RangeInBounds c r) :
    lpn ∈ discardLpns c r ↔ r.nlb ≠ 0 ∧ firstPage c r ≤ lpn ∧ lpn ≤ lastPage c r := by
  unfold discardLpns
  by_cases h0 : r.nlb = 0
  · rw [if_pos h0]
    simp [h0]
  have hpos := nlb_pos h0
  have hblocks := h.blocks
  have hend : endLpn c.sp r.slba r.nlb.toNat = lastPage c r := by
    rw [endLpn, u64, Nat.mod_eq_of_lt (by omega), lastPage]
  have hpages : lastPage c r / c.nrParts < c.sp.ttPgs := h.pages h0
  rw [if_neg h0]
  dsimp only
  rw [hend, if_neg (Nat.not_le.2 hpages), lpnRange, List.mem_range'_1, startLpn]
  change firstPage c r ≤ lpn ∧ lpn < firstPage c r + (lastPage c r + 1 - firstPage c r) ↔ _
  constructor
  · rintro ⟨h₁, h₂⟩
    exact ⟨h0, h₁, by omega⟩
  · rintro ⟨-, h₁, h₂⟩
    exact ⟨h₁, by omega⟩

theorem walked_of_pageIn {r : DsmRange} (h : PageIn c r.Has lpn) :
    r.nlb ≠ 0 ∧ firstPage c r ≤ lpn ∧ lpn ≤ lastPage c r := by
  have hsecs := c.geo.secs_pos
  change 0 < c.sp.secsPerPg at hsecs
  have hnext : (lpn + 1) * c.sp.secsPerPg = lpn * c.sp.secsPerPg + c.sp.secsPerPg := Nat.succ_mul _ _
  obtain ⟨h₁, -⟩ := h (lpn * c.sp.secsPerPg) le_rfl (by omega)
  obtain ⟨-, h₂⟩ := h (lpn * c.sp.secsPerPg) le_rfl (by omega)
  refine ⟨fun h0 => ?_, ?_, (Nat.le_div_iff_mul_le hsecs).2 (by omega)⟩
  · rw [h0] at h₂
    simp at h₂
    omega
  · exact (Nat.div_le_div_right h₁).trans (Nat.mul_div_cancel _ hsecs).le

theorem pageIn_of_between {r : DsmRange} (hfirst : firstPage c r < lpn) (hlast : lpn < lastPage c r) :
    PageIn c r.Has lpn := by
  have hsecs := c.geo.secs_pos
  change 0 < c.sp.secsPerPg at hsecs
  intro x hx hx'
  have h₁ : (firstPage c r + 1) * c.sp.secsPerPg ≤ lpn * c.sp.secsPerPg := Nat.mul_le_mul_right _ hfirst
  have h₂ : (lpn + 1) * c.sp.secsPerPg ≤ lastPage c r * c.sp.secsPerPg := Nat.mul_le_mul_right _ hlast
  have h₃ : r.slba.toNat < (firstPage c r + 1) * c.sp.secsPerPg :=
    Nat.lt_mul_of_div_lt (Nat.lt_succ_self _) hsecs
  have h₄ : lastPage c r * c.sp.secsPerPg ≤ r.slba.toNat + r.nlb.toNat - 1 := Nat.div_mul_le_self _ _
  exact ⟨by omega, by omega⟩

/-! ## The command -/

/-- The number of ranges of a command. -/
def DsmCommand.nrRanges (dsm : DsmCommand) : ℕ := dsm.nr.toNat % 256 + 1

/-- A deallocate of the first `n` ranges unmaps the trimmed pages and no others. -/
structure TrimExact (c : Cfg) (d d' : Dev) (ranges : ℕ → DsmRange) (n : ℕ) : Prop where
  only : ∀ lpn, d.Mapped c lpn → ¬ d'.Mapped c lpn → PageIn c (InRanges ranges n) lpn
  covered : ∀ i < n, ∀ lpn, PageIn c (ranges i).Has lpn → ¬ d'.Mapped c lpn
  kept : ∀ lpn, ¬ (d.Mapped c lpn ∧ ¬ d'.Mapped c lpn) → d'.entry c lpn = d.entry c lpn ∧
    (lpn < nsPages c → d.Mapped c lpn → d'.pageStatus c lpn = d.pageStatus c lpn)
  counted : d'.sum c (·.dsmInvalidatedPages) = d.sum c (·.dsmInvalidatedPages) +
    ((Finset.range (nsPages c)).filter fun lpn => d.Mapped c lpn ∧ ¬ d'.Mapped c lpn).card

/-- The pages at the ends of the ranges are unmapped, or the ranges hold all of their sectors. -/
def TrimAligned (c : Cfg) (d : Dev) (ranges : ℕ → DsmRange) (n : ℕ) : Prop :=
  ∀ i < n, (ranges i).nlb ≠ 0 → ∀ lpn, lpn = firstPage c (ranges i) ∨ lpn = lastPage c (ranges i) →
    d.Mapped c lpn → PageIn c (InRanges ranges n) lpn

/-- The status of a mapped page. -/
theorem pageStatus_mapped (h : ∀ part < c.nrParts, FtlInv c (d.ftls part)) (hlpn : lpn < nsPages c)
    (hm : d.Mapped c lpn) : d.pageStatus c lpn = .valid := by
  obtain ⟨⟨pl, hok⟩, -⟩ := h _ (Nat.mod_lt lpn c.nrParts_pos)
  exact (hok.map.image _ (lt_nsPages.1 hlpn) hm).2.1

/-- **The loop of `conv_discard`.** -/
theorem convDiscard_trim {dsm : DsmCommand} (hinv : ∀ part < c.nrParts, FtlInv c (d.ftls part))
    (had : dsm.attributes.getLsbD 2 = true) (hlist : dsm.dsmRanges = some ranges)
    (hin : ∀ i < dsm.nrRanges, RangeInBounds c (ranges i)) (now : ℕ) :
    ∃ d', convDiscard c d dsm now = .ok (⟨.success, now⟩, d') ∧
      TrimInv c d d' ((List.range dsm.nrRanges).flatMap fun i => discardLpns c (ranges i)) := by
  have hloop : Sat (fun _ => False)
      (TrimInv c d · ((List.range dsm.nrRanges).flatMap fun i => discardLpns c (ranges i)))
      (((List.range dsm.nrRanges).flatMap fun i => discardLpns c (ranges i)).foldlM (discardLpn c now) d) := by
    refine sat_foldlM (fun pre (d' : Dev) => TrimInv c d d' pre) _ ?_ ⟨hinv, by simp, by simp⟩
    intro pre lpn post d₁ hl h
    have hmem : lpn ∈ (List.range dsm.nrRanges).flatMap fun i => discardLpns c (ranges i) := by
      rw [hl]
      simp
    obtain ⟨i, hi, hlpn⟩ := List.mem_flatMap.1 hmem
    have hr := hin i (List.mem_range.1 hi)
    obtain ⟨h0, -, hle⟩ := (mem_discardLpns hr).1 hlpn
    obtain ⟨d₂, he, h₂⟩ := h.step (lt_nsPages.2 ((Nat.div_le_div_right hle).trans_lt (hr.pages h0))) now
    rw [he]
    exact h₂
  obtain ⟨d', he, h⟩ := hloop.exists_ok fun _ h => h
  refine ⟨d', ?_, h⟩
  unfold convDiscard
  rw [if_neg (by simp [had]), hlist]
  dsimp only
  rw [show dsm.nr.toNat % 256 + 1 = dsm.nrRanges from rfl, he]
  rfl

theorem TrimInv.unmapped_iff {pre : List ℕ} (h : TrimInv c d d' pre) :
    d.Mapped c lpn ∧ ¬ d'.Mapped c lpn ↔ d.Mapped c lpn ∧ lpn ∈ pre := by
  refine and_congr_right fun hm => ?_
  rw [Dev.Mapped, h.entry lpn]
  by_cases hmem : lpn ∈ pre
  · rw [if_pos ⟨hmem, hm⟩]
    exact iff_of_true (by decide) hmem
  · rw [if_neg fun hc => hmem hc.1]
    exact iff_of_false (fun hno => hno hm) hmem

/-- The FTL is in the invariant, as long as the collections took lines of the queue. -/
theorem ftlInv_of_run {junk : ℕ → ℕ → Slot} {clock : ℕ → ℕ} {dev : Dev} {es : List Event} {d : Device}
    (hinit : convInitNamespace c junk clock = .ok dev) (hrun : (device c).run ⟨dev, none⟩ es = .ok d)
    (hsel : c.build.policy = .greedy ∨ (device c).Along (GcIn c (Collectable c E)) ⟨dev, none⟩ es) :
    ∀ part < c.nrParts, FtlInv c (d.dev.ftls part) := by
  have h₀ : DevInv c (fun _ => FtlInv c) ⟨dev, none⟩ := devInv_init (initial_inv c) hinit
  rcases hsel with hpol | hG
  · exact fun part hpart => greedy_inv hpol ⟨junk, clock, dev, es, hinit, hrun⟩ hpart
  · exact (((ftlInv_rules c E).run h₀ hG).of_ok hrun).ftl

/-- **When a deallocate affects exactly the trimmed pages**: in a state that a run reached in
    which every collection took a line of the queue (as the greedy one always does), a
    command with the deallocate bit does so iff each end of each range falls on a page
    that is unmapped or whose sectors are all in the ranges. -/
theorem deallocate_exact_iff {junk : ℕ → ℕ → Slot} {clock : ℕ → ℕ} {dev : Dev} {es : List Event}
    {d : Device} (hinit : convInitNamespace c junk clock = .ok dev)
    (hrun : (device c).run ⟨dev, none⟩ es = .ok d)
    (hsel : c.build.policy = .greedy ∨ (device c).Along (GcIn c (Collectable c E)) ⟨dev, none⟩ es)
    {dsm : DsmCommand} (had : dsm.attributes.getLsbD 2 = true) (hlist : dsm.dsmRanges = some ranges)
    (hin : ∀ i < dsm.nrRanges, RangeInBounds c (ranges i)) (now : ℕ) :
    ∃ d', convDiscard c d.dev dsm now = .ok (⟨.success, now⟩, d') ∧
      (TrimExact c d.dev d' ranges dsm.nrRanges ↔ TrimAligned c d.dev ranges dsm.nrRanges) := by
  have hinv := ftlInv_of_run hinit hrun hsel
  obtain ⟨d', he, h⟩ := convDiscard_trim hinv had hlist hin now
  have hmem : ∀ lpn, lpn ∈ ((List.range dsm.nrRanges).flatMap fun i => discardLpns c (ranges i)) ↔
      ∃ i < dsm.nrRanges, (ranges i).nlb ≠ 0 ∧ firstPage c (ranges i) ≤ lpn ∧ lpn ≤ lastPage c (ranges i) := by
    intro lpn
    rw [List.mem_flatMap]
    constructor
    · rintro ⟨i, hi, hlpn⟩
      have hi := List.mem_range.1 hi
      exact ⟨i, hi, (mem_discardLpns (hin i hi)).1 hlpn⟩
    · rintro ⟨i, hi, hlpn⟩
      exact ⟨i, List.mem_range.2 hi, (mem_discardLpns (hin i hi)).2 hlpn⟩
  refine ⟨d', he, fun hexact i hi h0 lpn hend hm => ?_, fun haligned => ⟨?_, ?_, ?_, ?_⟩⟩
  · -- both ends are walked
    have hle : firstPage c (ranges i) ≤ lastPage c (ranges i) := by
      have hpos := nlb_pos h0
      exact Nat.div_le_div_right (by omega)
    have hwalk : lpn ∈ ((List.range dsm.nrRanges).flatMap fun i => discardLpns c (ranges i)) := by
      refine (hmem lpn).2 ⟨i, hi, h0, ?_⟩
      rcases hend with rfl | rfl
      · exact ⟨le_rfl, hle⟩
      · exact ⟨hle, le_rfl⟩
    exact hexact.only lpn hm (h.unmapped_iff.2 ⟨hm, hwalk⟩).2
  · intro lpn hm hno
    obtain ⟨i, hi, h0, hfirst, hlast⟩ := (hmem lpn).1 (h.unmapped_iff.1 ⟨hm, hno⟩).2
    rcases hfirst.eq_or_lt with heq | hfirst
    · exact haligned i hi h0 lpn (.inl heq.symm) hm
    rcases hlast.eq_or_lt with heq | hlast
    · exact haligned i hi h0 lpn (.inr heq) hm
    · exact fun x hx hx' => ⟨i, hi, pageIn_of_between hfirst hlast x hx hx'⟩
  · intro i hi lpn hpage hm'
    have hwalk := (hmem lpn).2 ⟨i, hi, walked_of_pageIn hpage⟩
    rw [Dev.Mapped, h.entry lpn] at hm'
    by_cases hm : d.dev.Mapped c lpn
    · rw [if_pos ⟨hwalk, hm⟩] at hm'
      exact absurd hm' (by decide)
    · rw [if_neg fun hc => hm hc.2] at hm'
      exact hm hm'
  · intro lpn hkept
    have hentry : d'.entry c lpn = d.dev.entry c lpn := by
      rw [h.entry lpn, if_neg]
      rintro ⟨hwalk, hm⟩
      exact hkept (h.unmapped_iff.2 ⟨hm, hwalk⟩)
    refine ⟨hentry, fun hlpn hm => ?_⟩
    have hm' : d'.Mapped c lpn := by
      rw [Dev.Mapped, hentry]
      exact hm
    rw [pageStatus_mapped h.inv hlpn hm', pageStatus_mapped hinv hlpn hm]
  · rw [h.count]
    refine congrArg _ (congrArg Finset.card ?_)
    ext lpn
    rw [Finset.mem_filter, Finset.mem_filter, h.unmapped_iff, List.mem_toFinset, Finset.mem_range]
    constructor
    · rintro ⟨hwalk, hm⟩
      obtain ⟨i, hi, h0, -, hlast⟩ := (hmem lpn).1 hwalk
      exact ⟨lt_nsPages.2 ((Nat.div_le_div_right hlast).trans_lt ((hin i hi).pages h0)), hm, hwalk⟩
    · rintro ⟨-, hm, hwalk⟩
      exact ⟨hwalk, hm⟩

/-- A deallocate of the first `k` sectors. -/
def trimSectors (k : BitVec 32) : DsmCommand := ⟨0, 4, some fun _ => ⟨k, 0⟩⟩

/-- A deallocate of one sector unmaps the page with its seven other sectors. -/
theorem deallocate_partial_page : ∃ dev d d',
    convInitNamespace tinyCfg (fun _ _ => .null) (fun _ => 0) = .ok dev ∧
      (device tinyCfg).run ⟨dev, none⟩ onePageRun = .ok d ∧
      convDiscard tinyCfg d.dev (trimSectors 1) 0 = .ok (⟨.success, 0⟩, d') ∧
      ¬ TrimExact tinyCfg d.dev d' (fun _ => ⟨1, 0⟩) (trimSectors 1).nrRanges := by
  have hmap : (convInitNamespace tinyCfg (fun _ _ => .null) (fun _ => 0) >>= fun dev =>
      (device tinyCfg).run ⟨dev, none⟩ onePageRun >>= fun d =>
        (convDiscard tinyCfg d.dev (trimSectors 1) 0).map fun r =>
          (decide (d.dev.Mapped tinyCfg 0), decide (r.2.Mapped tinyCfg 0))) = .ok (true, false) := by
    decide +kernel
  obtain ⟨dev, hinit, hmap⟩ := bind_eq_ok hmap
  obtain ⟨d, hrun, hmap⟩ := bind_eq_ok hmap
  obtain ⟨⟨ret, d'⟩, hdiscard, hmapped⟩ := exists_ok_of_map hmap
  rw [Prod.mk.injEq] at hmapped
  have hret : ret = ⟨.success, 0⟩ := by
    obtain ⟨d₁, -, h⟩ := bind_eq_ok hdiscard
    cases h
    rfl
  subst hret
  refine ⟨dev, d, d', hinit, hrun, hdiscard, fun hexact => ?_⟩
  -- sector 1 of the page is in no range
  obtain ⟨i, -, -, hlt⟩ := hexact.only 0 (of_decide_eq_true hmapped.1) (of_decide_eq_false hmapped.2) 1
    (by decide) (by decide)
  have hno : ¬ 1 < (0 : BitVec 64).toNat + (1 : BitVec 32).toNat := by decide
  exact hno hlt

theorem deallocate_exact_iff_page : ∃ dev d d',
    convInitNamespace tinyCfg (fun _ _ => .null) (fun _ => 0) = .ok dev ∧
      (device tinyCfg).run ⟨dev, none⟩ onePageRun = .ok d ∧
      convDiscard tinyCfg d.dev (trimSectors 8) 0 = .ok (⟨.success, 0⟩, d') ∧
      TrimExact tinyCfg d.dev d' (fun _ => ⟨8, 0⟩) (trimSectors 8).nrRanges := by
  have hmap : (convInitNamespace tinyCfg (fun _ _ => .null) (fun _ => 0) >>= fun dev =>
      ((device tinyCfg).run ⟨dev, none⟩ onePageRun).map fun d => decide (d.dev.Mapped tinyCfg 0)) =
        .ok true := by
    decide +kernel
  obtain ⟨dev, hinit, hmap⟩ := bind_eq_ok hmap
  obtain ⟨d, hrun, -⟩ := exists_ok_of_map hmap
  have hin : ∀ i < (trimSectors 8).nrRanges, RangeInBounds tinyCfg ⟨8, 0⟩ :=
    fun _ _ => ⟨by decide, fun _ => by decide⟩
  obtain ⟨d', hdiscard, hiff⟩ := deallocate_exact_iff (E := fun _ => False) hinit hrun (.inl rfl)
    (rfl : (trimSectors 8).attributes.getLsbD 2 = true) rfl hin 0
  refine ⟨dev, d, d', hinit, hrun, hdiscard, hiff.2 ?_⟩
  intro i hi _ lpn hlpn _ x hx hx'
  have h0 : lpn = 0 := by
    rcases hlpn with h | h
    · exact h.trans (by decide : firstPage tinyCfg ⟨8, 0⟩ = 0)
    · exact h.trans (by decide : lastPage tinyCfg ⟨8, 0⟩ = 0)
  subst h0
  exact ⟨i, hi, Nat.zero_le x, hx'⟩

end WaitGc

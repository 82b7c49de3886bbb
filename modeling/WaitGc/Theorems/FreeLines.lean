/-
  WAITGC verification — the free lines of the greedy build.

  A check of the credits reclaims a line and gives the pages it won, or finds more than two
  free lines.  `RoomInv`: the pages that can still be written stay two lines ahead of the
  credits, and so neither write pointer ever misses a line.

  A forced collection that finds the victim queue empty reclaims nothing, and the credits
  are refilled all the same, with what the last victim gave (`RefillRoom`).  `shortRun` fills
  the lines, has half a line collected into the collector's open line, and makes that half
  invalid there, where no collection finds it.
-/
import WaitGc.Theorems.LbaRange
import WaitGc.Theorems.PageWrites
import WaitGc.Theorems.WriteCredits
import Mathlib.Order.Interval.Finset.Nat

namespace WaitGc

open Outcome Function

variable {c : Cfg} {s s' : ConvFtl} {d d' : Device} {e : Event} {part : ℕ} {flag : Bool}
  {E : Fault → Prop} {pl : ℕ → Place}

/-! ## The invariant -/

/-- The space of an FTL; `flag` while its credits are to be checked. -/
structure RoomInv (c : Cfg) (flag : Bool) (s : ConvFtl) : Prop where
  credits : CreditInv c flag s
  room : 2 * c.sp.pgsPerLine + s.wfc.writeCredits ≤ spaceLeft c s

/-- The victim queue is empty. -/
def ConvFtl.NoVictim (s : ConvFtl) : Prop := s.lm.victimLinePq.size = 1

instance (s : ConvFtl) : Decidable s.NoVictim := inferInstanceAs (Decidable (_ = _))

/-- `do_gc` will select a line of the queue, or there is room for the credits it leaves. -/
def RefillSafe (c : Cfg) (E : Fault → Prop) (s : ConvFtl) : Prop :=
  Collectable c E s ∧ (s.NoVictim → 2 * c.sp.pgsPerLine + s.wfc.creditsToRefill ≤ spaceLeft c s)

/-- Two lines of space: no line is missed by a collection. -/
theorem FtlOk.collection_room (h : FtlOk c s pl) (hroom : 2 * c.sp.pgsPerLine ≤ spaceLeft c s) {v : ℕ}
    (hv : v < c.sp.blksPerPl) (hp : pl v = .victim) : (s.lm.lines v).vpc < openRoom c s .gcIo := by
  obtain ⟨hpos, hsum⟩ := h.victim_counters hv hp
  rw [spaceLeft, openRoom] at hroom
  rw [openRoom]
  cases hfree : s.lm.freeLineCnt with
  | zero =>
    rw [hfree] at hroom
    omega
  | succ n =>
    rw [Nat.add_one_mul]
    omega

/-- **The three ways an FTL changes keep two lines of space**, and no line is missed. -/
theorem roomInv_rules (hP : c.sp.pgsPerLine < 2 ^ 32) (hthres : 2 ≤ c.cp.gcThresLinesHigh) :
    FtlRules c E (RefillSafe c E) (RoomInv c) where
  write s lpn nsecs h hlpn := by
    obtain ⟨pl, hok⟩ := h.credits.inv.1
    have hcredits := (creditInv_rules hP (E := fun _ => False)).write s lpn nsecs h.credits hlpn
    have hpos := h.credits.pos rfl
    have hroom := h.room
    have hwrote := convWriteFtl_ok hok hlpn nsecs
    cases hw : convWriteFtl c s lpn nsecs with
    | error f =>
      rw [hw] at hwrote
      have hline : 0 < c.sp.pgsPerLine := c.geo.pgsPerLine_pos
      rw [spaceLeft, hwrote.2] at hroom
      omega
    | ok r =>
      rw [hw] at hcredits hwrote
      obtain ⟨pl', hwrote⟩ := hwrote
      refine ⟨hcredits, ?_⟩
      have hspace := hwrote.spaceLeft_succ
      have hle := h.credits.le
      rw [if_neg (by simp)] at hle
      have hcons : consumeWriteCredit r.2 = _ :=
        consumeWriteCredit_eq (by rw [hwrote.wfc]; exact hpos) (by rw [hwrote.wfc]; omega)
      rw [hcons, hwrote.wfc]
      change 2 * c.sp.pgsPerLine + (s.wfc.writeCredits - 1) ≤ spaceLeft c r.2
      omega
  discard s lpn now h hlpn := by
    obtain ⟨pl, hok⟩ := h.credits.inv.1
    have hcredits := (creditInv_rules hP (E := fun _ => False)).discard s lpn now h.credits hlpn
    obtain ⟨s', he, hd⟩ := discardFtl_ok hok hlpn now
    rw [he] at hcredits ⊢
    refine ⟨hcredits, ?_⟩
    rcases hd with rfl | ⟨pl', hd⟩
    · exact h.room
    · rw [hd.wfc, spaceLeft_congr hd.freeCnt hd.posOf]
      exact h.room
  refill s t h hsafe := by
    obtain ⟨pl, hok⟩ := h.credits.inv.1
    have hcredits := (creditInv_rules hP).refill s t h.credits fun hdue => (hsafe hdue).1
    have hroom := h.room
    rw [checkAndRefill_eq] at hcredits ⊢
    by_cases h0 : s.wfc.writeCredits = 0
    swap
    · rw [if_neg h0] at hcredits ⊢
      exact ⟨hcredits, hroom⟩
    rw [if_pos h0] at hcredits ⊢
    have hrefill (s' : ConvFtl) (hw : s'.wfc.writeCredits = 0) (hinv : CreditInv c false s'.refill)
        (hroom : 2 * c.sp.pgsPerLine + s'.wfc.creditsToRefill ≤ spaceLeft c s') :
        RoomInv c false s'.refill := by
      refine ⟨hinv, ?_⟩
      have hle : u32 (s'.wfc.writeCredits + s'.wfc.creditsToRefill) ≤ s'.wfc.creditsToRefill := by
        rw [hw, Nat.zero_add]
        exact Nat.mod_le _ _
      change 2 * c.sp.pgsPerLine + u32 (s'.wfc.writeCredits + s'.wfc.creditsToRefill) ≤ spaceLeft c s'
      omega
    by_cases hlow : shouldGcHigh c s = true
    swap
    · -- more than two lines are free
      rw [if_neg hlow] at hcredits ⊢
      refine hrefill s h0 hcredits ?_
      have hle := h.credits.refill_le
      have hfree : 3 ≤ s.lm.freeLineCnt := by
        simp only [shouldGcHigh, decide_eq_true_eq, not_le] at hlow
        omega
      have hlines := Nat.mul_le_mul_right c.sp.pgsPerLine hfree
      rw [spaceLeft, openRoom]
      omega
    rw [if_pos hlow] at hcredits ⊢
    obtain ⟨hsel, hidle⟩ := hsafe ⟨h0, hlow⟩
    have hdone := doGc_done hok (hsel pl hok) t
    cases hr : doGc c s t true with
    | error f =>
      rw [hr] at hdone
      rcases hdone with hE | ⟨-, v, hv, hp, hshort⟩
      · exact hE
      · exact absurd (hok.collection_room (by omega) hv hp) (not_lt.2 hshort)
    | ok r =>
      obtain ⟨done, s', t'⟩ := r
      rw [hr] at hdone hcredits
      obtain ⟨pl', hdone⟩ := hdone
      change RoomInv c false s'.refill
      cases hdone with
      | idle _ hnull => exact hrefill _ h0 hcredits (hidle (hnull rfl))
      | collected _ hT hE =>
        -- the victim gives the pages it had invalid
        obtain ⟨-, hsum⟩ := hok.victim_counters hT.lt hT.place
        have hspace := hE.spaceLeft_add
        have hwfc := hE.wfc
        dsimp only at hspace hwfc hcredits
        refine hrefill s' (by rw [hwfc]; exact h0) hcredits ?_
        rw [hwfc]
        dsimp only
        rw [u32, Nat.mod_eq_of_lt (by omega)]
        omega

theorem initial_room (hP : c.sp.pgsPerLine < 2 ^ 32) (hlines : 3 ≤ c.sp.blksPerPl) (partId : ℕ)
    (junk : ℕ → Slot) : Yields (RoomInv c false) (convInitFtl c partId junk) := by
  refine ((initial_credits hP partId junk).and (convInitFtl_yields c partId junk)).mono (fun _ h => h) ?_
  rintro s ⟨hcredits, rfl, hB⟩
  refine ⟨hcredits, ?_⟩
  have hle : u32 c.sp.pgsPerLine ≤ c.sp.pgsPerLine := Nat.mod_le _ _
  have htotal := Nat.mul_le_mul_right c.sp.pgsPerLine hlines
  rw [initial_spaceLeft hB, Geometry.ttPgs_eq_lines, Geometry.ttLines_eq']
  change 2 * c.sp.pgsPerLine + u32 c.sp.pgsPerLine ≤ c.sp.blksPerPl * c.sp.pgsPerLine
  omega

/-! ## Runs -/

/-- If the step forces a collection and the victim queue is empty, then two lines are left
    besides the credits that the check gives for nothing. -/
def RefillRoom (c : Cfg) (d : Device) (e : Event) : Prop :=
  ∀ part ∈ gcCall c d e, (d.dev.ftls part).NoVictim →
    2 * c.sp.pgsPerLine + (d.dev.ftls part).wfc.creditsToRefill ≤ spaceLeft c (d.dev.ftls part)

instance (c : Cfg) (d : Device) (e : Event) : Decidable (RefillRoom c d e) :=
  inferInstanceAs (Decidable (∀ part ∈ gcCall c d e, _ → _ ≤ _))

/-- **No write pointer misses a line** in a run of the greedy build on SAMSUNG_970PRO, of
    any capacity, as long as no collection that reclaims nothing is credited beyond the
    space. -/
theorem free_lines_last {build : Build} (hpol : build.policy = .greedy) {n : ℕ} (hpos : 0 < n)
    (hle : n ≤ 5461) {junk : ℕ → ℕ → Slot} {clock : ℕ → ℕ} {dev : Dev}
    (hinit : convInitNamespace (pro970Cfg build n hpos hle) junk clock = .ok dev) (es : List Event)
    (hC : (device (pro970Cfg build n hpos hle)).Along (RefillRoom (pro970Cfg build n hpos hle)) ⟨dev, none⟩ es) :
    (device (pro970Cfg build n hpos hle)).run ⟨dev, none⟩ es ≠ .error .noFreeLine := by
  have hP : (pro970Cfg build n hpos hle).sp.pgsPerLine < 2 ^ 32 := by
    change 192 * n < 2 ^ 32
    omega
  have hlines : 3 ≤ (pro970Cfg build n hpos hle).sp.blksPerPl := by
    change 3 ≤ 32
    omega
  have hthres : 2 ≤ (pro970Cfg build n hpos hle).cp.gcThresLinesHigh := le_rfl
  have hpol' : (pro970Cfg build n hpos hle).build.policy = .greedy := hpol
  generalize pro970Cfg build n hpos hle = c at *
  have h₀ : DevInv c (RoomInv c) ⟨dev, none⟩ := devInv_init (initial_room hP hlines) hinit
  have hsafe : (device c).Along (GcIn c (RefillSafe c fun e => c.build.isoLogSamples = true ∧ e = .wildPointer))
      ⟨dev, none⟩ es :=
    hC.mono fun d e h part hgc => ⟨collectable_greedy hpol' _, h part hgc⟩
  have hrun := (roomInv_rules hP hthres).run h₀ hsafe
  intro herr
  rcases hrun.of_error herr with ⟨-, hf⟩ | hf
  · cases hf
  · cases hf

/-! ## A run that is short of a line -/

/-- The last 96 of the first 5664 pages: half a line. -/
def lastPages : Finset ℕ := Finset.Ico 5568 5664

-- The runs are irreducible: they are thousands of events long.

/-- The first `k` logical pages are written in order. -/
@[irreducible] def fillPages (k : ℕ) : List Event := (List.range k).flatMap fun i => pageWrite i

/-- The last pages are written. -/
@[irreducible] def writeLastPages : List Event := (List.range 96).flatMap fun j => pageWrite (5568 + j)

/-- The last pages are written four times in all. -/
def shortRun : List Event := fillPages 5664 ++ writeLastPages ++ writeLastPages ++ writeLastPages

variable {j k n u g r : ℕ} {t : Timing} {a z : Finset ℕ}

theorem card_lastPages : lastPages.card = 96 := Nat.card_Ico _ _

theorem insert_lastPages (hj : j < 96) : insert (5568 + j) lastPages = lastPages :=
  Finset.insert_eq_of_mem (Finset.mem_Ico.2 ⟨by omega, by omega⟩)

theorem insert_filled (hj : j < 96) : insert (5568 + j) (Finset.range 5664) = Finset.range 5664 :=
  Finset.insert_eq_of_mem (Finset.mem_range.2 (by omega))

theorem greedyCfg_pgsPerLine : greedyCfg.sp.pgsPerLine = 192 := rfl

theorem greedyCfg_ttPgs : greedyCfg.sp.ttPgs = 6144 := rfl

/-- Where the FTL stands while the lines are filled. -/
def LinesFilled (k : ℕ) (s : ConvFtl) : Prop :=
  Stands greedyCfg s (30 - k / 192) (k % 192) 0 (192 - k % 192) 192 (.range k) (.Ico (k / 192 * 192) k) ∅

theorem LinesFilled.step (h : LinesFilled k s) (hk : k < 5664) :
    Sat E (fun x => LinesFilled (k + 1) x.1) (writePage greedyCfg s k n t) := by
  have hL := greedyCfg_pgsPerLine
  have hT := greedyCfg_ttPgs
  have hlpn : k < greedyCfg.sp.ttPgs := by omega
  have hrange : insert k (Finset.range k) = Finset.range (k + 1) := Finset.range_add_one.symm
  by_cases hlast : k % 192 + 1 = 192
  · -- the line is closed, and its credits are spent
    obtain ⟨f, hf⟩ : ∃ f, 30 - k / 192 = f + 1 := ⟨29 - k / 192, by omega⟩
    unfold LinesFilled at h
    rw [hf, show 192 - k % 192 = 0 + 1 by omega] at h
    obtain ⟨s', he, h', -⟩ := h.lastPage (by norm_num) hlpn (by omega) n
    rw [hrange, Finset.erase_empty] at h'
    rw [writePage_eq he]
    have hcheck := h'.check_idle (E := E) (t := t) rfl rfl (by norm_num) (by rw [Finset.card_range, hL, hT]; omega)
    unfold LinesFilled
    rw [show (k + 1) / 192 * 192 = k + 1 by omega, Finset.Ico_self, show (k + 1) % 192 = 0 by omega,
      show 30 - (k + 1) / 192 = f by omega]
    exact hcheck
  · have hdiv : (k + 1) / 192 = k / 192 := by omega
    have hmod : (k + 1) % 192 = k % 192 + 1 := by omega
    unfold LinesFilled at h ⊢
    obtain ⟨w, hw⟩ : ∃ w, 192 - k % 192 = w + 2 := ⟨190 - k % 192, by omega⟩
    rw [hw] at h
    have hpage := h.write_inside (E := E) (by omega) hlpn (by omega) n t
    rw [hdiv, hmod, show 192 - (k % 192 + 1) = w + 1 by omega,
      Nat.Ico_succ_right_eq_insert_Ico (by omega)]
    rw [hrange, Finset.erase_empty] at hpage
    exact hpage

theorem Stands.write_last (h : Stands greedyCfg s 1 u g (96 - j) r (.range 5664) a z) (hj : j < 95) (hu : u < 191) :
    Sat E (fun x => Stands greedyCfg x.1 1 (u + 1) g (96 - (j + 1)) r (.range 5664) (insert (5568 + j) a)
      (z.erase (5568 + j))) (writePage greedyCfg s (5568 + j) n t) := by
  have hL := greedyCfg_pgsPerLine
  have hT := greedyCfg_ttPgs
  have hlpn : 5568 + j < greedyCfg.sp.ttPgs := by omega
  obtain ⟨w, hw⟩ : ∃ w, 96 - j = w + 2 := ⟨94 - j, by omega⟩
  rw [hw] at h
  have hpage := h.write_inside (E := E) (by omega) hlpn (by omega) n t
  rw [insert_filled (by omega)] at hpage
  rw [show 96 - (j + 1) = w + 1 by omega]
  exact hpage

theorem Stands.overwrite_last (h : Stands greedyCfg s 1 (96 + j) g (96 - j) r (.range 5664) lastPages ∅)
    (hj : j < 95) : Sat E (fun x => Stands greedyCfg x.1 1 (96 + (j + 1)) g (96 - (j + 1)) r (.range 5664)
      lastPages ∅)
      (writePage greedyCfg s (5568 + j) n t) := by
  have hpage := h.write_last (E := E) (n := n) (t := t) hj (by omega)
  rw [insert_lastPages (by omega), Finset.erase_empty] at hpage
  exact hpage

/-- The pages move from the collector's line to a new one. -/
theorem Stands.move_last (h : Stands greedyCfg s 1 j 96 (96 - j) 96 (.range 5664) (.Ico 5568 (5568 + j))
    (.Ico (5568 + j) 5664)) (hj : j < 95) :
    Sat E (fun x => Stands greedyCfg x.1 1 (j + 1) 96 (96 - (j + 1)) 96 (.range 5664)
      (.Ico 5568 (5568 + (j + 1))) (.Ico (5568 + (j + 1)) 5664)) (writePage greedyCfg s (5568 + j) n t) := by
  have hpage := h.write_last (E := E) (n := n) (t := t) hj (by omega)
  rw [← Nat.Ico_succ_right_eq_insert_Ico (by omega), ← Nat.Ico_succ_left_eq_erase_Ico] at hpage
  exact hpage

/-- The second time, the last page closes the line, and it is collected. -/
theorem Stands.close_collect (h : Stands greedyCfg s 1 191 0 1 192 (.range 5664) lastPages ∅) :
    Sat E (fun x => Stands greedyCfg x.1 1 0 96 96 96 (.range 5664) ∅ lastPages)
      (writePage greedyCfg s 5663 n t) := by
  have hcard := card_lastPages
  have hL := greedyCfg_pgsPerLine
  have hT := greedyCfg_ttPgs
  have hlpn : 5663 < greedyCfg.sp.ttPgs := by omega
  obtain ⟨s', he, h', hclosed⟩ := h.lastPage (by norm_num) hlpn (by omega) n
  rw [insert_filled (j := 95) (by norm_num), Finset.erase_empty] at h'
  rw [insert_lastPages (j := 95) (by norm_num)] at hclosed
  have hcheck := h'.check_collect (E := E) (t := t) rfl rfl hclosed (Finset.card_pos.1 (by omega)) (by omega)
    (by omega) (by rw [hcard, Finset.card_range, hL, hT])
  rw [hcard, hL] at hcheck
  rw [writePage_eq he]
  exact hcheck

/-- The third time, the credits end with the last page, and no line can be collected. -/
theorem Stands.refill_idle (h : Stands greedyCfg s 1 95 96 1 96 (.range 5664) (.Ico 5568 5663) (.Ico 5663 5664)) :
    Sat E (fun x => Stands greedyCfg x.1 1 96 96 96 96 (.range 5664) lastPages ∅)
      (writePage greedyCfg s 5663 n t) := by
  have hL := greedyCfg_pgsPerLine
  have hT := greedyCfg_ttPgs
  have hlpn : 5663 < greedyCfg.sp.ttPgs := by omega
  obtain ⟨s', he, h'⟩ := h.page (by norm_num) hlpn (by omega) n
  rw [insert_filled (j := 95) (by norm_num), ← Nat.Ico_succ_right_eq_insert_Ico (by norm_num),
    ← Nat.Ico_succ_left_eq_erase_Ico, Finset.Ico_self] at h'
  rw [writePage_eq he]
  exact h'.check_idle rfl rfl (by norm_num) (by rw [Finset.card_range, hL, hT]) t

/-- The fourth time, the last page closes the line, and the collection misses one. -/
theorem Stands.close_fails (h : Stands greedyCfg s 1 191 96 1 96 (.range 5664) lastPages ∅) :
    Sat (fun f => f = .noFreeLine) (fun _ => False) (writePage greedyCfg s 5663 n t) := by
  have hcard := card_lastPages
  have hL := greedyCfg_pgsPerLine
  have hT := greedyCfg_ttPgs
  have hlpn : 5663 < greedyCfg.sp.ttPgs := by omega
  obtain ⟨s', he, h', hclosed⟩ := h.lastPage (by norm_num) hlpn (by omega) n
  rw [insert_filled (j := 95) (by norm_num), Finset.erase_empty] at h'
  rw [insert_lastPages (j := 95) (by norm_num)] at hclosed
  rw [writePage_eq he]
  exact h'.check_fails rfl rfl hclosed (Finset.card_pos.1 (by omega)) (by omega) (by omega)
    (by rw [hcard, Finset.card_range, hL, hT]) t

theorem run_fillPages (k : ℕ) (hk : k ≤ 5664) (hd : Rested d) (h₀ : LinesFilled 0 (d.dev.ftls 0)) :
    Sat E (fun d' => Rested d' ∧ LinesFilled k (d'.dev.ftls 0)) ((device greedyCfg).run d (fillPages k)) := by
  unfold fillPages
  exact run_pageWrites k (by omega) (fun i hi s n t h => h.step (by omega)) hd h₀

/-- The last pages are written, and the page that ends them leads to `Q`. -/
theorem run_writeLastPages {I : ℕ → ConvFtl → Prop} {Q : ConvFtl → Prop}
    (hstep : ∀ j < 95, ∀ s n t, I j s → Sat E (fun x => I (j + 1) x.1) (writePage greedyCfg s (5568 + j) n t))
    (hlast : ∀ s n t, I 95 s → Sat E (fun x => Q x.1) (writePage greedyCfg s 5663 n t))
    (hd : Rested d) (h₀ : I 0 (d.dev.ftls 0)) :
    Sat E (fun d' => Rested d' ∧ Q (d'.dev.ftls 0)) ((device greedyCfg).run d writeLastPages) := by
  rw [writeLastPages, List.range_succ, List.flatMap_append, List.flatMap_singleton]
  refine Machine.run_append_sat (run_pageWrites 95 (by omega) hstep hd h₀) ?_
  rintro d' ⟨hd', h'⟩
  exact run_pageWrite hd' (by norm_num) fun n t => hlast _ n t h'

theorem initial_filled (partId : ℕ) (junk : ℕ → Slot) : LinesFilled 0 (.initial greedyCfg partId junk) := by
  have hB : 2 ≤ greedyCfg.sp.blksPerPl := by decide
  have hok := initial_ok hB partId junk
  have hu := initial_posOf hB partId junk .userIo
  have hg := initial_posOf hB partId junk .gcIo
  refine ⟨⟨_, hok⟩, rfl, hu, hg, rfl, ?_, hok.curline_empty .userIo hu, hok.curline_empty .gcIo hg⟩
  refine Finset.filter_eq_empty_iff.2 fun lpn _ => ?_
  change ¬ mappedPpa .unmapped = true
  rw [mappedPpa_unmapped]
  exact Bool.false_ne_true

theorem run_overwrite (hd : Rested d) (h : Stands greedyCfg (d.dev.ftls 0) 1 96 0 96 192 (.range 5664) lastPages ∅) :
    Sat E (fun d' => Rested d' ∧ Stands greedyCfg (d'.dev.ftls 0) 1 0 96 96 96 (.range 5664) ∅ lastPages)
      ((device greedyCfg).run d writeLastPages) :=
  run_writeLastPages (I := fun j s => Stands greedyCfg s 1 (96 + j) 0 (96 - j) 192 (.range 5664) lastPages ∅)
    (Q := fun s => Stands greedyCfg s 1 0 96 96 96 (.range 5664) ∅ lastPages)
    (fun _ hj _ _ _ h => h.overwrite_last hj) (fun _ _ _ h => h.close_collect) hd h

/-! ## The lines are filled, and one is collected -/

/-- The credits that a check gives for nothing have room, if there is no line to collect. -/
def CreditRoom (s : ConvFtl) : Prop :=
  s.NoVictim → 2 * greedyCfg.sp.pgsPerLine + s.wfc.creditsToRefill ≤ spaceLeft greedyCfg s

/-- While the lines are filled, the credits never exceed the lines that are left. -/
theorem LinesFilled.creditRoom (h : LinesFilled k s) (hk : k < 5664) (hs : hostWrite greedyCfg s k n = .ok s')
    (h0 : s'.wfc.writeCredits = 0) : CreditRoom s' := by
  have hL := greedyCfg_pgsPerLine
  have hT := greedyCfg_ttPgs
  have hlpn : k < greedyCfg.sp.ttPgs := by omega
  unfold LinesFilled at h
  by_cases hlast : k % 192 + 1 = 192
  · -- a line is closed, and one at least is free besides the open ones
    obtain ⟨f, hf⟩ : ∃ f, 30 - k / 192 = f + 2 := ⟨28 - k / 192, by omega⟩
    rw [hf, show 192 - k % 192 = 0 + 1 by omega] at h
    obtain ⟨s₁, he, h', -⟩ := h.lastPage (by norm_num) hlpn (by omega) n
    obtain rfl := Except.ok.inj (he.symm.trans hs)
    intro _
    rw [h'.spaceLeft_eq, h'.wfc, hL]
    dsimp only
    omega
  · obtain ⟨w, hw⟩ : ∃ w, 192 - k % 192 = w + 2 := ⟨190 - k % 192, by omega⟩
    rw [hw] at h
    obtain ⟨s₁, he, h'⟩ := h.page (by omega) hlpn (by omega) n
    obtain rfl := Except.ok.inj (he.symm.trans hs)
    rw [h'.wfc] at h0
    exact absurd h0 (Nat.succ_ne_zero w)

/-- When the last pages have used up the credits, their line is in the queue. -/
theorem Stands.creditRoom (h : Stands greedyCfg s 1 (96 + j) 0 (96 - j) 192 (.range 5664) lastPages ∅)
    (hj : j < 96) (hs : hostWrite greedyCfg s (5568 + j) n = .ok s') (h0 : s'.wfc.writeCredits = 0) :
    CreditRoom s' := by
  have hcard := card_lastPages
  have hL := greedyCfg_pgsPerLine
  have hT := greedyCfg_ttPgs
  have hlpn : 5568 + j < greedyCfg.sp.ttPgs := by omega
  rcases Nat.lt_or_ge j 95 with hj' | hj'
  · obtain ⟨w, hw⟩ : ∃ w, 96 - j = w + 2 := ⟨94 - j, by omega⟩
    rw [hw] at h
    obtain ⟨s₁, he, h'⟩ := h.page (by omega) hlpn (by omega) n
    obtain rfl := Except.ok.inj (he.symm.trans hs)
    rw [h'.wfc] at h0
    exact absurd h0 (Nat.succ_ne_zero w)
  · obtain rfl : j = 95 := by omega
    obtain ⟨s₁, he, h', hclosed⟩ := h.lastPage (by norm_num) hlpn (by omega) n
    obtain rfl := Except.ok.inj (he.symm.trans hs)
    rw [insert_lastPages (j := 95) (by norm_num)] at hclosed
    obtain ⟨pl, hok⟩ := h'.ok
    obtain ⟨v, hv, -, hvic, -⟩ := hclosed.victim hok (Finset.card_pos.1 (by omega)) (by omega)
    have hmem := hok.phys.shelved.member hv hvic
    intro hnone
    unfold ConvFtl.NoVictim at hnone
    omega

theorem along_fillPages (hk : k < 5664) (hd : Rested d) (h₀ : LinesFilled 0 (d.dev.ftls 0)) :
    (device greedyCfg).Along (GcIn greedyCfg CreditRoom) d (fillPages (k + 1)) := by
  unfold fillPages
  exact along_pageWrites k (by omega) (fun i hi s n t h => h.step (by omega))
    (fun i hi s n s' h => h.creditRoom (by omega)) hd h₀

theorem along_overwrite (hd : Rested d)
    (h : Stands greedyCfg (d.dev.ftls 0) 1 96 0 96 192 (.range 5664) lastPages ∅) :
    (device greedyCfg).Along (GcIn greedyCfg CreditRoom) d writeLastPages := by
  unfold writeLastPages
  exact along_pageWrites
    (I := fun j s => Stands greedyCfg s 1 (96 + j) 0 (96 - j) 192 (.range 5664) lastPages ∅) 95 (by omega)
    (fun j hj s n t h => h.overwrite_last hj) (fun j hj s n s' h => h.creditRoom (by omega)) hd h

/-- The lines are filled, and the last pages written again.  The credits end there: their line is
    collected, and the collector writes half a line. -/
theorem free_lines_last_collected : ∃ dev d,
    convInitNamespace greedyCfg (fun _ _ => .null) (fun _ => 0) = .ok dev ∧
      (device greedyCfg).run ⟨dev, none⟩ (fillPages 5664 ++ writeLastPages) = .ok d ∧
      posOf greedyCfg (d.dev.ftls 0) .gcIo = 96 ∧
      (device greedyCfg).run ⟨dev, none⟩ (fillPages 5664 ++ writeLastPages) ≠ .error .noFreeLine := by
  obtain ⟨dev, hinit⟩ : ∃ dev, convInitNamespace greedyCfg (fun _ _ => .null) (fun _ => 0) = .ok dev := ⟨_, rfl⟩
  obtain ⟨hd, partId, junk, hftl⟩ := initial_rested hinit
  have h₀ : LinesFilled 0 (dev.ftls 0) := by
    rw [hftl]
    exact initial_filled partId junk
  obtain ⟨d₁, hfill, hd₁, h₁⟩ := (run_fillPages (E := fun _ => False) 5664 le_rfl hd h₀).exists_ok fun _ => id
  obtain ⟨d₂, hagain, -, h₂⟩ := (run_overwrite (E := fun _ => False) hd₁ h₁).exists_ok fun _ => id
  have hrun : (device greedyCfg).run ⟨dev, none⟩ (fillPages 5664 ++ writeLastPages) = .ok d₂ := by
    rw [Machine.run_append, hfill]
    exact hagain
  have hC : (device greedyCfg).Along (GcIn greedyCfg CreditRoom) ⟨dev, none⟩
      (fillPages 5664 ++ writeLastPages) := by
    refine (Machine.along_append hfill).2 ⟨?_, ?_⟩
    · exact along_fillPages (by norm_num) hd h₀
    · exact along_overwrite hd₁ h₁
  exact ⟨dev, d₂, hinit, hrun, h₂.gc,
    free_lines_last (n := 1) rfl Nat.one_pos (by norm_num) hinit _ (hC.mono fun _ _ h => h)⟩

/-! ## The run goes on, and a line is missed -/

theorem run_move (hd : Rested d) (h : Stands greedyCfg (d.dev.ftls 0) 1 0 96 96 96 (.range 5664) ∅ lastPages) :
    Sat E (fun d' => Rested d' ∧ Stands greedyCfg (d'.dev.ftls 0) 1 96 96 96 96 (.range 5664) lastPages ∅)
      ((device greedyCfg).run d writeLastPages) := by
  refine run_writeLastPages (I := fun j s => Stands greedyCfg s 1 j 96 (96 - j) 96 (.range 5664)
      (.Ico 5568 (5568 + j)) (.Ico (5568 + j) 5664))
    (Q := fun s => Stands greedyCfg s 1 96 96 96 96 (.range 5664) lastPages ∅)
    (fun _ hj _ _ _ h => h.move_last hj) (fun _ _ _ h => h.refill_idle) hd ?_
  rw [Nat.add_zero, Finset.Ico_self]
  exact h

theorem run_fails (hd : Rested d) (h : Stands greedyCfg (d.dev.ftls 0) 1 96 96 96 96 (.range 5664) lastPages ∅) :
    Sat (fun f => f = .noFreeLine) (fun d' => Rested d' ∧ False) ((device greedyCfg).run d writeLastPages) :=
  run_writeLastPages (I := fun j s => Stands greedyCfg s 1 (96 + j) 96 (96 - j) 96 (.range 5664) lastPages ∅)
    (Q := fun _ => False) (fun _ hj _ _ _ h => h.overwrite_last hj) (fun _ _ _ h => h.close_fails) hd h

theorem run_shortRun (hd : Rested d) (h₀ : LinesFilled 0 (d.dev.ftls 0)) :
    Sat (fun f => f = .noFreeLine) (fun d' => Rested d' ∧ False) ((device greedyCfg).run d shortRun) := by
  have hfill := run_fillPages (E := fun f => f = .noFreeLine) 5664 le_rfl hd h₀
  have hagain := Machine.run_append_sat hfill fun d' h => run_overwrite h.1 h.2
  have hmove := Machine.run_append_sat hagain fun d' h => run_move h.1 h.2
  exact Machine.run_append_sat hmove fun d' h => run_fails h.1 h.2

theorem mem_shortRun (h : e ∈ shortRun) : ∃ lpn < 5664, e ∈ pageWrite lpn := by
  have hfill {k : ℕ} (h : e ∈ fillPages k) : ∃ lpn < k, e ∈ pageWrite lpn := by
    unfold fillPages at h
    obtain ⟨lpn, hlpn, he⟩ := List.mem_flatMap.1 h
    exact ⟨lpn, List.mem_range.1 hlpn, he⟩
  have hlast (h : e ∈ writeLastPages) : ∃ lpn < 5664, e ∈ pageWrite lpn := by
    unfold writeLastPages at h
    obtain ⟨j, hj, he⟩ := List.mem_flatMap.1 h
    have hlt := List.mem_range.1 hj
    exact ⟨5568 + j, by omega, he⟩
  rcases List.mem_append.1 h with h | h
  · rcases List.mem_append.1 h with h | h
    · rcases List.mem_append.1 h with h | h
      · exact hfill h
      · exact hlast h
    · exact hlast h
  · exact hlast h

theorem shortRun_contained {req : NvmevRequest} (h : .dispatch req ∈ shortRun) :
    ∃ rw, req.cmd = .write rw ∧ LbaContained (nsSize greedyCfg.cp 25165824) rw := by
  obtain ⟨lpn, hlpn, he⟩ := mem_shortRun h
  simp only [pageWrite, List.mem_cons, Event.dispatch.injEq, reduceCtorEq, List.not_mem_nil, or_false] at he
  subst he
  refine ⟨pageCommand lpn, rfl, ?_⟩
  have hsize : nsSize greedyCfg.cp 25165824 / LBA_SIZE = 45936 := by decide
  rw [LbaContained, hsize, pageCommand_nrLba]
  change lpn * 8 % 2 ^ 64 + 8 ≤ 45936
  omega

/-- **A write pointer misses a line**, though all commands write pages of the namespace. -/
theorem free_line_missed : ∃ dev, convInitNamespace greedyCfg (fun _ _ => .null) (fun _ => 0) = .ok dev ∧
    (∀ req, .dispatch req ∈ shortRun → ∃ rw, req.cmd = .write rw ∧ LbaContained (nsSize greedyCfg.cp 25165824) rw) ∧
      (device greedyCfg).run ⟨dev, none⟩ shortRun = .error .noFreeLine := by
  obtain ⟨dev, hinit⟩ : ∃ dev, convInitNamespace greedyCfg (fun _ _ => .null) (fun _ => 0) = .ok dev := ⟨_, rfl⟩
  obtain ⟨hd, partId, junk, hftl⟩ := initial_rested hinit
  have hrun := run_shortRun hd (by rw [hftl]; exact initial_filled partId junk)
  refine ⟨dev, hinit, fun req => shortRun_contained, ?_⟩
  cases hr : (device greedyCfg).run ⟨dev, none⟩ shortRun with
  | ok d =>
    rw [hr] at hrun
    exact absurd hrun.2 id
  | error f =>
    rw [hr] at hrun
    rw [show f = _ from hrun]

end WaitGc

/-
  WAITGC verification — write amplification and wear under the greedy policy.

  When `do_gc` is called, few lines are free and two are open; the other ones,
  `closedLines` of them at least, hold valid pages or garbage.  The greedy
  victim has no more valid pages than the mean of the closed lines
  (`FtlOk.victim_le_mean`), so if at most `M` pages are mapped at each
  collection, the pages copied are bounded by the collections and by `M`.

  `write_amplification_bounded`: this bounds the write amplification that
  `conv_flush` reports and the erases.  A collection is paid for with a host
  page in any case.
-/
import WaitGc.Theorems.Counters
import WaitGc.Theorems.CostBenefitVictim

namespace WaitGc

open Outcome Tally

variable {c : Cfg} {s s' : ConvFtl} {pl pl' : ℕ → Place} {v M : ℕ}

/-- The lines that are closed, at least, when `do_gc` is called. -/
def closedLines (c : Cfg) : ℕ := c.sp.ttLines - 2 - c.cp.gcThresLinesHigh

/-- What `M` mapped pages at most at the collections say of the counters of an FTL. -/
structure AmplificationBounded (c : Cfg) (M : ℕ) (s : ConvFtl) : Prop where
  paid : s.stats.gcCnt + usedPages c s ≤ s.stats.hostWritePages
  copied : s.stats.gcValidCopied * closedLines c ≤ s.stats.gcCnt * M
  amplified : (s.stats.hostWritePages + s.stats.gcValidCopied) * (closedLines c * c.sp.pgsPerLine - M) ≤
    s.stats.hostWritePages * (closedLines c * c.sp.pgsPerLine)
  worn : erases c s * (closedLines c * c.sp.pgsPerLine - M) ≤
    s.stats.hostWritePages * (closedLines c * c.sp.blksPerLine)

/-! ## The victim and the mean -/

theorem FtlOk.card_closed (h : FtlOk c s pl) :
    ((Finset.range c.sp.blksPerPl).filter fun i => pl i = .full ∨ pl i = .victim).card +
      s.lm.freeLineCnt + 2 = c.sp.blksPerPl := by
  have hu : s.wp.curline ∈ Finset.range c.sp.blksPerPl := Finset.mem_range.2 (h.phys.wp_ok .userIo).lt
  have hg : s.gcWp.curline ∈ Finset.range c.sp.blksPerPl := Finset.mem_range.2 (h.phys.wp_ok .gcIo).lt
  have hone : ∀ i ∈ Finset.range c.sp.blksPerPl, 1 = (if pl i = .full ∨ pl i = .victim then 1 else 0) +
      (if pl i = .free then 1 else 0) + (if i = s.wp.curline then 1 else 0) +
        (if i = s.gcWp.curline then 1 else 0) := by
    intro i hi
    have hi := Finset.mem_range.1 hi
    have hu : i = s.wp.curline ↔ pl i = .opened .userIo := (h.phys.opened .userIo i hi).symm
    have hg : i = s.gcWp.curline ↔ pl i = .opened .gcIo := (h.phys.opened .gcIo i hi).symm
    simp only [hu, hg]
    cases hx : pl i with
    | gone => exact absurd hx (h.settled i hi)
    | opened io => cases io <;> simp
    | _ => simp
  have hsum := Finset.sum_congr rfl hone
  rw [Finset.sum_add_distrib, Finset.sum_add_distrib, Finset.sum_add_distrib,
    Finset.sum_ite_eq' _ s.wp.curline, Finset.sum_ite_eq' _ s.gcWp.curline, if_pos hu, if_pos hg,
    ← Finset.card_filter, ← Finset.card_filter, card_free h.phys.shelved, Finset.sum_const,
    Finset.card_range, smul_eq_mul, Nat.mul_one] at hsum
  exact hsum.symm

/-- **The greedy victim is no fuller than the mean of the closed lines.** -/
theorem FtlOk.victim_le_mean (h : FtlOk c s pl) (hv : v ∈ linesAt c pl .victim)
    (hmin : ∀ i ∈ linesAt c pl .victim, (s.lm.lines v).vpc ≤ (s.lm.lines i).vpc) :
    (s.lm.lines v).vpc * (c.sp.blksPerPl - 2 - s.lm.freeLineCnt) ≤ (mappedLpns c s).card := by
  have hcard : c.sp.blksPerPl - 2 - s.lm.freeLineCnt =
      ((Finset.range c.sp.blksPerPl).filter fun i => pl i = .full ∨ pl i = .victim).card := by
    have := h.card_closed
    omega
  have hvpc : ∀ i < c.sp.blksPerPl,
      (s.lm.lines i).vpc = tally (Finset.range c.sp.pgsPerLine) (lineSt c s.blk i) .valid :=
    fun i hi => (h.phys.line_counted i hi (h.settled i hi)).1
  -- each closed line has as many valid pages as the victim
  have hle : ∀ i ∈ (Finset.range c.sp.blksPerPl).filter (fun i => pl i = .full ∨ pl i = .victim),
      (s.lm.lines v).vpc ≤ (s.lm.lines i).vpc := by
    intro i hi
    obtain ⟨hi, hx⟩ := Finset.mem_filter.1 hi
    have hi := Finset.mem_range.1 hi
    rcases hx with hx | hx
    · have hpg := h.phys.pages i hi
      rw [hx] at hpg
      rw [(h.phys.line_counted i hi (h.settled i hi)).vpc_eq_iff.2 hpg]
      have := h.victim_counters hv.1 hv.2
      omega
    · exact hmin i ⟨hi, hx⟩
  calc (s.lm.lines v).vpc * (c.sp.blksPerPl - 2 - s.lm.freeLineCnt)
      ≤ ∑ i ∈ (Finset.range c.sp.blksPerPl).filter (fun i => pl i = .full ∨ pl i = .victim),
          (s.lm.lines i).vpc := by
        rw [hcard, Nat.mul_comm]
        exact Finset.card_nsmul_le_sum _ _ _ hle
    _ ≤ ∑ i ∈ Finset.range c.sp.blksPerPl, (s.lm.lines i).vpc :=
        Finset.sum_le_sum_of_subset (Finset.filter_subset _ _)
    _ = (mappedLpns c s).card := by
        rw [← h.validPages_eq, validPages_eq_lines]
        exact Finset.sum_congr rfl fun i hi => hvpc i (Finset.mem_range.1 hi)

/-! ## The invariant -/

/-- The valid pages of the victims so far, against the collections and against `M`. -/
structure VictimSums (c : Cfg) (M : ℕ) (s : ConvFtl) : Prop where
  inv : FtlInv c s
  paid : s.stats.gcVictimVpcSum + s.stats.gcCnt ≤ s.stats.gcCnt * c.sp.pgsPerLine
  mean : s.stats.gcVictimVpcSum * closedLines c ≤ s.stats.gcCnt * M

theorem VictimSums.congr (h : VictimSums c M s) (hinv : FtlInv c s')
    (hcnt : s'.stats.gcCnt = s.stats.gcCnt)
    (hsum : s'.stats.gcVictimVpcSum = s.stats.gcVictimVpcSum) : VictimSums c M s' :=
  ⟨hinv, by rw [hcnt, hsum]; exact h.paid, by rw [hcnt, hsum]; exact h.mean⟩

/-- **A collection keeps the sums**: its victim has an invalid page, and no more valid ones
    than the mean. -/
theorem VictimSums.doGc (hpol : c.build.policy = .greedy) (h : VictimSums c M s)
    (hlow : shouldGcHigh c s = true) (hM : (mappedLpns c s).card ≤ M) (t : Timing) :
    Sat (fun e => (c.build.isoLogSamples = true ∧ e = .wildPointer) ∨ e = .noFreeLine)
      (fun r => VictimSums c M r.2.1) (doGc c s t true) := by
  obtain ⟨⟨pl, hok⟩, hwaf⟩ := h.inv
  refine (doGc_done hok (selects_greedy hpol hok true) t).mono ?_ ?_
  · rintro e (he | ⟨he, -⟩)
    · exact .inl he
    · exact .inr he
  · rintro ⟨done, s', t'⟩ ⟨pl', hdone⟩
    cases hdone with
    | idle => exact h
    | @collected v s₁ _ _ hsel hT hE =>
      have hmin := hok.selectVictimGreedy_minimal hpol
      unfold selectVictimLine at hsel
      rw [hpol] at hsel
      have hleast := ((hmin.of_ok hsel).minimal v rfl).2
      rw [hok.garbage_eq] at hleast
      have hmean := hok.victim_le_mean ⟨hT.lt, hT.place⟩ hleast
      obtain ⟨hipc, hfull⟩ := hok.victim_counters hT.lt hT.place
      have hst := hE.waf
      simp only [GcStats.waf, Prod.mk.injEq] at hst
      obtain ⟨hcnt, -, -, hsum⟩ := hst
      -- the lines that are closed now are `closedLines` at least
      have hclosed : closedLines c ≤ c.sp.blksPerPl - 2 - s.lm.freeLineCnt := by
        have hfree : s.lm.freeLineCnt ≤ c.cp.gcThresLinesHigh := of_decide_eq_true hlow
        rw [closedLines, Geometry.ttLines_eq']
        exact Nat.sub_le_sub_left hfree _
      refine ⟨⟨⟨pl', hE.ok⟩, hE.waf_ok hT.lt hwaf⟩, ?_, ?_⟩
      · have := h.paid
        rw [hcnt, hsum, Nat.add_one_mul]
        omega
      · have hmean : (s.lm.lines v).vpc * closedLines c ≤ M :=
          (Nat.mul_le_mul_left _ hclosed).trans (hmean.trans hM)
        have := h.mean
        rw [hcnt, hsum, Nat.add_mul, Nat.add_one_mul]
        omega

/-- **The three ways an FTL changes keep the sums.** -/
theorem victimSums_rules (hpol : c.build.policy = .greedy) (M : ℕ) :
    FtlRules c (fun e => (c.build.isoLogSamples = true ∧ e = .wildPointer) ∨ e = .noFreeLine)
      (fun s => (mappedLpns c s).card ≤ M) fun _ => VictimSums c M where
  write s lpn nsecs h hlpn := by
    obtain ⟨pl, hok⟩ := h.inv.1
    have hinv := (ftlInv_rules c fun e => c.build.isoLogSamples = true ∧ e = .wildPointer).write
      s lpn nsecs h.inv hlpn
    have hwrote := (convWriteFtl_ok hok hlpn nsecs).to_yields
    refine (hinv.yields hwrote).mono (fun _ he => he) ?_
    rintro ⟨p, s'⟩ ⟨hinv, pl', hw⟩
    obtain ⟨wfc, hcredit⟩ : ∃ wfc, consumeWriteCredit s' = { s' with wfc := wfc } := ⟨_, rfl⟩
    dsimp only at hinv hw ⊢
    rw [hcredit] at hinv ⊢
    refine h.congr hinv ?_ ?_
    · dsimp only
      rw [hw.stats]
      rfl
    · dsimp only
      rw [hw.stats]
      rfl
  discard s lpn now h hlpn := by
    obtain ⟨pl, hok⟩ := h.inv.1
    obtain ⟨s', he, hd⟩ := discardFtl_ok hok hlpn now
    have hinv := (ftlInv_rules c fun e => c.build.isoLogSamples = true ∧ e = .wildPointer).discard
      s lpn now h.inv hlpn
    rw [he] at hinv ⊢
    rcases hd with rfl | ⟨pl', hd⟩
    · exact h
    · exact h.congr hinv (congrArg GcStats.gcCnt hd.stats) (congrArg GcStats.gcVictimVpcSum hd.stats)
  refill s t h hM := by
    rw [checkAndRefill_eq]
    split_ifs with h0 hlow
    · refine (h.doGc hpol hlow (hM ⟨h0, hlow⟩) t).map_ok ?_
      rintro ⟨done, s', t'⟩ hr
      exact hr.congr (hr.inv.congr rfl rfl rfl rfl rfl rfl rfl) rfl rfl
    · exact h.congr (h.inv.congr rfl rfl rfl rfl rfl rfl rfl) rfl rfl
    · exact h

theorem initial_victimSums (M partId : ℕ) (junk : ℕ → Slot) :
    Yields (VictimSums c M) (convInitFtl c partId junk) := by
  refine ((initial_inv c partId junk).yields (convInitFtl_yields c partId junk)).mono (fun _ h => h) ?_
  rintro s ⟨hinv, rfl, -⟩
  refine ⟨hinv, ?_, ?_⟩
  · exact Nat.zero_le _
  · exact (Nat.zero_mul _).trans_le (Nat.zero_le _)

/-! ## The bounds -/

/-- From copies to amplification: `n` collections of `L` pages on average. -/
theorem amplification_le {host copied n L P M : ℕ} (hpaid : n * P ≤ host + copied)
    (hcopied : copied * L ≤ n * M) : (host + copied) * (L * P - M) ≤ host * (L * P) := by
  rcases Nat.le_total (L * P) M with hM | hM
  · rw [Nat.sub_eq_zero_of_le hM, Nat.mul_zero]
    exact Nat.zero_le _
  · obtain ⟨D, hD⟩ := Nat.exists_eq_add_of_le hM
    rw [hD, Nat.add_sub_cancel_left]
    -- the copies are paid for by the collections, which the pages written pay for
    have hcop : copied * (M + D) ≤ (host + copied) * M := by
      calc copied * (M + D) = copied * L * P := by rw [← hD, Nat.mul_assoc]
        _ ≤ n * M * P := Nat.mul_le_mul_right _ hcopied
        _ = n * P * M := by ring
        _ ≤ (host + copied) * M := Nat.mul_le_mul_right _ hpaid
    rw [Nat.mul_add, Nat.add_mul] at hcop
    rw [Nat.add_mul, Nat.mul_add]
    omega

theorem collections_le {host copied n L P M : ℕ} (hpaid : n * P ≤ host + copied)
    (hcopied : copied * L ≤ n * M) : n * (L * P - M) ≤ host * L := by
  rw [Nat.mul_sub]
  have h₁ : n * (L * P) ≤ host * L + copied * L := by
    calc n * (L * P) = n * P * L := by ring
      _ ≤ (host + copied) * L := Nat.mul_le_mul_right _ hpaid
      _ = host * L + copied * L := Nat.add_mul ..
  omega

theorem VictimSums.bounded (h : VictimSums c M s) : AmplificationBounded c M s := by
  have hx := h.inv.countersExact
  have hcopied : s.stats.gcValidCopied * closedLines c ≤ s.stats.gcCnt * M := by
    rw [hx.copied]
    exact h.mean
  have hpaid : s.stats.gcCnt * c.sp.pgsPerLine ≤ s.stats.hostWritePages + s.stats.gcValidCopied := by
    rw [hx.written]
    exact Nat.le_add_right _ _
  refine ⟨?_, hcopied, amplification_le hpaid hcopied, ?_⟩
  · have := h.paid
    have := hx.written
    have := hx.copied
    omega
  · rw [hx.erased]
    calc s.stats.gcCnt * c.sp.blksPerLine * (closedLines c * c.sp.pgsPerLine - M)
        = s.stats.gcCnt * (closedLines c * c.sp.pgsPerLine - M) * c.sp.blksPerLine := by ring
      _ ≤ s.stats.hostWritePages * closedLines c * c.sp.blksPerLine :=
        Nat.mul_le_mul_right _ (collections_le hpaid hcopied)
      _ = s.stats.hostWritePages * (closedLines c * c.sp.blksPerLine) := Nat.mul_assoc ..

theorem Dev.sum_le {d : Dev} {f g : ConvFtl → ℕ} (h : ∀ part < c.nrParts, f (d.ftls part) ≤ g (d.ftls part)) :
    d.sum c f ≤ d.sum c g :=
  List.sum_le_sum fun part hp => h part (List.mem_range.1 hp)

theorem wafX1000_le {d : Dev} (h : ∀ part < c.nrParts, AmplificationBounded c M (d.ftls part)) :
    (flushResult c d).wafX1000 * (closedLines c * c.sp.pgsPerLine - M) ≤
      1000 * (closedLines c * c.sp.pgsPerLine) := by
  have hsum : (d.sum c (·.stats.hostWritePages) + d.sum c (·.stats.gcValidCopied)) *
      (closedLines c * c.sp.pgsPerLine - M) ≤
        d.sum c (·.stats.hostWritePages) * (closedLines c * c.sp.pgsPerLine) := by
    rw [← Dev.sum_add, ← Dev.sum_mul, ← Dev.sum_mul]
    exact Dev.sum_le fun part hp => (h part hp).amplified
  unfold flushResult
  dsimp only
  generalize d.sum c (·.stats.hostWritePages) = host at hsum ⊢
  generalize d.sum c (·.stats.gcValidCopied) = copied at hsum ⊢
  generalize closedLines c * c.sp.pgsPerLine = N at hsum ⊢
  split_ifs with hhost
  · refine Nat.le_of_mul_le_mul_right ?_ (Nat.pos_of_ne_zero hhost)
    calc (host + copied) * 1000 / host * (N - M) * host
        = (host + copied) * 1000 / host * host * (N - M) := by ring
      _ ≤ (host + copied) * 1000 * (N - M) := Nat.mul_le_mul_right _ (Nat.div_mul_le_self _ _)
      _ = 1000 * ((host + copied) * (N - M)) := by ring
      _ ≤ 1000 * (host * N) := Nat.mul_le_mul_left _ hsum
      _ = 1000 * N * host := by ring
  · exact Nat.mul_le_mul_left _ (Nat.sub_le _ _)

/-- At most `M` pages of an FTL are mapped when `do_gc` is called on it. -/
def FewMapped (c : Cfg) (M : ℕ) (s : ConvFtl) : Prop := (mappedLpns c s).card ≤ M

instance (c : Cfg) (M : ℕ) : DecidablePred (FewMapped c M) := fun _ => inferInstanceAs (Decidable (_ ≤ _))

/-- **Write amplification and wear are bounded in every run of the greedy build** by the
    pages that are mapped when it collects, and so is what `conv_flush` reports. -/
theorem write_amplification_bounded (hpol : c.build.policy = .greedy) {junk : ℕ → ℕ → Slot}
    {clock : ℕ → ℕ} {dev : Dev} {d : Device} {es : List Event}
    (hinit : convInitNamespace c junk clock = .ok dev)
    (hM : (device c).Along (GcIn c (FewMapped c M)) ⟨dev, none⟩ es)
    (hrun : (device c).run ⟨dev, none⟩ es = .ok d) :
    (∀ part < c.nrParts, AmplificationBounded c M (d.dev.ftls part)) ∧
      (convFlush c d.dev).1.wafX1000 * (closedLines c * c.sp.pgsPerLine - M) ≤
        1000 * (closedLines c * c.sp.pgsPerLine) := by
  have h₀ : DevInv c (fun _ => VictimSums c M) ⟨dev, none⟩ := devInv_init (initial_victimSums M) hinit
  have hall : ∀ part < c.nrParts, AmplificationBounded c M (d.dev.ftls part) := fun part hp =>
    ((((victimSums_rules hpol M).run h₀ hM).of_ok hrun).ftl part hp).bounded
  exact ⟨hall, wafX1000_le hall⟩

/-! ## Six lines -/

/-- One page is written four times: the line of its first two copies is collected. -/
def fourTimesRun : List Event :=
  (List.replicate 4 [.dispatch ⟨.write ⟨0, 7, 0⟩, 0⟩, .resume, .resume, .resume]).flatten

/-- Two lines are closed when `do_gc` is called, and one page is mapped: at most four pages
    are programmed for three host pages. -/
theorem write_amplification_bounded_fourTimes : ∃ dev d,
    convInitNamespace sixCfg (fun _ _ => .null) (fun _ => 0) = .ok dev ∧
      (device sixCfg).run ⟨dev, none⟩ fourTimesRun = .ok d ∧ (d.dev.ftls 0).stats.gcCnt = 1 ∧
      AmplificationBounded sixCfg 1 (d.dev.ftls 0) ∧ (convFlush sixCfg d.dev).1.wafX1000 * 3 ≤ 4000 := by
  have hcond : (convInitNamespace sixCfg (fun _ _ => .null) (fun _ => 0) >>= fun dev =>
      ((device sixCfg).run ⟨dev, none⟩ fourTimesRun).map fun d =>
        (decide ((device sixCfg).Along (GcIn sixCfg (FewMapped sixCfg 1)) ⟨dev, none⟩ fourTimesRun),
          (d.dev.ftls 0).stats.gcCnt)) = .ok (true, 1) := by
    decide +kernel
  obtain ⟨dev, hinit, hcond⟩ := bind_eq_ok hcond
  obtain ⟨d, hrun, hcond⟩ := exists_ok_of_map hcond
  obtain ⟨hfew, hcnt⟩ := Prod.mk.inj hcond
  obtain ⟨hall, hwaf⟩ := write_amplification_bounded rfl hinit (of_decide_eq_true hfew) hrun
  exact ⟨dev, d, hinit, hrun, hcnt, hall 0 Nat.one_pos, hwaf⟩

end WaitGc

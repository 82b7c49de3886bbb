/-
  WAITGC verification — the write credits of the greedy build.

  `CreditInv`: the credits of an FTL are at most a line, and at least one wherever a host
  write may begin; the refill is between one page and a line.  A failed collection
  leaves the refill as it is, and a successful one sets it to the invalid pages of its
  victim, of which there is one at least since the victim comes from the queue.

  Each host page takes one credit, so the host pages between two calls of
  `foreground_gc` are bounded by the credits (`step_hostCredits`).
-/
import WaitGc.Proof.Devices
import WaitGc.Proof.Moves
import WaitGc.Proof.System

namespace WaitGc

open Outcome Function

variable {c : Cfg} {s s' : ConvFtl} {d d' : Device} {e : Event} {part : ℕ} {flag : Bool}
  {E : Fault → Prop} {pl : ℕ → Place}

/-! ## The invariant -/

/-- The credits of an FTL; `flag` while they are to be checked. -/
structure CreditInv (c : Cfg) (flag : Bool) (s : ConvFtl) : Prop where
  inv : FtlInv c s
  refill_pos : 1 ≤ s.wfc.creditsToRefill
  refill_le : s.wfc.creditsToRefill ≤ c.sp.pgsPerLine
  pos : flag = false → 1 ≤ s.wfc.writeCredits
  le : s.wfc.writeCredits + (if flag then 1 else 0) ≤ c.sp.pgsPerLine

/-- What `do_gc` does to the credits: nothing, or the refill is what the victim frees. -/
theorem doGc_credits (h : FtlInv c s) (hsel : Collectable c E s) (t : Timing)
    (hP : c.sp.pgsPerLine < 2 ^ 32) :
    Sat (fun e => E e ∨ e = .noFreeLine) (fun r => r = (false, s, r.2.2) ∨
      r.1 = true ∧ r.2.1.wfc.writeCredits = s.wfc.writeCredits ∧ r.2.1.stats.gcCnt = s.stats.gcCnt + 1 ∧
      1 ≤ r.2.1.wfc.creditsToRefill ∧ ∃ copied, r.2.1.stats.gcValidCopied = s.stats.gcValidCopied + copied ∧
        r.2.1.wfc.creditsToRefill + copied = c.sp.pgsPerLine) (doGc c s t true) := by
  obtain ⟨⟨pl, hok⟩, -⟩ := h
  refine (doGc_done hok (hsel pl hok) t).mono ?_ ?_
  · rintro e (he | ⟨he, -⟩)
    · exact .inl he
    · exact .inr he
  · rintro ⟨done, s', t'⟩ ⟨pl', hdone⟩
    cases hdone with
    | idle => exact .inl rfl
    | @collected v _ _ _ _ hT hE =>
      obtain ⟨hpos, hsum⟩ := hok.victim_counters hT.lt hT.place
      have hwfc := hE.wfc
      have hwaf := hE.waf
      simp only [GcStats.waf, Prod.mk.injEq] at hwaf
      have hipc : s'.wfc.creditsToRefill = (s.lm.lines v).ipc := by
        rw [hwfc]
        exact Nat.mod_eq_of_lt (by omega)
      refine .inr ⟨rfl, by rw [hwfc], hwaf.1, hipc ▸ hpos, (s.lm.lines v).vpc, hwaf.2.1, ?_⟩
      dsimp only
      rw [hipc, Nat.add_comm]
      exact hsum

/-- **The three ways an FTL changes keep the credits.** -/
theorem creditInv_rules (hP : c.sp.pgsPerLine < 2 ^ 32) :
    FtlRules c (fun e => E e ∨ e = .noFreeLine) (Collectable c E) (CreditInv c) where
  write s lpn nsecs h hlpn := by
    have hinv := (ftlInv_rules c E).write s lpn nsecs h.inv hlpn
    have hmoved := convWriteFtl_yields (c := c) s lpn nsecs
    refine (hinv.yields hmoved).mono (fun _ he => he) ?_
    rintro ⟨p, s'⟩ ⟨hinv, hf⟩
    have hwfc : s'.wfc = s.wfc := by
      have hframe := hf.frame
      dsimp only at hframe
      rw [hframe]
    have hle := h.le
    have hpos := h.pos rfl
    rw [if_neg (by simp)] at hle
    have hcons : consumeWriteCredit s' = _ :=
      consumeWriteCredit_eq (by rw [hwfc]; exact hpos) (by rw [hwfc]; exact hle.trans_lt hP)
    dsimp only at hinv ⊢
    rw [hcons, hwfc] at hinv ⊢
    refine ⟨hinv, h.refill_pos, h.refill_le, fun hflag => (nomatch hflag), ?_⟩
    rw [if_pos rfl]
    exact (Nat.sub_add_cancel hpos).trans_le hle
  discard s lpn now h hlpn := by
    have hinv := (ftlInv_rules c E).discard s lpn now h.inv hlpn
    refine (hinv.yields (discardFtl_yields s lpn now)).mono (fun _ he => he) ?_
    rintro s' ⟨hinv, hf⟩
    have hwfc : s'.wfc = s.wfc := by
      rcases hf with rfl | ⟨-, hf⟩
      · rfl
      · rw [hf]
    exact ⟨hinv, hwfc ▸ h.refill_pos, hwfc ▸ h.refill_le, fun hfl => hwfc ▸ h.pos hfl, hwfc ▸ h.le⟩
  refill s t h hsel := by
    have hinv := (ftlInv_rules c E).refill s t h.inv hsel
    have hle := h.le
    rw [if_pos rfl] at hle
    rw [checkAndRefill_eq] at hinv ⊢
    by_cases h0 : s.wfc.writeCredits = 0
    swap
    · rw [if_neg h0]
      exact ⟨h.inv, h.refill_pos, h.refill_le, fun _ => Nat.pos_of_ne_zero h0, (Nat.le_succ _).trans hle⟩
    -- the credits after a refill from `0`
    have hrefill (s' : ConvFtl) (hw : s'.wfc.writeCredits = 0) (hinv' : FtlInv c s'.refill)
        (hpos : 1 ≤ s'.wfc.creditsToRefill) (hle : s'.wfc.creditsToRefill ≤ c.sp.pgsPerLine) :
        CreditInv c false s'.refill := by
      have hcred : s'.refill.wfc.writeCredits = s'.wfc.creditsToRefill := by
        change u32 (s'.wfc.writeCredits + s'.wfc.creditsToRefill) = _
        rw [hw, Nat.zero_add]
        exact Nat.mod_eq_of_lt (hle.trans_lt hP)
      exact ⟨hinv', hpos, hle, fun _ => hcred ▸ hpos, by rw [if_neg (by simp), hcred]; exact hle⟩
    rw [if_pos h0] at hinv ⊢
    by_cases hlow : shouldGcHigh c s = true
    · rw [if_pos hlow] at hinv ⊢
      have hgc := doGc_credits h.inv (hsel ⟨h0, hlow⟩) t hP
      cases hr : doGc c s t true with
      | error e => rw [hr] at hgc; exact hgc
      | ok r =>
        rw [hr] at hgc hinv
        rcases hgc with hidle | ⟨-, hw, -, hpos, copied, -, hsum⟩
        · have hs : r.2.1 = s := by rw [hidle]
          change CreditInv c false r.2.1.refill
          exact hrefill r.2.1 (hs ▸ h0) hinv (hs ▸ h.refill_pos) (hs ▸ h.refill_le)
        · exact hrefill r.2.1 (hw.trans h0) hinv hpos (by omega)
    · rw [if_neg hlow] at hinv ⊢
      exact hrefill s h0 hinv h.refill_pos h.refill_le

theorem initial_credits (hP : c.sp.pgsPerLine < 2 ^ 32) (partId : ℕ) (junk : ℕ → Slot) :
    Yields (CreditInv c false) (convInitFtl c partId junk) := by
  have hinv := initial_inv c partId junk
  rw [convInitFtl_eq] at hinv ⊢
  split_ifs at hinv ⊢ with hB
  · have hcred : u32 c.sp.pgsPerLine = c.sp.pgsPerLine := Nat.mod_eq_of_lt hP
    have hpos : 1 ≤ u32 c.sp.pgsPerLine := by rw [hcred]; exact c.geo.pgsPerLine_pos
    exact ⟨hinv, hpos, hcred.le, fun _ => hpos, hcred.le⟩
  · trivial

/-! ## Host pages between two checks -/

/-- The partition whose credits are used up when the step checks them: the step calls
    `foreground_gc`. -/
def foregroundCheck (c : Cfg) (d : Device) : Event → Option ℕ
  | .resume => do
    let job ← d.job
    let part := job.lpn % c.nrParts
    if job.refill ∧ (d.dev.ftls part).wfc.writeCredits = 0 then some part else none
  | _ => none

/-- The host pages written so far and the credits. -/
def ConvFtl.hostCredits (s : ConvFtl) : ℕ := s.stats.hostWritePages + s.wfc.writeCredits

/-- **A host page takes one credit**, and nothing but `foreground_gc` gives any. -/
theorem step_hostCredits (hP : c.sp.pgsPerLine < 2 ^ 32) (hd : DevInv c (CreditInv c) d)
    (hpart : part < c.nrParts) (hno : foregroundCheck c d e ≠ some part)
    (h : (device c).step d e = .ok d') :
    (d'.dev.ftls part).hostCredits = (d.dev.ftls part).hostCredits := by
  have hmove : PartMove c d part e _ := step_partMove h
  have hcredit := hd.ftl part hpart
  generalize d'.dev.ftls part = s' at hmove
  cases hmove with
  | stays => rfl
  | discards hwfc hstats => rw [ConvFtl.hostCredits, hwfc, hstats, ConvFtl.hostCredits]
  | @writes job p s' hjob hr hl hp hw =>
    have hframe := ((convWriteFtl_yields _ _ _).of_ok hw).frame
    dsimp only at hframe
    have hwfc : s'.wfc = (d.dev.ftls part).wfc := by rw [hframe]
    have hhost : s'.stats.hostWritePages = (d.dev.ftls part).stats.hostWritePages + 1 := by
      rw [hframe]
      rfl
    have hflag : d.refilling c part = false := by
      unfold Device.refilling
      rw [hjob]
      dsimp only
      rw [hr, Bool.false_and]
    have hpos := hcredit.pos hflag
    have hle := hcredit.le
    have hcons : consumeWriteCredit s' = _ :=
      consumeWriteCredit_eq (by rw [hwfc]; exact hpos) (by rw [hwfc]; omega)
    rw [hcons, ConvFtl.hostCredits, ConvFtl.hostCredits]
    dsimp only
    rw [hhost, hwfc]
    omega
  | @checks job t s' hjob hr hp hc =>
    have hne : ¬ (d.dev.ftls part).wfc.writeCredits = 0 := by
      intro h0
      refine hno ?_
      simp [foregroundCheck, hjob, hr, hp, h0]
    rw [checkAndRefill_eq, if_neg hne] at hc
    cases hc
    rfl

/-! ## Runs -/

theorem credits_step (hpol : c.build.policy = .greedy) (hP : c.sp.pgsPerLine < 2 ^ 32)
    (hd : DevInv c (CreditInv c) d) (e : Event) :
    Sat (GreedyFault c) (DevInv c (CreditInv c)) ((device c).step d e) := by
  have hG : GcIn c (Collectable c fun e => c.build.isoLogSamples = true ∧ e = .wildPointer) d e :=
    fun part _ => collectable_greedy hpol _
  refine ((creditInv_rules hP).step hd hG).mono ?_ fun _ h => h
  rintro f ((hf | hf) | hf)
  · exact .inr (.inr hf)
  · exact .inl hf
  · exact .inr (.inl hf)

theorem credits_reachable (hpol : c.build.policy = .greedy) (hP : c.sp.pgsPerLine < 2 ^ 32)
    (h : Reachable c d) : DevInv c (CreditInv c) d := by
  obtain ⟨junk, clock, dev, es, hinit, hrun⟩ := h
  have h₀ : DevInv c (CreditInv c) ⟨dev, none⟩ := devInv_init (initial_credits hP) hinit
  exact (Machine.run_sat (fun _ e hd _ => credits_step hpol hP hd e) h₀ (Machine.along_true _ es)).of_ok hrun

/-- What the code relies on about its credits. -/
structure CreditsSound (c : Cfg) (d : Device) : Prop where
  -- a page of `conv_write` begins with a credit, and takes one
  page : ∀ job, d.job = some job → job.refill = false → job.lpn ≤ job.endLpn →
    let s := d.dev.ftls (job.lpn % c.nrParts)
    1 ≤ s.wfc.writeCredits ∧ s.wfc.writeCredits ≤ c.sp.pgsPerLine ∧
      (consumeWriteCredit s).wfc.writeCredits = s.wfc.writeCredits - 1
  refill : ∀ part < c.nrParts, 1 ≤ (d.dev.ftls part).wfc.creditsToRefill ∧
    (d.dev.ftls part).wfc.creditsToRefill ≤ c.sp.pgsPerLine
  -- a run that never calls `foreground_gc` for `part` writes a line to it at most
  between : ∀ es d', (device c).run d es = .ok d' → ∀ part < c.nrParts,
    (device c).Along (fun d e => foregroundCheck c d e ≠ some part) d es →
    (d'.dev.ftls part).stats.hostWritePages ≤ (d.dev.ftls part).stats.hostWritePages + c.sp.pgsPerLine
  -- a collection by `foreground_gc` grants what it reclaimed
  granted : ∀ d' part, foregroundCheck c d .resume = some part → (device c).step d .resume = .ok d' →
    (d'.dev.ftls part).stats.gcCnt ≠ (d.dev.ftls part).stats.gcCnt →
    ∃ copied, (d'.dev.ftls part).stats.gcValidCopied = (d.dev.ftls part).stats.gcValidCopied + copied ∧
      (d'.dev.ftls part).wfc.writeCredits + copied = c.sp.pgsPerLine

theorem refilling_eq {job : WriteJob} (hjob : d.job = some job) (part : ℕ) :
    d.refilling c part = (job.refill && (job.lpn % c.nrParts == part)) := by
  unfold Device.refilling
  rw [hjob]

/-- A check that finds no credits, and what it gives. -/
theorem granted_of_check (hpol : c.build.policy = .greedy) (hP : c.sp.pgsPerLine < 2 ^ 32)
    (hd : DevInv c (CreditInv c) d) (hpart : part < c.nrParts)
    (h0 : (d.dev.ftls part).wfc.writeCredits = 0) {t : Timing}
    (hc : checkAndRefillWriteCredit c (d.dev.ftls part) d.dev.timing = .ok (s', t))
    (hgc : s'.stats.gcCnt ≠ (d.dev.ftls part).stats.gcCnt) :
    ∃ copied, s'.stats.gcValidCopied = (d.dev.ftls part).stats.gcValidCopied + copied ∧
      s'.wfc.writeCredits + copied = c.sp.pgsPerLine := by
  have hspec := doGc_credits (hd.ftl part hpart).inv (collectable_greedy hpol _) d.dev.timing hP
  rw [checkAndRefill_eq, if_pos h0] at hc
  by_cases hlow : shouldGcHigh c (d.dev.ftls part) = true
  · rw [if_pos hlow] at hc
    obtain ⟨r, hr, heq⟩ := exists_ok_of_map hc
    obtain rfl : r.2.1.refill = s' := congrArg Prod.fst heq
    rcases hspec.of_ok hr with hidle | ⟨-, hw, -, -, copied, hcopied, hsum⟩
    · -- no victim: the statistics stay
      have hs : r.2.1 = d.dev.ftls part := by rw [hidle]
      rw [hs] at hgc
      exact absurd rfl hgc
    · refine ⟨copied, hcopied, ?_⟩
      change u32 (r.2.1.wfc.writeCredits + r.2.1.wfc.creditsToRefill) + copied = _
      rw [hw, h0, Nat.zero_add, u32, Nat.mod_eq_of_lt (by omega), hsum]
  · rw [if_neg hlow] at hc
    cases hc
    exact absurd rfl hgc

/-- **The write credits never underflow**, in every reachable state of the greedy build; the
    fields `write_credits` and `credits_to_refill` can hold the pages of a line. -/
theorem write_credits_sound (hpol : c.build.policy = .greedy) (hP : c.sp.pgsPerLine < 2 ^ 32)
    (h : Reachable c d) : CreditsSound c d := by
  have hd := credits_reachable hpol hP h
  refine ⟨?_, fun part hpart => ⟨(hd.ftl part hpart).refill_pos, (hd.ftl part hpart).refill_le⟩, ?_, ?_⟩
  · intro job hjob hr _
    have hcredit := hd.ftl _ (Nat.mod_lt job.lpn c.nrParts_pos)
    rw [refilling_eq hjob, hr, Bool.false_and] at hcredit
    have hle := hcredit.le
    rw [if_neg (by simp), Nat.add_zero] at hle
    refine ⟨hcredit.pos rfl, hle, ?_⟩
    rw [consumeWriteCredit_eq (hcredit.pos rfl) (hle.trans_lt hP)]
  · intro es d' hrun part hpart hno
    have hinv : Sat (fun _ => True) (fun d₁ => DevInv c (CreditInv c) d₁ ∧
        (d₁.dev.ftls part).hostCredits = (d.dev.ftls part).hostCredits) ((device c).run d es) := by
      refine Machine.run_sat ?_ ⟨hd, rfl⟩ hno
      rintro d₁ e ⟨hd₁, hK⟩ he
      have hstep := credits_step hpol hP hd₁ e
      cases hs : (device c).step d₁ e with
      | error f => trivial
      | ok d₂ =>
        rw [hs] at hstep
        exact ⟨hstep, (step_hostCredits hP hd₁ hpart he hs).trans hK⟩
    obtain ⟨-, hK⟩ := hinv.of_ok hrun
    have hle := (hd.ftl part hpart).le
    rw [ConvFtl.hostCredits, ConvFtl.hostCredits] at hK
    omega
  · intro d' part hcheck hs hgc
    have hmove : PartMove c d part .resume _ := step_partMove hs
    generalize d'.dev.ftls part = s' at hmove hgc
    unfold foregroundCheck at hcheck
    cases hjob : d.job with
    | none => simp [hjob] at hcheck
    | some job =>
      simp only [hjob, Option.bind_eq_bind, Option.bind_some, Option.ite_none_right_eq_some,
        Option.some.injEq] at hcheck
      obtain ⟨⟨hr, h0⟩, rfl⟩ := hcheck
      cases hmove with
      | stays => exact absurd rfl hgc
      | writes hjob' hr' =>
        rw [hjob] at hjob'
        cases hjob'
        rw [hr] at hr'
        exact nomatch hr'
      | checks hjob' hr' hp hc =>
        exact granted_of_check hpol hP hd (Nat.mod_lt _ c.nrParts_pos) h0 hc hgc

/-- The credits are used up by two copies of a page.  The refill collects their line, copies the
    valid page and grants the other one. -/
theorem write_credits_sound_refill : ∃ d d', Reachable tinyCfg d ∧
    foregroundCheck tinyCfg d .resume = some 0 ∧ (device tinyCfg).step d .resume = .ok d' ∧
    (d.dev.ftls 0).stats.gcCnt = 0 ∧ (d'.dev.ftls 0).stats.gcCnt = 1 ∧
    (d'.dev.ftls 0).wfc.writeCredits = 1 ∧ CreditsSound tinyCfg d := by
  have hcond : (convInitNamespace tinyCfg (fun _ _ => .null) (fun _ => 0) >>= fun dev =>
      (device tinyCfg).run ⟨dev, none⟩ ((pagesRun [0, 0]).take 6) >>= fun d =>
        ((device tinyCfg).step d .resume).map fun d' =>
          (foregroundCheck tinyCfg d .resume, (d.dev.ftls 0).stats.gcCnt, (d'.dev.ftls 0).stats.gcCnt,
            (d'.dev.ftls 0).wfc.writeCredits)) = .ok (some 0, 0, 1, 1) := by
    decide +kernel
  obtain ⟨dev, hinit, hcond⟩ := bind_eq_ok hcond
  obtain ⟨d, hrun, hcond⟩ := bind_eq_ok hcond
  obtain ⟨d', hstep, hcond⟩ := exists_ok_of_map hcond
  simp only [Prod.mk.injEq] at hcond
  obtain ⟨hcheck, hbefore, hafter, hcredits⟩ := hcond
  have hd : Reachable tinyCfg d := ⟨_, _, dev, _, hinit, hrun⟩
  exact ⟨d, d', hd, hcheck, hstep, hbefore, hafter, hcredits, write_credits_sound rfl (by decide) hd⟩

end WaitGc

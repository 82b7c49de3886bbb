/-
  WAITGC verification — no page of the host is lost on the flash.

  `hostOps` is what an event does to the pages of one FTL instance: a page of
  `conv_write` is written, the pages of `conv_discard` are trimmed.  Each step
  of the device is answered by operations of the flash that it can carry out
  and that keep every page of the host in some cell (`answers_step`).

  `flash_durable`: in every run the flash was driven so from its first page on.
-/
import WaitGc.Proof.FlashCells
import WaitGc.Theorems.LogicalPages

namespace WaitGc

open Outcome Function Flash

variable {c : Cfg} {d d' : Device} {dev dev' : Dev} {e : Event} {es : List Event} {lpn part : ℕ}
  {E : Fault → Prop}

/-! ## What an event does to the pages of an instance -/

/-- A page of the namespace is trimmed, as the instance sees it. -/
def trimOp (c : Cfg) (part lpn : ℕ) : Option (HostOp ℕ) :=
  if lpn % c.nrParts = part then some (.trim (lpn / c.nrParts)) else none

/-- The pages of the instance that the event writes and trims, in order. -/
def hostOps (c : Cfg) (part : ℕ) (d : Device) : Event → List (HostOp ℕ)
  | .dispatch req =>
    match d.job, req.cmd with
    | none, .dsm dsm => (dsm.trimmed c).filterMap (trimOp c part)
    | _, _ => []
  | .resume =>
    match d.job with
    | some job =>
      if job.refill = false ∧ job.lpn ≤ job.endLpn ∧ job.lpn % c.nrParts = part then
        [.write (job.lpn / c.nrParts)]
      else []
    | none => []
  | .fire _ => []

/-! ## One step -/

/-- **`conv_discard`** drops the pages that it walks. -/
theorem convDiscard_answers (hinv : ∀ part < c.nrParts, FtlInv c (dev.ftls part)) (dsm : DsmCommand)
    (now part : ℕ) : Yields (fun r => FlashAnswers c (dev.ftls part)
      ((dsm.trimmed c).filterMap (trimOp c part)) (r.2.ftls part)) (convDiscard c dev dsm now) := by
  unfold convDiscard
  by_cases had : dsm.attributes.getLsbD 2 = false
  · rw [if_pos had]
    have hnone : dsm.trimmed c = [] := if_pos had
    rw [hnone]
    exact .refl c _
  rw [if_neg had]
  cases hr : dsm.dsmRanges with
  | none =>
    have hnone : dsm.trimmed c = [] := by rw [DsmCommand.trimmed, if_neg had, hr]
    rw [hnone]
    exact .refl c _
  | some ranges =>
    have hlist : dsm.trimmed c =
        (List.range (dsm.nr.toNat % 256 + 1)).flatMap fun i => discardLpns c (ranges i) := by
      rw [DsmCommand.trimmed, if_neg had, hr]
      rfl
    dsimp only
    rw [← hlist]
    refine Sat.bind (sat_foldlM (fun pre (d' : Dev) => (∀ part < c.nrParts, FtlInv c (d'.ftls part)) ∧
      FlashAnswers c (dev.ftls part) (pre.filterMap (trimOp c part)) (d'.ftls part)) (dsm.trimmed c) ?_
      ⟨hinv, .refl c _⟩) fun d' h => h.2
    rintro pre lpn post d₁ hl ⟨hinv₁, hans⟩
    have hlpn := lt_nsPages.1 (trimmed_lt (show lpn ∈ dsm.trimmed c by simp [hl]))
    have hpart : lpn % c.nrParts < c.nrParts := Nat.mod_lt _ c.nrParts_pos
    obtain ⟨⟨pl, hok⟩, -⟩ := hinv₁ _ hpart
    unfold discardLpn
    refine (((ftlInv_rules c fun _ => False).discard _ _ now (hinv₁ _ hpart) hlpn).to_yields.and
      (discardFtl_answers hok hlpn now)).bind ?_
    rintro s' ⟨hinv', hans'⟩
    refine ⟨fun i hi => ?_, ?_⟩
    · rw [setFtl_ftls]
      split_ifs with he
      · exact hinv'
      · exact hinv₁ i hi
    · rw [setFtl_ftls, List.filterMap_append]
      by_cases he : part = lpn % c.nrParts
      · subst he
        have hop : [lpn].filterMap (trimOp c (lpn % c.nrParts)) = [.trim (lpn / c.nrParts)] := by simp [trimOp]
        rw [if_pos rfl, hop]
        exact hans.trans hans'
      · have hop : [lpn].filterMap (trimOp c part) = [] := by simp [trimOp, Ne.symm he]
        rw [if_neg he, hop]
        exact hans.trans (.refl c _)

/-- **One step of the device**, seen from the flash of an instance. -/
theorem answers_step (hd : DevInv c (fun _ => FtlInv c) d) (hG : GcIn c (Collectable c E) d e)
    (h : (device c).step d e = .ok d') :
    FlashAnswers c (d.dev.ftls part) (hostOps c part d e) (d'.dev.ftls part) := by
  obtain ⟨dev, job⟩ := d
  have hsame {s' : ConvFtl} (he : s' = dev.ftls part) : FlashAnswers c (dev.ftls part) [] s' := by
    rw [he]
    exact .refl c _
  cases e with
  | dispatch req =>
    change dispatch c ⟨dev, job⟩ req = .ok d' at h
    unfold dispatch at h
    unfold hostOps
    cases job with
    | some job =>
      cases h
      exact hsame rfl
    | none =>
      dsimp only at h ⊢
      cases hcmd : req.cmd with
      | write rw =>
        rw [hcmd] at h
        obtain ⟨r, hr, rfl⟩ := exists_ok_of_map h
        exact hsame (congrFun ((convWriteStart_yields _ _ _).of_ok hr).1 part)
      | read rw =>
        rw [hcmd] at h
        cases h
        exact hsame (congrFun (convRead_ftls _ _ _) part)
      | flush =>
        rw [hcmd] at h
        cases h
        exact hsame rfl
      | dsm dsm =>
        rw [hcmd] at h
        obtain ⟨r, hr, rfl⟩ := exists_ok_of_map h
        exact (convDiscard_answers hd.ftl dsm _ part).of_ok hr
      | other opcode =>
        rw [hcmd] at h
        cases h
        exact hsame rfl
  | resume =>
    change resume c ⟨dev, job⟩ = .ok d' at h
    unfold resume at h
    unfold hostOps
    cases job with
    | none =>
      cases h
      exact hsame rfl
    | some job =>
      have hmod : job.lpn % c.nrParts < c.nrParts := Nat.mod_lt _ c.nrParts_pos
      obtain ⟨⟨pl, hok⟩, -⟩ := hd.ftl _ hmod
      dsimp only at h hok ⊢
      by_cases hr : job.refill = true
      · rw [if_pos hr] at h
        rw [if_neg (by simp [hr])]
        obtain ⟨r, hres, rfl⟩ := exists_ok_of_map h
        obtain ⟨⟨s', t⟩, hs', hres⟩ := bind_eq_ok hres
        cases hres
        change FlashAnswers c (dev.ftls part) [] ((dev.setFtl _ s').ftls part)
        rw [setFtl_ftls]
        by_cases hi : part = job.lpn % c.nrParts
        · rw [if_pos hi, hi]
          have hsel (hdue : GcDue c (dev.ftls (job.lpn % c.nrParts))) :
              Selects c (dev.ftls (job.lpn % c.nrParts)) pl E true :=
            hG _ (by simp [gcCall, hr, hdue]) pl hok
          exact (checkAndRefill_answers hok hsel dev.timing).of_ok hs'
        · rw [if_neg hi]
          exact .refl c _
      have hr : job.refill = false := by simpa using hr
      rw [if_neg (by simp [hr])] at h
      by_cases hl : job.lpn ≤ job.endLpn
      · rw [if_pos hl] at h
        obtain ⟨r, hres, rfl⟩ := exists_ok_of_map h
        obtain ⟨⟨p, s'⟩, hs', hres⟩ := bind_eq_ok hres
        have hlpn : job.lpn / c.nrParts < c.sp.ttPgs :=
          (Nat.div_le_div_right hl).trans_lt (hd.job job rfl)
        have hftls : r.1.ftls = (dev.setFtl (job.lpn % c.nrParts) (consumeWriteCredit s')).ftls := by
          dsimp only at hres
          split_ifs at hres
          · cases hres
            rfl
          · cases hres
            rfl
        change FlashAnswers c (dev.ftls part) _ (r.1.ftls part)
        rw [hftls, setFtl_ftls]
        by_cases hi : part = job.lpn % c.nrParts
        · rw [if_pos ⟨hr, hl, hi.symm⟩, if_pos hi, hi]
          exact (convWriteFtl_answers hok hlpn job.nsecsLatest).of_ok hs'
        · rw [if_neg fun hc => hi hc.2.2.symm, if_neg hi]
          exact .refl c _
      · rw [if_neg hl] at h
        rw [if_neg fun hc => hl hc.2.1]
        cases h
        exact hsame rfl
  | fire i =>
    change Except.ok (fire ⟨dev, job⟩ i) = .ok d' at h
    cases h
    refine hsame ?_
    unfold fire
    dsimp only
    cases dev.pending[i]? <;> rfl

/-! ## Runs -/

theorem initial_onFlash {junk : ℕ → ℕ → Slot} {clock : ℕ → ℕ}
    (hinit : convInitNamespace c junk clock = .ok dev) (hpart : part < c.nrParts) :
    OnFlash c (dev.ftls part) .erased := by
  have h₀ : DevInv c (fun _ s => OnFlash c s .erased) ⟨dev, none⟩ := by
    refine devInv_init (fun part junk => ?_) hinit
    refine (convInitFtl_yields c part junk).mono (fun _ h => h) ?_
    rintro s ⟨rfl, -⟩
    refine ⟨?_, fun q _ => iff_of_true rfl rfl, rfl, rfl, fun _ => rfl⟩
    have hcells : (ConvFtl.initial c part junk).cells c = fun _ => none := by
      funext l
      exact if_neg fun hc => by simp [ConvFtl.initial] at hc
    rw [hcells]
    exact Chip.holds_erased
  exact h₀.ftl part hpart

/-- **No page of the host is lost on the flash**, in every run whose collections took a line
    of the queue (as the greedy ones always do): the FTL drove its flash by operations that a
    NAND flash can carry out, after each of them every page that was written and not trimmed
    since was in some cell with its last write, and in the end the mapping table leads to
    these cells. -/
theorem flash_durable {junk : ℕ → ℕ → Slot} {clock : ℕ → ℕ}
    (hinit : convInitNamespace c junk clock = .ok dev)
    (hsel : c.build.policy = .greedy ∨ (device c).Along (GcIn c (StaleHarmless c)) ⟨dev, none⟩ es)
    (hrun : (device c).run ⟨dev, none⟩ es = .ok d) (hpart : part < c.nrParts) :
    ∃ ops : List (Op BlkAddr ℕ), ∃ f,
      Chip.erased.Safe c.sp.pgsPerBlk ops ∧ Chip.erased.after ops = f ∧
      ops.filterMap Op.host = (device c).logged (hostOps c part) ⟨dev, none⟩ es ∧
      f.disk = ((device c).logged (hostOps c part) ⟨dev, none⟩ es).foldl Disk.apply .empty ∧
      OnFlash c (d.dev.ftls part) f := by
  have h₀ : DevInv c (fun _ => FtlInv c) ⟨dev, none⟩ := devInv_init (initial_inv c) hinit
  have hG := collectable_along hsel
  have hans : FlashAnswers c (dev.ftls part) ((device c).logged (hostOps c part) ⟨dev, none⟩ es)
      (d.dev.ftls part) :=
    Machine.run_logged
      (R := fun (d : Device) hs (d' : Device) => FlashAnswers c (d.dev.ftls part) hs (d'.dev.ftls part))
      (fun d => .refl c (d.dev.ftls part)) (fun _ _ _ _ _ h h' => h.trans h')
      (fun d e d' hd hG hs =>
        ⟨((ftlInv_rules c _).step hd hG).of_ok hs, answers_step hd hG hs⟩) h₀ hG hrun
  obtain ⟨f, ⟨ops, hsafe, rfl, hlog⟩, hf⟩ := hans _ (initial_onFlash hinit hpart)
  refine ⟨ops, _, hsafe, rfl, hlog, ?_, hf⟩
  rw [← hlog]
  exact Chip.disk_after

/-- One page is written twice and the line of both copies collected: the second one is copied,
    and the page is found with its last write. -/
theorem flash_durable_copiedPage : ∃ dev d ops f,
    convInitNamespace tinyCfg (fun _ _ => .null) (fun _ => 0) = .ok dev ∧
      (device tinyCfg).run ⟨dev, none⟩ (pagesRun [0, 0]) = .ok d ∧
      (d.dev.ftls 0).stats.gcCnt = 1 ∧ (d.dev.ftls 0).stats.gcValidCopied = 1 ∧
      Chip.erased.Safe tinyCfg.sp.pgsPerBlk ops ∧ Chip.erased.after ops = f ∧
      ops.filterMap Op.host = [.write 0, .write 0] ∧ f.disk.latest 0 = some 1 ∧
      OnFlash tinyCfg (d.dev.ftls 0) f := by
  have hcond : (convInitNamespace tinyCfg (fun _ _ => .null) (fun _ => 0) >>= fun dev =>
      ((device tinyCfg).run ⟨dev, none⟩ (pagesRun [0, 0])).map fun d =>
        ((d.dev.ftls 0).stats.gcCnt, (d.dev.ftls 0).stats.gcValidCopied,
          decide ((device tinyCfg).logged (hostOps tinyCfg 0) ⟨dev, none⟩ (pagesRun [0, 0]) =
            [.write 0, .write 0]))) = .ok (1, 1, true) := by
    decide +kernel
  obtain ⟨dev, hinit, hcond⟩ := bind_eq_ok hcond
  obtain ⟨d, hrun, hcond⟩ := exists_ok_of_map hcond
  simp only [Prod.mk.injEq, decide_eq_true_eq] at hcond
  obtain ⟨hcnt, hcopied, hlog⟩ := hcond
  obtain ⟨ops, f, hsafe, hafter, hops, hdisk, hf⟩ :=
    flash_durable hinit (.inl rfl) hrun (show 0 < tinyCfg.nrParts from Nat.one_pos)
  rw [hlog] at hops hdisk
  refine ⟨dev, d, ops, f, hinit, hrun, hcnt, hcopied, hsafe, hafter, hops, ?_, hf⟩
  rw [hdisk]
  rfl

end WaitGc

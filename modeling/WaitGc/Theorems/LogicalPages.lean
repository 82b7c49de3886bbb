/-
  WAITGC verification — the FTL as a set of logical pages.

  To the host a namespace is a set of pages that hold data.  A page enters it
  when `conv_write` gets to it and leaves it when `conv_discard` does; garbage
  collections, refused commands, reads, flushes and buffer releases do not
  change the set (`mapped_step`).

  `mapped_iff_written`: after any run a page is mapped exactly if the last
  event that touched it was a write.
-/
import WaitGc.Theorems.CostBenefitVictim
import WaitGc.Theorems.Deallocate

namespace WaitGc

open Outcome Function

variable {c : Cfg} {s s' : ConvFtl} {d d' : Device} {dev dev' : Dev} {e : Event} {es : List Event}
  {lpn part : ℕ} {E : Fault → Prop}

/-! ## What an event does to a page -/

/-- The pages that `conv_discard` walks. -/
def DsmCommand.trimmed (c : Cfg) (dsm : DsmCommand) : List ℕ :=
  if dsm.attributes.getLsbD 2 = false then []
  else match dsm.dsmRanges with
    | none => []
    | some ranges => (List.range dsm.nrRanges).flatMap fun i => discardLpns c (ranges i)

/-- What the event does to the page `lpn`: it writes it, it trims it, or it does not touch
    it. -/
def pageOp (c : Cfg) (lpn : ℕ) (d : Device) : Event → Option Bool
  | .dispatch req =>
    match d.job, req.cmd with
    | none, .dsm dsm => if lpn ∈ dsm.trimmed c then some false else none
    | _, _ => none
  | .resume =>
    match d.job with
    | some job => if job.refill = false ∧ job.lpn = lpn ∧ lpn ≤ job.endLpn then some true else none
    | none => none
  | .fire _ => none

/-- The page is mapped, as a value. -/
def Dev.isMapped (c : Cfg) (d : Dev) (lpn : ℕ) : Bool := mappedPpa (d.entry c lpn)

theorem isMapped_congr (h : dev'.ftls = dev.ftls) : dev'.isMapped c lpn = dev.isMapped c lpn := by
  rw [Dev.isMapped, Dev.isMapped, Dev.entry, Dev.entry, h]

theorem isMapped_setFtl (d : Dev) (s : ConvFtl) (lpn lpn' : ℕ) :
    (d.setFtl (lpn % c.nrParts) s).isMapped c lpn' =
      if lpn' % c.nrParts = lpn % c.nrParts then mappedPpa (s.maptbl (lpn' / c.nrParts))
      else d.isMapped c lpn' := by
  rw [Dev.isMapped, setFtl_entry, apply_ite mappedPpa]
  rfl

theorem isMapped_eq {d : Dev} (h : lpn % c.nrParts = part) :
    d.isMapped c lpn = mappedPpa ((d.ftls part).maptbl (lpn / c.nrParts)) := by
  rw [Dev.isMapped, Dev.entry, h]

/-! ## The three ways an FTL changes -/

theorem trimmed_lt {dsm : DsmCommand} (h : lpn ∈ dsm.trimmed c) : lpn < nsPages c := by
  unfold DsmCommand.trimmed at h
  split_ifs at h with had
  · cases h
  cases hr : dsm.dsmRanges with
  | none => rw [hr] at h; cases h
  | some ranges =>
    rw [hr] at h
    obtain ⟨i, -, h⟩ := List.mem_flatMap.1 h
    unfold discardLpns at h
    dsimp only at h
    split_ifs at h with h₁ h₂
    · cases h
    · cases h
    · rw [lpnRange, List.mem_range'_1] at h
      exact lt_nsPages.2 ((Nat.div_le_div_right (by omega)).trans_lt (not_le.1 h₂))

/-- **`conv_discard`** unmaps the pages that it walks. -/
theorem convDiscard_isMapped (hinv : ∀ part < c.nrParts, FtlInv c (dev.ftls part)) (dsm : DsmCommand)
    (now : ℕ) : Yields (fun r => ∀ lpn, r.2.isMapped c lpn =
      if lpn ∈ dsm.trimmed c then false else dev.isMapped c lpn) (convDiscard c dev dsm now) := by
  unfold convDiscard
  by_cases had : dsm.attributes.getLsbD 2 = false
  · rw [if_pos had]
    intro lpn
    have hnone : lpn ∉ dsm.trimmed c := by
      rw [DsmCommand.trimmed, if_pos had]
      exact List.not_mem_nil
    exact (if_neg hnone).symm
  rw [if_neg had]
  cases hr : dsm.dsmRanges with
  | none =>
    intro lpn
    have hnone : lpn ∉ dsm.trimmed c := by simp [DsmCommand.trimmed, hr]
    exact (if_neg hnone).symm
  | some ranges =>
    have hlist : dsm.trimmed c =
        (List.range (dsm.nr.toNat % 256 + 1)).flatMap fun i => discardLpns c (ranges i) := by
      rw [DsmCommand.trimmed, if_neg had, hr]
      rfl
    dsimp only
    rw [← hlist]
    refine Sat.bind (sat_foldlM (fun pre (d' : Dev) => TrimInv c dev d' pre) (dsm.trimmed c) ?_
      ⟨hinv, by simp, by simp⟩) ?_
    · intro pre lpn post d₁ hl h
      obtain ⟨d₂, he, h₂⟩ := h.step (trimmed_lt (show lpn ∈ dsm.trimmed c by simp [hl])) now
      rw [he]
      exact h₂
    · intro d' h lpn
      change mappedPpa (d'.entry c lpn) = _
      rw [h.entry lpn]
      by_cases hm : dev.Mapped c lpn
      · by_cases hin : lpn ∈ dsm.trimmed c
        · rw [if_pos ⟨hin, hm⟩, if_pos hin]
          exact mappedPpa_unmapped
        · rw [if_neg fun hc => hin hc.1, if_neg hin]
          rfl
      · have hfalse : dev.isMapped c lpn = false := eq_false_of_ne_true hm
        rw [if_neg fun hc => hm hc.2, hfalse, ite_self]
        exact hfalse

/-- **A page of `conv_write`** maps one page. -/
theorem convWriteFtl_isMapped (h : FtlInv c s) (hlpn : lpn < c.sp.ttPgs) (nsecs : ℕ) :
    Yields (fun r => ∀ l, mappedPpa ((consumeWriteCredit r.2).maptbl l) =
      if l = lpn then true else mappedPpa (s.maptbl l)) (convWriteFtl c s lpn nsecs) := by
  obtain ⟨⟨pl, hok⟩, -⟩ := h
  refine (convWriteFtl_ok hok hlpn nsecs).to_yields.mono (fun _ he => he) ?_
  rintro ⟨p, s'⟩ ⟨pl', hw⟩ l
  change HostWrote c lpn nsecs s p s' pl' at hw
  obtain ⟨wfc, hcredit⟩ : ∃ wfc, consumeWriteCredit s' = { s' with wfc := wfc } := ⟨_, rfl⟩
  have hp : IsPage c p := by
    rw [hw.page]
    exact (hok.phys.newPage .userIo).1
  dsimp only
  rw [hcredit]
  dsimp only
  rw [hw.maptbl]
  by_cases hl : l = lpn
  · rw [hl, update_self, if_pos rfl]
    exact hp.mapped
  · rw [update_of_ne hl, if_neg hl]

/-- **The check of the credits** maps and unmaps nothing. -/
theorem checkAndRefill_isMapped (h : FtlInv c s) (hsel : GcDue c s → Collectable c E s) (t : Timing) :
    Yields (fun r => ∀ l < c.sp.ttPgs, mappedPpa (r.1.maptbl l) = mappedPpa (s.maptbl l))
      (checkAndRefillWriteCredit c s t) := by
  obtain ⟨⟨pl, hok⟩, -⟩ := h
  rw [checkAndRefill_eq]
  split_ifs with h0 hlow
  · refine Sat.map_ok (doGc_done hok (hsel ⟨h0, hlow⟩ pl hok) t).to_yields ?_
    rintro ⟨done, s', t'⟩ ⟨pl', hdone⟩
    cases hdone with
    | idle => exact fun l _ => rfl
    | collected _ _ hE => exact hE.mapped
  · exact fun l _ => rfl
  · exact fun l _ => rfl

/-! ## One step -/

theorem convWritePage_isMapped {job : WriteJob} (hd : DevInv c (fun _ => FtlInv c) ⟨dev, some job⟩)
    (hl : job.lpn ≤ job.endLpn) : Yields (fun r => ∀ lpn, r.1.isMapped c lpn =
      if job.lpn = lpn then true else dev.isMapped c lpn) (convWritePage c dev job) := by
  have hpart : job.lpn % c.nrParts < c.nrParts := Nat.mod_lt _ c.nrParts_pos
  have hlpn : job.lpn / c.nrParts < c.sp.ttPgs := (Nat.div_le_div_right hl).trans_lt (hd.job job rfl)
  unfold convWritePage
  refine (convWriteFtl_isMapped (hd.ftl _ hpart) hlpn job.nsecsLatest).bind ?_
  rintro ⟨p, s'⟩ hs'
  have hset (lpn : ℕ) : (dev.setFtl (job.lpn % c.nrParts) (consumeWriteCredit s')).isMapped c lpn =
      if job.lpn = lpn then true else dev.isMapped c lpn := by
    rw [isMapped_setFtl]
    by_cases hmod : lpn % c.nrParts = job.lpn % c.nrParts
    · rw [if_pos hmod, hs', isMapped_eq hmod]
      refine if_congr ?_ rfl rfl
      constructor
      · intro hdiv
        rw [← Nat.div_add_mod lpn c.nrParts, ← Nat.div_add_mod job.lpn c.nrParts, hdiv, hmod]
      · rintro rfl
        rfl
    · rw [if_neg hmod, if_neg fun he => hmod (by rw [he])]
  dsimp only
  split_ifs
  · exact hset
  · exact hset

theorem convWriteRefill_isMapped {job : WriteJob} (hd : DevInv c (fun _ => FtlInv c) ⟨dev, some job⟩)
    (hr : job.refill = true) (hG : GcIn c (Collectable c E) ⟨dev, some job⟩ .resume) :
    Yields (fun r => ∀ lpn < nsPages c, r.1.isMapped c lpn = dev.isMapped c lpn)
      (convWriteRefill c dev job) := by
  have hpart : job.lpn % c.nrParts < c.nrParts := Nat.mod_lt _ c.nrParts_pos
  have hsel (hdue : GcDue c (dev.ftls (job.lpn % c.nrParts))) :
      Collectable c E (dev.ftls (job.lpn % c.nrParts)) := hG _ (by simp [gcCall, hr, hdue])
  unfold convWriteRefill
  refine (checkAndRefill_isMapped (hd.ftl _ hpart) hsel dev.timing).bind ?_
  rintro ⟨s', t'⟩ hs' lpn hlpn
  change (dev.setFtl (job.lpn % c.nrParts) s').isMapped c lpn = _
  rw [isMapped_setFtl]
  by_cases hmod : lpn % c.nrParts = job.lpn % c.nrParts
  · rw [if_pos hmod, hs' _ (lt_nsPages.1 hlpn), isMapped_eq hmod]
  · rw [if_neg hmod]

/-- **One step of the device** changes the pages as `pageOp` says. -/
theorem mapped_step (hd : DevInv c (fun _ => FtlInv c) d) (hG : GcIn c (Collectable c E) d e)
    (hlpn : lpn < nsPages c) (h : (device c).step d e = .ok d') :
    d'.dev.isMapped c lpn = (pageOp c lpn d e).getD (d.dev.isMapped c lpn) := by
  obtain ⟨dev, job⟩ := d
  have hsame {dev' : Dev} (hftls : dev'.ftls = dev.ftls) :
      dev'.isMapped c lpn = (none : Option Bool).getD (dev.isMapped c lpn) := isMapped_congr hftls
  cases e with
  | dispatch req =>
    change dispatch c ⟨dev, job⟩ req = .ok d' at h
    unfold dispatch at h
    unfold pageOp
    cases job with
    | some job =>
      cases h
      exact hsame rfl
    | none =>
      dsimp only at h ⊢
      cases hcmd : req.cmd with
      | write rw =>
        rw [hcmd] at h
        obtain ⟨r, hr, rfl⟩ := exists_ok_of_map h
        exact hsame ((convWriteStart_yields _ _ _).of_ok hr).1
      | read rw =>
        rw [hcmd] at h
        cases h
        exact hsame (convRead_ftls _ _ _)
      | flush =>
        rw [hcmd] at h
        cases h
        exact hsame rfl
      | dsm dsm =>
        rw [hcmd] at h
        obtain ⟨r, hr, rfl⟩ := exists_ok_of_map h
        have hmap := (convDiscard_isMapped hd.ftl dsm req.nsecsStart.toNat).of_ok hr lpn
        dsimp only
        rw [hmap]
        split_ifs <;> rfl
      | other opcode =>
        rw [hcmd] at h
        cases h
        exact hsame rfl
  | resume =>
    change resume c ⟨dev, job⟩ = .ok d' at h
    unfold resume at h
    unfold pageOp
    cases job with
    | none =>
      cases h
      exact hsame rfl
    | some job =>
      dsimp only at h ⊢
      by_cases hr : job.refill = true
      · rw [if_pos hr] at h
        obtain ⟨r, hres, rfl⟩ := exists_ok_of_map h
        rw [if_neg fun hc => by simp [hr] at hc]
        exact (convWriteRefill_isMapped hd hr hG).of_ok hres lpn hlpn
      · have hr : job.refill = false := by simpa using hr
        rw [if_neg (by simp [hr])] at h
        by_cases hl : job.lpn ≤ job.endLpn
        · rw [if_pos hl] at h
          obtain ⟨r, hres, rfl⟩ := exists_ok_of_map h
          have hmap := (convWritePage_isMapped hd hl).of_ok hres lpn
          dsimp only
          rw [hmap]
          by_cases he : job.lpn = lpn
          · rw [if_pos he, if_pos ⟨hr, he, he ▸ hl⟩]
            rfl
          · rw [if_neg he, if_neg fun hc => he hc.2.1]
            rfl
        · rw [if_neg hl] at h
          cases h
          have hno : ¬ (job.refill = false ∧ job.lpn = lpn ∧ lpn ≤ job.endLpn) := by
            rintro ⟨-, rfl, hle⟩
            exact hl hle
          rw [if_neg hno]
          exact hsame rfl
  | fire i =>
    change Except.ok (fire ⟨dev, job⟩ i) = .ok d' at h
    cases h
    refine hsame ?_
    unfold fire
    dsimp only
    cases dev.pending[i]? <;> rfl

/-! ## Runs -/

theorem initial_isMapped {junk : ℕ → ℕ → Slot} {clock : ℕ → ℕ}
    (hinit : convInitNamespace c junk clock = .ok dev) (lpn : ℕ) :
    dev.isMapped c lpn = false := by
  have h₀ : DevInv c (fun _ s => ∀ l, mappedPpa (s.maptbl l) = false) ⟨dev, none⟩ := by
    refine devInv_init (fun part junk => ?_) hinit
    refine (convInitFtl_yields c part junk).mono (fun _ h => h) ?_
    rintro s ⟨rfl, -⟩ l
    exact mappedPpa_unmapped
  exact h₀.ftl _ (Nat.mod_lt lpn c.nrParts_pos) _

theorem collectable_along (hsel : c.build.policy = .greedy ∨
      (device c).Along (GcIn c (StaleHarmless c)) ⟨dev, none⟩ es) :
    (device c).Along (GcIn c (Collectable c fun _ => True)) ⟨dev, none⟩ es := by
  rcases hsel with hpol | hsel
  · refine (Machine.along_true _ es).mono fun d e _ part _ pl hok => ?_
    exact (collectable_greedy hpol _ pl hok).mono (fun _ _ => trivial) fun _ h => h
  · by_cases hpol : c.build.policy = .greedy
    · refine (Machine.along_true _ es).mono fun d e _ part _ pl hok => ?_
      exact (collectable_greedy hpol _ pl hok).mono (fun _ _ => trivial) fun _ h => h
    · refine hsel.mono fun d e h part hpart pl hok => ?_
      exact (collectable_of_harmless hpol (h part hpart) pl hok).mono (fun _ _ => trivial) fun _ h => h

/-- **The FTL is the set of the pages that were written and not trimmed since**, in every run
    whose collections took a line of the queue (as the greedy ones always do): a page is
    mapped in the end exactly if the last event that touched it was a write. -/
theorem mapped_iff_written {junk : ℕ → ℕ → Slot} {clock : ℕ → ℕ}
    (hinit : convInitNamespace c junk clock = .ok dev)
    (hsel : c.build.policy = .greedy ∨ (device c).Along (GcIn c (StaleHarmless c)) ⟨dev, none⟩ es)
    (hrun : (device c).run ⟨dev, none⟩ es = .ok d) (hlpn : lpn < nsPages c) :
    d.dev.Mapped c lpn ↔ (device c).latest (pageOp c lpn) false ⟨dev, none⟩ es = true := by
  have h₀ : DevInv c (fun _ => FtlInv c) ⟨dev, none⟩ := devInv_init (initial_inv c) hinit
  have hG := collectable_along hsel
  have hreg := Machine.run_latest (f := fun d => d.dev.isMapped c lpn) (w := pageOp c lpn)
    (fun d e d' hd hG hs => ⟨((ftlInv_rules c _).step hd hG).of_ok hs, mapped_step hd hG hlpn hs⟩) h₀ hG hrun
  change d.dev.isMapped c lpn = true ↔ _
  rw [hreg, initial_isMapped hinit]

theorem mapped_iff_written_trimRun : ∃ dev d,
    convInitNamespace greedyCfg (fun _ _ => .null) (fun _ => 0) = .ok dev ∧
      (device greedyCfg).run ⟨dev, none⟩ trimRun = .ok d ∧
      (d.dev.Mapped greedyCfg 0 ↔
        (device greedyCfg).latest (pageOp greedyCfg 0) false ⟨dev, none⟩ trimRun = true) := by
  obtain ⟨dev, d, hinit, hrun⟩ := trimRun_ok
  exact ⟨dev, d, hinit, hrun, mapped_iff_written hinit (.inl rfl) hrun (by decide)⟩

end WaitGc

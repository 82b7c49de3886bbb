/-
  WAITGC verification — the log of an FTL in a run.

  `Recorded`: an FTL counted the records it printed, and each was observed for the
  sampling horizon at least.  Only the sampling prints, so everything else keeps
  it.
-/
import WaitGc.Proof.Device
import WaitGc.Proof.GcFrame
import WaitGc.Proof.System

namespace WaitGc

open Outcome Function

variable {c : Cfg} {s s' : ConvFtl} {d : Device} {es : List Event} {part : ℕ}

/-- What the log of an FTL holds. -/
structure Recorded (c : Cfg) (s : ConvFtl) : Prop where
  count : s.stats.isoSamplesCompleted = s.isoLog.length
  horizon : ∀ r ∈ s.isoLog, c.build.isoSampleHorizonNs ≤ r.horizonNs

theorem Recorded.congr (h : Recorded c s) (hlog : s'.isoLog = s.isoLog)
    (hcount : s'.stats.isoSamplesCompleted = s.stats.isoSamplesCompleted) : Recorded c s' :=
  ⟨by rw [hcount, hlog, h.count], by rw [hlog]; exact h.horizon⟩

/-! ## Sampling -/

theorem Recorded.sampleLine (h : Recorded c s) (i : ℕ) : Recorded c (isotonicSampleLine c s i) := by
  unfold isotonicSampleLine
  dsimp only
  generalize (if (s.lm.lines i).isoSampleStartNs < s.curNsecs then
    s.curNsecs - (s.lm.lines i).isoSampleStartNs else 0) = elapsed
  generalize (if (s.lm.lines i).isoSampleIpc ≤ (s.lm.lines i).ipc then
    (s.lm.lines i).ipc - (s.lm.lines i).isoSampleIpc else 0) = futureInvalid
  split_ifs with hactive hlt
  · exact h
  · -- the record is printed and counted
    refine ⟨?_, fun r hr => ?_⟩
    · simp [h.count]
    · rcases List.mem_append.1 hr with hr | hr
      · exact h.horizon r hr
      · rw [List.mem_singleton.1 hr]
        exact Nat.le_of_not_lt hlt
  · exact h.congr rfl rfl

theorem Recorded.sampleCandidates (h : Recorded c s) : Yields (Recorded c) (isotonicSampleCandidates c s) := by
  unfold isotonicSampleCandidates
  split_ifs
  swap
  · exact h
  refine sat_foldlM (fun _ => Recorded c) _ ?_ h
  intro pre k post s₁ _ h
  refine (derefLine_yields (c := c) _).bind ?_
  rintro (_ | a) -
  · exact h
  · exact h.sampleLine a

theorem Recorded.censor (h : Recorded c s) (i : ℕ) : Recorded c (isotonicCensorSelected c s i) := by
  unfold isotonicCensorSelected
  dsimp only
  split_ifs
  · exact h.congr rfl rfl
  · exact h

/-! ## Selecting and collecting -/

theorem withPq_any (lm : LineMgmt) (r : Option (Pqueue × (ℕ → Line))) :
    Yields (fun _ => True) (lm.withPq r) := withPq_yields fun _ _ _ => trivial

theorem Recorded.selectGreedy (h : Recorded c s) (force : Bool) :
    Yields (fun r => Recorded c r.2) (selectVictimGreedy c s force) := by
  unfold selectVictimGreedy
  refine (derefLine_yields _).bind ?_
  rintro (_ | v) -
  · exact h
  dsimp only
  split_ifs
  · exact h
  refine h.sampleCandidates.bind fun s₁ h₁ => ?_
  refine (withPq_any _ _).bind fun lm _ => ?_
  exact h₁.congr rfl rfl

theorem scan_count (s : ConvFtl) (st : GcStats) :
    Yields (fun r => r.2.isoSamplesCompleted = st.isoSamplesCompleted)
      ((scanSlots s.lm.victimLinePq).foldlM (scanCandidate c s) (none, st)) := by
  refine sat_foldlM (fun _ (r : Option Candidate × GcStats) =>
    r.2.isoSamplesCompleted = st.isoSamplesCompleted) _ ?_ rfl
  rintro pre i post ⟨best, st'⟩ _ h
  unfold scanCandidate
  refine (derefLine_yields _).bind ?_
  rintro (_ | a) -
  · exact h
  · cases best with
    | none => exact h
    | some best => exact h

theorem Recorded.selectCostBenefit (h : Recorded c s) (force : Bool) :
    Yields (fun r => Recorded c r.2) (selectVictimCostBenefit c s force) := by
  unfold selectVictimCostBenefit
  split_ifs
  · exact h
  refine (derefLine_yields _).bind ?_
  rintro (_ | greedy) -
  · exact h
  dsimp only
  split_ifs
  · exact h
  refine h.sampleCandidates.bind fun s₁ h₁ => ?_
  refine (scan_count _ _).bind ?_
  rintro ⟨_ | best, st⟩ hst
  · exact h₁.congr rfl hst
  · refine (withPq_any _ _).bind fun lm _ => ?_
    exact h₁.congr rfl hst

theorem Recorded.select (h : Recorded c s) (force : Bool) :
    Yields (fun r => Recorded c r.2) (selectVictimLine c s force) := by
  unfold selectVictimLine
  cases c.build.policy with
  | greedy => exact h.selectGreedy force
  | ageCb profile => exact h.selectCostBenefit force
  | isotonic table => exact h.selectCostBenefit force

theorem Recorded.moved (h : Recorded c s) (hm : GcMoved s s') : Recorded c s' := by
  refine h.congr ?_ ?_
  · rw [hm.frame]
  · rw [hm.frame]

theorem Recorded.collect (h : Recorded c s) (t : Timing) (force : Bool) (v : ℕ) :
    Yields (fun r => Recorded c r.1) (collectLine c s t force v) := by
  unfold collectLine
  have h₁ := h.censor v
  generalize isotonicCensorSelected c s v = s₁ at h₁
  dsimp only
  refine (gcLoops_yields _ t _).bind ?_
  rintro ⟨s₂, t₂⟩ ⟨hm, -⟩
  have hcounted : Recorded c { s₁ with
      stats := s₁.stats.countGc force (s₁.lm.lines v).vpc
      wfc := { s₁.wfc with creditsToRefill := u32 (s₁.lm.lines v).ipc } } := h₁.congr rfl rfl
  exact (hcounted.moved hm).congr rfl rfl

theorem Recorded.doGc (h : Recorded c s) (t : Timing) (force : Bool) :
    Yields (fun r => Recorded c r.2.1) (doGc c s t force) := by
  refine (doGc_result s t force).mono (fun _ h => h) ?_
  rintro r (_ | ⟨hsel, hcol⟩)
  · exact h
  · exact (((h.select force).of_ok hsel).collect t force _).of_ok hcol

/-! ## Runs -/

theorem recorded_rules : FtlRules c (fun _ => True) (fun _ => True) fun _ => Recorded c where
  write s lpn nsecs h _ := by
    refine (convWriteFtl_yields s lpn nsecs).mono (fun _ h => h) ?_
    rintro ⟨p, s'⟩ hw
    change HostMoved c nsecs s p s' at hw
    obtain ⟨w, hcons⟩ : ∃ w, consumeWriteCredit s' = { s' with wfc := w } := ⟨_, rfl⟩
    dsimp only
    rw [hcons]
    have hlog : s'.isoLog = s.isoLog := by rw [hw.frame]
    have hcount : s'.stats.isoSamplesCompleted = s.stats.isoSamplesCompleted := by
      rw [hw.frame]
      rfl
    exact h.congr hlog hcount
  discard s lpn now h _ := by
    refine (discardFtl_yields s lpn now).mono (fun _ h => h) ?_
    rintro s' (rfl | ⟨-, hframe⟩)
    · exact h
    · exact h.congr (by rw [hframe]) (by rw [hframe])
  refill s t h _ := by
    rw [checkAndRefill_eq]
    split_ifs
    · refine (h.doGc t true).map_ok fun r hr => ?_
      exact hr.congr rfl rfl
    · exact h.congr rfl rfl
    · exact h

/-- **The log in every run.** -/
theorem recorded_run {junk : ℕ → ℕ → Slot} {clock : ℕ → ℕ} {dev : Dev}
    (hinit : convInitNamespace c junk clock = .ok dev) (hrun : (device c).run ⟨dev, none⟩ es = .ok d)
    (hpart : part < c.nrParts) : Recorded c (d.dev.ftls part) := by
  have hdev : DevInv c (fun _ => Recorded c) ⟨dev, none⟩ := by
    refine devInv_init (fun part junk => ?_) hinit
    refine (convInitFtl_yields c part junk).mono (fun _ h => h) ?_
    rintro s ⟨rfl, -⟩
    exact ⟨rfl, fun _ h => (nomatch h)⟩
  refine ((recorded_rules.run hdev ?_).of_ok hrun).ftl part hpart
  exact (Machine.along_true _ _).mono fun _ _ _ _ _ => trivial

end WaitGc

/-
  WAITGC verification — the counters of the candidates of victim selections.

  A selection adds the field `size` of the victim queue to
  `gc_candidates_available_sum`.  The queue counts its slot `0` in that field, which
  `pqueue_size` takes off again; so each selection adds one line that is not there, and the
  counter is right in the runs without a selection only (`candidates_counted_iff`).
-/
import WaitGc.Proof.Devices
import WaitGc.Proof.Moves
import WaitGc.Proof.System

namespace WaitGc

open Outcome Pqueue

variable {c : Cfg} {s s' : ConvFtl} {d d' : Device} {e : Event} {es : List Event} {part : ℕ}

/-! ## Selections -/

/-- The selection of a victim on the FTL `part` in the step succeeds. -/
def selects (c : Cfg) (part : ℕ) (d : Device) (e : Event) : Bool :=
  gcCall c d e == some part &&
    match selectVictimLine c (d.dev.ftls part) true with
    | .ok (some _, _) => true
    | _ => false

/-- What `f` counts at a selection that succeeds. -/
def atSelection (c : Cfg) (part : ℕ) (f : ConvFtl → ℕ) (d : Device) (e : Event) : ℕ :=
  if selects c part d e then f (d.dev.ftls part) else 0

/-- The queue of an FTL counts its slot `0`. -/
def SizePos (_ : Bool) (s : ConvFtl) : Prop := 1 ≤ s.lm.victimLinePq.size

/-- `do_gc`, as the counters of candidates see it. -/
theorem doGc_candidates (s : ConvFtl) (t : Timing) :
    Yields (fun r => (SizePos true s → SizePos false r.2.1) ∧
      (SizePos true s → (r.1 = true ↔ s.lm.victimLinePq.pqueuePeek ≠ .null)) ∧
      r.2.1.stats.gcCandidatesAvailableSum =
        s.stats.gcCandidatesAvailableSum + (if r.1 then s.lm.victimLinePq.size else 0) ∧
      r.2.1.stats.gcCandidateEvalCount =
        s.stats.gcCandidateEvalCount + (if r.1 then c.build.evaluated s.lm.victimLinePq else 0) ∧
      r.1 = match selectVictimLine c s true with
        | .ok (some _, _) => true
        | _ => false) (doGc c s t true) := by
  refine (doGc_result s t true).mono (fun _ h => h) ?_
  rintro r (hidle | ⟨hsel, hcol⟩)
  · obtain ⟨-, hnull⟩ := (selectVictimLine_yields s true).of_ok hidle
    refine ⟨id, fun hpos => ?_, rfl, rfl, by rw [hidle]⟩
    rcases hnull rfl with h0 | hnull
    · unfold SizePos at hpos
      omega
    · exact iff_of_false Bool.false_ne_true fun h => h hnull
  · obtain ⟨⟨a, hpeek⟩, hs⟩ := (selectVictimLine_yields s true).of_ok hsel
    have hc := (collectLine_yields _ t true _).of_ok hcol
    have hne := size_ne_of_peek hpeek
    have hsize := hs.size
    have hgrow := hc.size
    refine ⟨fun hpos => ?_, fun _ => iff_of_true rfl (by rw [hpeek]; exact Slot.noConfusion), ?_, ?_,
      by rw [hsel]⟩
    · unfold SizePos at hpos ⊢
      dsimp only at hgrow ⊢
      omega
    · exact hc.available.trans hs.available
    · exact hc.evals.trans hs.evals

/-! ## Runs -/

theorem sizePos_rules : FtlRules c (fun _ => True) (fun _ => True) SizePos where
  write s lpn nsecs h _ := by
    refine (convWriteFtl_yields s lpn nsecs).mono (fun _ h => h) ?_
    rintro ⟨p, s'⟩ hw
    obtain ⟨w, hcons⟩ : ∃ w, consumeWriteCredit s' = { s' with wfc := w } := ⟨_, rfl⟩
    dsimp only
    rw [hcons]
    exact h.trans hw.touched.size
  discard s lpn now h _ := by
    refine (discardFtl_yields s lpn now).mono (fun _ h => h) ?_
    rintro s' (rfl | ⟨ht, -⟩)
    · exact h
    · exact h.trans ht.size
  refill s t h _ := by
    rw [checkAndRefill_eq]
    split_ifs
    · have hgc := doGc_candidates (c := c) s t
      cases hr : doGc c s t true with
      | error e => trivial
      | ok r =>
        rw [hr] at hgc
        exact hgc.1 h
    · exact h
    · exact h

/-- What a step adds to the two counters. -/
theorem step_candidates (h : (device c).step d e = .ok d') :
    (d'.dev.ftls part).stats.gcCandidatesAvailableSum = (d.dev.ftls part).stats.gcCandidatesAvailableSum +
        atSelection c part (·.lm.victimLinePq.size) d e ∧
      (d'.dev.ftls part).stats.gcCandidateEvalCount = (d.dev.ftls part).stats.gcCandidateEvalCount +
        atSelection c part (fun s => c.build.evaluated s.lm.victimLinePq) d e := by
  unfold atSelection selects
  by_cases hgc : gcCall c d e = some part
  · obtain ⟨r, hr, hs⟩ := step_gcCall hgc h
    obtain ⟨-, -, havail, heval, hdone⟩ := (doGc_candidates _ _).of_ok hr
    rw [hs, hgc, beq_self_eq_true, Bool.true_and, ← hdone]
    exact ⟨havail, heval⟩
  · obtain ⟨host, hstats⟩ := step_noGc hgc h
    rw [hstats, beq_eq_false_iff_ne.2 hgc, Bool.false_and]
    exact ⟨rfl, rfl⟩

/-- No selection is made on the FTL `part` in the step: `do_gc` does not run, or the queue is
    empty. -/
def NoCandidate (c : Cfg) (part : ℕ) (d : Device) (e : Event) : Prop :=
  gcCall c d e = some part → (d.dev.ftls part).lm.victimLinePq.pqueuePeek = .null

instance (c : Cfg) (part : ℕ) (d : Device) (e : Event) : Decidable (NoCandidate c part d e) :=
  inferInstanceAs (Decidable (_ → _))

/-- In a step that returns, a selection fails if and only if the queue is empty. -/
theorem selects_iff (hd : DevInv c SizePos d) (hpart : part < c.nrParts) (h : ∃ d', (device c).step d e = .ok d') :
    selects c part d e = false ↔ NoCandidate c part d e := by
  obtain ⟨d', h⟩ := h
  unfold selects NoCandidate
  by_cases hgc : gcCall c d e = some part
  · obtain ⟨r, hr, -⟩ := step_gcCall hgc h
    obtain ⟨-, hiff, -, -, hdone⟩ := (doGc_candidates _ _).of_ok hr
    rw [hgc, beq_self_eq_true, Bool.true_and, ← hdone, ← Bool.not_eq_true, hiff (hd.ftl part hpart), not_not]
    exact ⟨fun h _ => h, fun h => h rfl⟩
  · rw [beq_eq_false_iff_ne.2 hgc, Bool.false_and]
    exact iff_of_true rfl fun h => absurd h hgc

/-- The counters of candidates of the FTL `part` count the members of the queue at each
    selection of the run. -/
def CandidatesCounted (c : Cfg) (d₀ : Device) (es : List Event) (d : Device) (part : ℕ) : Prop :=
  let members := (device c).total (atSelection c part fun s => s.lm.victimLinePq.pqueueSize) d₀ es
  (d.dev.ftls part).stats.gcCandidatesAvailableSum = members ∧
    (c.build.policy ≠ .greedy → (d.dev.ftls part).stats.gcCandidateEvalCount = members)

/-- A selection counts one line too many. -/
theorem atSelection_size (c : Cfg) (part : ℕ) : atSelection c part (·.lm.victimLinePq.size) = fun d e =>
    atSelection c part (fun s => s.lm.victimLinePq.pqueueSize) d e +
      atSelection c part (fun s => s.lm.victimLinePq.size - s.lm.victimLinePq.pqueueSize) d e := by
  funext d e
  unfold atSelection pqueueSize
  split_ifs
  · dsimp only
    omega
  · rfl

theorem sizePos_step (e : Event) (hd : DevInv c SizePos d) (h : (device c).step d e = .ok d') :
    DevInv c SizePos d' :=
  (sizePos_rules.step hd fun _ _ => trivial).of_ok h

/-- No selection succeeds in the run. -/
theorem no_selection_iff (hd : DevInv c SizePos d) (hpart : part < c.nrParts)
    (hrun : (device c).run d es = .ok d') :
    (device c).Along (fun d e => selects c part d e = false) d es ↔
      (device c).Along (NoCandidate c part) d es := by
  have hok := Machine.along_ok hrun
  constructor
  · intro h
    exact Machine.Along.imp (fun d e d' hd _ hs => sizePos_step e hd hs)
      (fun d e hd h => (selects_iff hd hpart h.2).1 h.1) hd (h.and hok)
  · intro h
    exact Machine.Along.imp (fun d e d' hd _ hs => sizePos_step e hd hs)
      (fun d e hd h => (selects_iff hd hpart h.2).2 h.1) hd (h.and hok)

/-- Then nothing is counted. -/
theorem total_of_no_selection (hrun : (device c).run d es = .ok d')
    (h : (device c).Along (fun d e => selects c part d e = false) d es) (f : ConvFtl → ℕ) :
    (device c).total (atSelection c part f) d es = 0 := by
  refine (Machine.total_eq_zero hrun).2 (h.mono fun d e hsel => ?_)
  rw [atSelection, hsel, if_neg Bool.false_ne_true]

/-- And if the line too many is never counted, none succeeds. -/
theorem no_selection_of_total (hd : DevInv c SizePos d) (hpart : part < c.nrParts)
    (hrun : (device c).run d es = .ok d')
    (h : (device c).total (atSelection c part fun s =>
      s.lm.victimLinePq.size - s.lm.victimLinePq.pqueueSize) d es = 0) :
    (device c).Along (fun d e => selects c part d e = false) d es := by
  refine Machine.Along.imp (fun d e d' hd _ hs => sizePos_step e hd hs) ?_ hd
    (((Machine.total_eq_zero hrun).1 h).and (Machine.along_true d es))
  rintro d e hd ⟨hzero, -⟩
  have hpos : 1 ≤ (d.dev.ftls part).lm.victimLinePq.size := hd.ftl part hpart
  unfold atSelection pqueueSize at hzero
  by_contra hsel
  rw [if_pos (by simpa using hsel)] at hzero
  dsimp only at hzero
  omega

theorem initial_sizePos {junk : ℕ → ℕ → Slot} {clock : ℕ → ℕ} {dev : Dev}
    (hinit : convInitNamespace c junk clock = .ok dev) : DevInv c SizePos ⟨dev, none⟩ := by
  refine devInv_init (fun part junk => ?_) hinit
  refine (convInitFtl_yields c part junk).mono (fun _ h => h) ?_
  rintro s ⟨rfl, -⟩
  exact le_rfl

theorem initial_counters {junk : ℕ → ℕ → Slot} {clock : ℕ → ℕ} {dev : Dev}
    (hinit : convInitNamespace c junk clock = .ok dev) (hpart : part < c.nrParts) :
    (dev.ftls part).stats.gcCandidatesAvailableSum = 0 ∧ (dev.ftls part).stats.gcCandidateEvalCount = 0 := by
  have hdev : DevInv c (fun _ s => s.stats.gcCandidatesAvailableSum = 0 ∧ s.stats.gcCandidateEvalCount = 0)
      ⟨dev, none⟩ := by
    refine devInv_init (fun part junk => ?_) hinit
    refine (convInitFtl_yields c part junk).mono (fun _ h => h) ?_
    rintro s ⟨rfl, -⟩
    exact ⟨rfl, rfl⟩
  exact hdev.ftl part hpart

/-- What a run adds to the two counters. -/
theorem counters_of_run (part : ℕ) (hrun : (device c).run d es = .ok d') :
    (d'.dev.ftls part).stats.gcCandidatesAvailableSum = (d.dev.ftls part).stats.gcCandidatesAvailableSum +
        (device c).total (atSelection c part (·.lm.victimLinePq.size)) d es ∧
      (d'.dev.ftls part).stats.gcCandidateEvalCount = (d.dev.ftls part).stats.gcCandidateEvalCount +
        (device c).total (atSelection c part fun s => c.build.evaluated s.lm.victimLinePq) d es := by
  constructor
  · exact Machine.run_total (I := fun _ => True) (f := fun d => (d.dev.ftls part).stats.gcCandidatesAvailableSum)
      (fun d e d' _ _ hs => ⟨trivial, (step_candidates hs).1⟩) trivial (Machine.along_true d es) hrun
  · exact Machine.run_total (I := fun _ => True) (f := fun d => (d.dev.ftls part).stats.gcCandidateEvalCount)
      (fun d e d' _ _ hs => ⟨trivial, (step_candidates hs).2⟩) trivial (Machine.along_true d es) hrun

/-- **The counters of candidates count real candidates** in exactly the runs without a
    selection. -/
theorem candidates_counted_iff {junk : ℕ → ℕ → Slot} {clock : ℕ → ℕ} {dev : Dev}
    (hinit : convInitNamespace c junk clock = .ok dev) (hrun : (device c).run ⟨dev, none⟩ es = .ok d)
    (hpart : part < c.nrParts) :
    CandidatesCounted c ⟨dev, none⟩ es d part ↔ (device c).Along (NoCandidate c part) ⟨dev, none⟩ es := by
  have hd := initial_sizePos hinit
  obtain ⟨havail, heval⟩ := counters_of_run part hrun
  obtain ⟨havail₀, heval₀⟩ := initial_counters hinit hpart
  rw [havail₀, Nat.zero_add] at havail
  rw [heval₀, Nat.zero_add] at heval
  rw [atSelection_size, Machine.total_add] at havail
  rw [← no_selection_iff hd hpart hrun]
  constructor
  · rintro ⟨hcount, -⟩
    refine no_selection_of_total hd hpart hrun ?_
    omega
  · intro h
    have hzero := total_of_no_selection hrun h
    refine ⟨?_, fun _ => ?_⟩
    · rw [havail, hzero, hzero]
    · rw [heval, hzero, hzero]

/-! ## A collection -/

/-- The line of the page that is written twice is the one candidate. -/
theorem candidates_miscounted : ∃ dev d,
    convInitNamespace duoGreedyCfg (fun _ _ => .null) (fun _ => 0) = .ok dev ∧
      (device duoGreedyCfg).run ⟨dev, none⟩ rewriteRun = .ok d ∧
      ¬ CandidatesCounted duoGreedyCfg ⟨dev, none⟩ rewriteRun d 0 := by
  have hcount : (convInitNamespace duoGreedyCfg (fun _ _ => .null) (fun _ => 0) >>= fun dev =>
      ((device duoGreedyCfg).run ⟨dev, none⟩ rewriteRun).map fun d =>
        ((d.dev.ftls 0).stats.gcCandidatesAvailableSum, (device duoGreedyCfg).total
          (atSelection duoGreedyCfg 0 fun s => s.lm.victimLinePq.pqueueSize) ⟨dev, none⟩
          rewriteRun)) = .ok (2, 1) := by
    decide +kernel
  obtain ⟨dev, hinit, hcount⟩ := bind_eq_ok hcount
  obtain ⟨d, hrun, hcount⟩ := exists_ok_of_map hcount
  refine ⟨dev, d, hinit, hrun, fun hcounted => ?_⟩
  obtain ⟨havail, hmembers⟩ := Prod.mk.inj hcount
  have heq := hcounted.1
  rw [havail, hmembers] at heq
  exact absurd heq (by decide)

/-- A page fills its line: `do_gc` is called and finds no candidate. -/
theorem candidates_counted_fullLine : ∃ dev d,
    convInitNamespace singleCfg (fun _ _ => .null) (fun _ => 0) = .ok dev ∧
      (device singleCfg).run ⟨dev, none⟩ onePageRun = .ok d ∧
      ¬ (device singleCfg).Along (fun d e => gcCall singleCfg d e = none) ⟨dev, none⟩ onePageRun ∧
      CandidatesCounted singleCfg ⟨dev, none⟩ onePageRun d 0 := by
  have hcond : (convInitNamespace singleCfg (fun _ _ => .null) (fun _ => 0) >>= fun dev =>
      ((device singleCfg).run ⟨dev, none⟩ onePageRun).map fun _ =>
        (decide ((device singleCfg).Along (fun d e => gcCall singleCfg d e = none) ⟨dev, none⟩ onePageRun),
          decide ((device singleCfg).Along (NoCandidate singleCfg 0) ⟨dev, none⟩ onePageRun))) =
        .ok (false, true) := by
    decide +kernel
  obtain ⟨dev, hinit, hcond⟩ := bind_eq_ok hcond
  obtain ⟨d, hrun, hcond⟩ := exists_ok_of_map hcond
  obtain ⟨hcall, hno⟩ := Prod.mk.inj hcond
  exact ⟨dev, d, hinit, hrun, of_decide_eq_false hcall,
    (candidates_counted_iff hinit hrun (by decide)).2 (of_decide_eq_true hno)⟩

end WaitGc

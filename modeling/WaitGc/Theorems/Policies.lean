/-
  WAITGC verification — the cost-benefit and the isotonic build over whole runs.

  The selections of these builds read one slot of the queue array too many.
  What is known of the greedy build holds of them as well, in every run whose
  collections find that slot harmless (`StaleHarmless`): `policies_sound`.
  The mapping tables, the lines, the counters and the credits are sound,
  the next collection is invisible to the host, and no assertion fails but the
  one on the size of a transfer.
-/
import WaitGc.Theorems.Collection
import WaitGc.Theorems.CostBenefitVictim
import WaitGc.Theorems.Counters
import WaitGc.Theorems.Mapping
import WaitGc.Theorems.WriteCredits

namespace WaitGc

open Outcome

variable {c : Cfg} {s : ConvFtl} {d : Device} {es : List Event}

/-- An FTL whose lines, tables and counters agree, whatever selects the victims. -/
structure FtlSound (c : Cfg) (s : ConvFtl) : Prop where
  mapping : MappingSound c s
  lines : LinesSound c s
  counters : CountersExact c s
  -- a forced collection fails only without a free line, and the host does not see it
  collection : StaleHarmless c s → ∀ t, Sat (fun e => e = .noFreeLine)
    (fun r => r.1 = true → ∃ v, v ∈ garbage c s ∧ CollectedLine c s v r.2.1) (doGc c s t true)

theorem FtlInv.sound (hpol : c.build.policy ≠ .greedy) (h : FtlInv c s) : FtlSound c s := by
  have hcounters := h.countersExact
  obtain ⟨⟨pl, hok⟩, -⟩ := h
  refine ⟨hok.mappingSound, hok.linesSound, hcounters, fun hstale t => ?_⟩
  refine (doGc_done hok (collectable_of_harmless hpol hstale pl hok) t).mono ?_ ?_
  · rintro e (he | ⟨he, -⟩)
    · exact he.elim
    · exact he
  · rintro ⟨done, s', t'⟩ ⟨pl', hdone⟩ hdone'
    cases hdone with
    | idle => cases hdone'
    | @collected v _ _ _ _ hT hE =>
      refine ⟨v, ?_, hE.collectedLine hok hT.lt⟩
      rw [hok.garbage_eq]
      exact ⟨hT.lt, hT.place⟩

/-- The faults of a run that never dereferences a stray pointer. -/
def RunFault (e : Fault) : Prop := e = .noFreeLine ∨ e = .assert .bufferSize

/-- **Every run whose collections find the slot after the queue harmless is sound**, under the
    cost-benefit and the isotonic policy: in the state it reaches every FTL is sound and has its
    credits, and a run that fails has no free line left, or was given a transfer that is larger
    than the write buffer. -/
theorem policies_sound (hpol : c.build.policy ≠ .greedy) (hP : c.sp.pgsPerLine < 2 ^ 32)
    {junk : ℕ → ℕ → Slot} {clock : ℕ → ℕ} {dev : Dev} (hinit : convInitNamespace c junk clock = .ok dev)
    (hsel : (device c).Along (GcIn c (StaleHarmless c)) ⟨dev, none⟩ es) :
    Sat RunFault (fun d => ∀ part < c.nrParts, FtlSound c (d.dev.ftls part) ∧
      CreditInv c (d.refilling c part) (d.dev.ftls part)) ((device c).run ⟨dev, none⟩ es) := by
  have h₀ : DevInv c (CreditInv c) ⟨dev, none⟩ := devInv_init (initial_credits hP) hinit
  have hG : (device c).Along (GcIn c (Collectable c fun _ => False)) ⟨dev, none⟩ es :=
    hsel.mono fun d e h part hpart => collectable_of_harmless hpol (h part hpart)
  refine ((creditInv_rules hP).run h₀ hG).mono ?_ ?_
  · rintro e ((he | he) | he)
    · exact he.elim
    · exact .inl he
    · exact .inr he
  · intro d hd part hpart
    have hcredit := hd.ftl part hpart
    exact ⟨hcredit.inv.sound hpol, hcredit⟩

/-- `NULL` in all slots: a page is written twice, and its line is collected. -/
theorem policies_sound_rewriteRun : ∃ dev d,
    convInitNamespace duoCostBenefitCfg (fun _ _ => .null) (fun _ => 0) = .ok dev ∧
      (device duoCostBenefitCfg).run ⟨dev, none⟩ rewriteRun = .ok d ∧
      (d.dev.ftls 0).stats.gcCnt = 1 ∧ FtlSound duoCostBenefitCfg (d.dev.ftls 0) := by
  have hcond : (convInitNamespace duoCostBenefitCfg (fun _ _ => .null) (fun _ => 0) >>= fun dev =>
      ((device duoCostBenefitCfg).run ⟨dev, none⟩ rewriteRun).map fun d =>
        (decide ((device duoCostBenefitCfg).Along (GcIn duoCostBenefitCfg (StaleHarmless duoCostBenefitCfg))
          ⟨dev, none⟩ rewriteRun), (d.dev.ftls 0).stats.gcCnt)) = .ok (true, 1) := by
    decide +kernel
  obtain ⟨dev, hinit, hcond⟩ := bind_eq_ok hcond
  obtain ⟨d, hrun, hcond⟩ := exists_ok_of_map hcond
  obtain ⟨hstale, hcnt⟩ := Prod.mk.inj hcond
  have hpol : GcPolicy.ageCb .flat ≠ .greedy := by simp
  have hsound := policies_sound hpol (by decide) hinit (of_decide_eq_true hstale)
  exact ⟨dev, d, hinit, hrun, hcnt, ((hsound.of_ok hrun) 0 Nat.one_pos).1⟩

end WaitGc

/-
  WAITGC verification — operations on one die do not overlap in time.

  `dies_never_overlap`: in every run of NAND commands and PCIe transfers each
  command waits for its die and keeps it busy until it is over, so that the
  phases of the commands on one die follow one another.
-/
import WaitGc.Proof.Nand
import WaitGc.Zns.Device

namespace WaitGc

open Outcome Function

variable {sp : SsdParams} {clock : ℕ → ℕ}

/-! ## Runs -/

/-- A call of `ssd_advance_nand` of one instance, or of `ssd_advance_pcie`. -/
inductive NandEvent where
  | nand (part : ℕ) (ncmd : NandCmd)
  | pcie (requestTime length : ℕ)

/-- The phase of a command on its die. -/
structure Phase where
  die : ℕ × ℕ × ℕ
  start : ℕ
  stop : ℕ

/-- The clocks, and the phases that were, the last one first. -/
structure NandRun where
  timing : Timing
  phases : List Phase

/-- The phase of a command. -/
def nandPhase (sp : SsdParams) (part : ℕ) (t : Timing) (ncmd : NandCmd) : Phase where
  die := (part, ncmd.ppa.ch.toNat, ncmd.ppa.lun.toNat)
  start := nandStime part t ncmd
  stop := nandStime part t ncmd + ncmd.latency sp

/-- The machine; it cannot fail. -/
def nandMachine (sp : SsdParams) : Machine NandRun NandEvent Fault where
  step r
    | .nand part ncmd =>
      .ok ⟨(ssdAdvanceNand sp part r.timing ncmd).2, nandPhase sp part r.timing ncmd :: r.phases⟩
    | .pcie requestTime length => .ok ⟨(ssdAdvancePcie r.timing requestTime length).2, r.phases⟩

/-- The address is mapped, a read transfers something, and no time overflows. -/
def NandEvent.Proper (sp : SsdParams) (t : Timing) : NandEvent → Prop
  | .nand part ncmd => ncmd.ppa.ppa ≠ UNMAPPED_PPA ∧ (ncmd.cmd = .read → ncmd.xferSize ≠ 0) ∧
    NandFits sp part t ncmd
  | .pcie _ _ => True

/-- What a command does to the dies. -/
def NandEvent.Law (sp : SsdParams) (t : Timing) : NandEvent → Prop
  | .nand part ncmd => NandLaw sp part t ncmd (ssdAdvanceNand sp part t ncmd)
  | .pcie _ _ => True

/-- When a die is available. -/
def Timing.dieAvail (t : Timing) (die : ℕ × ℕ × ℕ) : ℕ := (t.ssd die.1).nextLunAvailTime die.2

/-- The phases of each die follow one another, and the die is busy until the last one is
    over. -/
structure NandRun.Ordered (r : NandRun) : Prop where
  credits : r.timing.NoCommandCredits
  pairwise : r.phases.Pairwise fun p q => p.die = q.die → q.stop ≤ p.start
  busy : ∀ p ∈ r.phases, p.stop ≤ r.timing.dieAvail p.die

theorem NandLaw.dieAvail_mono {part : ℕ} {t : Timing} {ncmd : NandCmd} {r : ℕ × Timing}
    (h : NandLaw sp part t ncmd r) (die : ℕ × ℕ × ℕ) : t.dieAvail die ≤ r.2.dieAvail die := by
  by_cases hdie : die = (part, ncmd.ppa.ch.toNat, ncmd.ppa.lun.toNat)
  · rw [hdie]
    exact h.mono
  · exact (h.others die.1 die.2 hdie).ge

/-- **One event** keeps the order of the phases. -/
theorem NandRun.Ordered.step {r r' : NandRun} {e : NandEvent} (h : r.Ordered) (hproper : e.Proper sp r.timing)
    (hstep : (nandMachine sp).step r e = .ok r') : r'.Ordered ∧ e.Law sp r.timing := by
  cases e with
  | nand part ncmd =>
    obtain ⟨hmapped, hread, hfits⟩ := hproper
    have hlaw := ssdAdvanceNand_law h.credits hmapped hread hfits
    cases hstep
    refine ⟨⟨ssdAdvanceNand_credits h.credits, ?_, ?_⟩, hlaw⟩
    · refine List.pairwise_cons.2 ⟨fun q hq hdie => ?_, h.pairwise⟩
      have hbusy := h.busy q hq
      rw [← hdie] at hbusy
      exact hbusy.trans ((le_max_left _ _).trans hlaw.starts)
    · intro p hp
      rcases List.mem_cons.1 hp with rfl | hp
      · exact hlaw.busy
      · exact (h.busy p hp).trans (hlaw.dieAvail_mono p.die)
  | pcie requestTime length =>
    have hsame := ssdAdvancePcie_sameDies r.timing requestTime length
    cases hstep
    refine ⟨⟨hsame.credits h.credits, h.pairwise, fun _ hp => ?_⟩, trivial⟩
    exact (h.busy _ hp).trans (congrFun (hsame.avail _) _).ge

/-- The clocks after `ssd_init`. -/
def nandRunInit (sp : SsdParams) (clock : ℕ → ℕ) : NandRun := ⟨.init sp clock, []⟩

theorem nandRunInit_ordered (sp : SsdParams) (clock : ℕ → ℕ) : (nandRunInit sp clock).Ordered :=
  ⟨Timing.noCommandCredits_init sp clock, .nil, fun _ hp => nomatch hp⟩

/-- **Operations on one die never overlap.** -/
theorem dies_never_overlap {es : List NandEvent} {r : NandRun}
    (hproper : (nandMachine sp).Along (fun r e => e.Proper sp r.timing) (nandRunInit sp clock) es)
    (hrun : (nandMachine sp).run (nandRunInit sp clock) es = .ok r) :
    (nandMachine sp).Along (fun r e => e.Law sp r.timing) (nandRunInit sp clock) es ∧
      r.phases.Pairwise fun p q => p.die = q.die → q.stop ≤ p.start := by
  have hinit := nandRunInit_ordered sp clock
  constructor
  · refine hproper.imp (I := NandRun.Ordered) ?_ ?_ hinit
    · exact fun r e r' h hproper hstep => (h.step hproper hstep).1
    · intro r e h hproper
      cases e with
      | nand part ncmd => exact (h.step hproper rfl).2
      | pcie requestTime length => trivial
  · refine NandRun.Ordered.pairwise ((Machine.run_sat (E := fun _ => True) ?_ hinit hproper).of_ok hrun)
    intro r e h hproper
    cases e with
    | nand part ncmd => exact (h.step hproper rfl).1
    | pcie requestTime length => exact (h.step hproper rfl).1

instance XferFits.decidable (sp : SsdParams) (part ch : ℕ) (dma : Bool) :
    ∀ (fuel remaining chnl : ℕ) (t : Timing), Decidable (XferFits sp part ch dma fuel remaining chnl t)
  | 0, _, _, _ => .isTrue trivial
  | fuel + 1, remaining, _, _ =>
    haveI := XferFits.decidable sp part ch dma fuel
    inferInstanceAs (Decidable (remaining ≠ 0 → _ ∧ (dma = true → _) ∧ XferFits _ _ _ _ _ _ _ _))

instance (sp : SsdParams) (part : ℕ) (t : Timing) : ∀ ncmd : NandCmd, Decidable (NandFits sp part t ncmd)
  | ⟨.read, _, _, _, _⟩ => inferInstanceAs (Decidable (_ < _ ∧ XferFits _ _ _ _ _ _ _ _))
  | ⟨.write, _, _, _, _⟩ => inferInstanceAs (Decidable (_ < _ ∧ _ < _))
  | ⟨.erase, _, _, _, _⟩ => inferInstanceAs (Decidable (_ < _ ∧ True))
  | ⟨.nop, _, _, _, _⟩ => inferInstanceAs (Decidable (_ < _ ∧ True))

instance (sp : SsdParams) (t : Timing) : ∀ e : NandEvent, Decidable (e.Proper sp t)
  | .nand _ _ => inferInstanceAs (Decidable (_ ≠ _ ∧ (_ → _ ≠ _) ∧ NandFits _ _ _ _))
  | .pcie _ _ => .isTrue trivial

/-- A page of the first die is written and read, and the die is erased. -/
def writeReadErase : List NandEvent :=
  let ppa : Ppa := .store 0 0 0 0 0
  [.nand 0 ⟨.write, 4096, 1000, false, ppa⟩, .nand 0 ⟨.read, 4096, 1000, true, ppa⟩,
    .nand 0 ⟨.erase, 0, 0, false, ppa⟩]

theorem dies_never_overlap_writeReadErase :
    ∃ r, (nandMachine zn540Params).run (nandRunInit zn540Params fun _ => 0) writeReadErase = .ok r ∧
      r.phases.map (fun p => (p.start, p.stop)) = [(629344, 629344), (570672, 620672), (9672, 570672)] ∧
      (nandMachine zn540Params).Along (fun r e => e.Law zn540Params r.timing)
        (nandRunInit zn540Params fun _ => 0) writeReadErase ∧
      r.phases.Pairwise fun p q => p.die = q.die → q.stop ≤ p.start := by
  have hmap : ((nandMachine zn540Params).run (nandRunInit zn540Params fun _ => 0) writeReadErase).map
      (fun r => r.phases.map fun p => (p.start, p.stop)) =
        .ok [(629344, 629344), (570672, 620672), (9672, 570672)] := by decide +kernel
  obtain ⟨r, hrun, hphases⟩ := exists_ok_of_map hmap
  exact ⟨r, hrun, hphases, dies_never_overlap (by decide +kernel) hrun⟩

end WaitGc

/-
  WAITGC verification — what one step of the device does to one FTL.

  `PartMove`: an FTL stays, loses some pages to a deallocate, takes a host page, or has
  its credits checked (`step_partMove`).  A quantity of one FTL is followed through a run
  by what it does at these moves.
-/
import WaitGc.Proof.Device
import WaitGc.Proof.GcFrame

namespace WaitGc

open Outcome Function

variable {c : Cfg} {d d' : Device} {e : Event} {part : ℕ}

/-- The moves of the FTL `part` in a step from `d`. -/
inductive PartMove (c : Cfg) (d : Device) (part : ℕ) : Event → ConvFtl → Prop where
  | stays {e : Event} : PartMove c d part e (d.dev.ftls part)
  | discards {req : NvmevRequest} {s' : ConvFtl} (hwfc : s'.wfc = (d.dev.ftls part).wfc)
      (hstats : s'.stats = (d.dev.ftls part).stats) (hwp : s'.wp = (d.dev.ftls part).wp) :
      PartMove c d part (.dispatch req) s'
  | writes {job : WriteJob} {p : Ppa} {s' : ConvFtl} (hjob : d.job = some job) (hr : job.refill = false)
      (hl : job.lpn ≤ job.endLpn) (hpart : job.lpn % c.nrParts = part)
      (h : convWriteFtl c (d.dev.ftls part) (job.lpn / c.nrParts) job.nsecsLatest = .ok (p, s')) :
      PartMove c d part .resume (consumeWriteCredit s')
  | checks {job : WriteJob} {t : Timing} {s' : ConvFtl} (hjob : d.job = some job) (hr : job.refill = true)
      (hpart : job.lpn % c.nrParts = part)
      (h : checkAndRefillWriteCredit c (d.dev.ftls part) d.dev.timing = .ok (s', t)) :
      PartMove c d part .resume s'

/-- Two states of an FTL with the same credits, statistics and write pointer. -/
structure SameHost (s s' : ConvFtl) : Prop where
  wfc : s'.wfc = s.wfc
  stats : s'.stats = s.stats
  wp : s'.wp = s.wp

theorem convDiscard_frame (d : Dev) (dsm : DsmCommand) (n part : ℕ) :
    Yields (fun r => SameHost (d.ftls part) (r.2.ftls part)) (convDiscard c d dsm n) := by
  have hrefl : SameHost (d.ftls part) (d.ftls part) := ⟨rfl, rfl, rfl⟩
  unfold convDiscard
  split_ifs
  · exact hrefl
  dsimp only
  cases dsm.dsmRanges with
  | none => exact hrefl
  | some ranges =>
    refine Sat.bind (sat_foldlM (fun _ (d' : Dev) => SameHost (d.ftls part) (d'.ftls part)) _ ?_ hrefl)
      fun d' h => h
    intro pre lpn post d₁ _ h
    refine (discardFtl_yields _ _ n).bind ?_
    intro s' hs'
    change SameHost (d.ftls part) ((d₁.setFtl _ s').ftls part)
    rw [setFtl_ftls]
    by_cases hi : part = lpn % c.nrParts
    · rw [if_pos hi]
      rw [hi] at h ⊢
      rcases hs' with rfl | ⟨-, hs'⟩
      · exact h
      · rw [hs']
        exact ⟨h.wfc, h.stats, h.wp⟩
    · rw [if_neg hi]
      exact h

/-- **One step of the device**, seen from one FTL. -/
theorem step_partMove (h : (device c).step d e = .ok d') : PartMove c d part e (d'.dev.ftls part) := by
  have hsame (he : d'.dev.ftls part = d.dev.ftls part) : PartMove c d part e (d'.dev.ftls part) := by
    rw [he]
    exact .stays
  cases e with
  | dispatch req =>
    change dispatch c d req = .ok d' at h
    unfold dispatch at h
    cases hjob : d.job with
    | some job =>
      rw [hjob] at h
      cases h
      exact .stays
    | none =>
      rw [hjob] at h
      dsimp only at h
      cases hcmd : req.cmd with
      | write rw =>
        rw [hcmd] at h
        obtain ⟨r, hr, rfl⟩ := exists_ok_of_map h
        exact hsame (congrFun ((convWriteStart_yields _ _ _).of_ok hr).1 part)
      | read rw =>
        rw [hcmd] at h
        cases h
        exact hsame (congrFun (convRead_ftls _ _ _) part)
      | flush =>
        rw [hcmd] at h
        cases h
        exact .stays
      | dsm dsm =>
        rw [hcmd] at h
        obtain ⟨r, hr, rfl⟩ := exists_ok_of_map h
        obtain ⟨hwfc, hstats, hwp⟩ := (convDiscard_frame _ _ _ part).of_ok hr
        exact .discards hwfc hstats hwp
      | other opcode =>
        rw [hcmd] at h
        cases h
        exact .stays
  | resume =>
    change resume c d = .ok d' at h
    unfold resume at h
    cases hjob : d.job with
    | none =>
      rw [hjob] at h
      cases h
      exact .stays
    | some job =>
      rw [hjob] at h
      dsimp only at h
      by_cases hr : job.refill = true
      · rw [if_pos hr] at h
        obtain ⟨r, hres, rfl⟩ := exists_ok_of_map h
        obtain ⟨⟨s', t⟩, hs', hres⟩ := bind_eq_ok hres
        cases hres
        change PartMove c d part .resume ((d.dev.setFtl _ s').ftls part)
        rw [setFtl_ftls]
        by_cases hi : part = job.lpn % c.nrParts
        · subst hi
          rw [if_pos rfl]
          exact .checks hjob hr rfl hs'
        · rw [if_neg hi]
          exact .stays
      rw [if_neg hr] at h
      by_cases hl : job.lpn ≤ job.endLpn
      · rw [if_pos hl] at h
        obtain ⟨r, hres, rfl⟩ := exists_ok_of_map h
        obtain ⟨⟨p, s'⟩, hs', hres⟩ := bind_eq_ok hres
        have hftls : r.1.ftls = (d.dev.setFtl (job.lpn % c.nrParts) (consumeWriteCredit s')).ftls := by
          dsimp only at hres
          split_ifs at hres
          · cases hres
            rfl
          · cases hres
            rfl
        change PartMove c d part .resume (r.1.ftls part)
        rw [hftls, setFtl_ftls]
        by_cases hi : part = job.lpn % c.nrParts
        · subst hi
          rw [if_pos rfl]
          exact .writes hjob (by simpa using hr) hl rfl hs'
        · rw [if_neg hi]
          exact .stays
      · rw [if_neg hl] at h
        cases h
        exact .stays
  | fire i =>
    change Except.ok (fire d i) = .ok d' at h
    cases h
    refine hsame ?_
    unfold fire
    cases d.dev.pending[i]? <;> rfl

/-! ## The step that takes a command -/

/-- The command the dispatcher takes in the step, if it does. -/
def Device.taken (d : Device) : Event → Option NvmevRequest
  | .dispatch req => if d.job.isNone then some req else none
  | _ => none

theorem Device.taken_dispatch {req : NvmevRequest} (hjob : d.job = none) :
    d.taken (.dispatch req) = some req := by
  simp [Device.taken, hjob]

/-- The write is let through. -/
def RwCommand.Accepted (c : Cfg) (d : Dev) (rw : RwCommand) : Prop :=
  endLpn c.sp rw.slba rw.nrLba / c.nrParts < c.sp.ttPgs ∧ rw.bytes ≤ d.wbuf.remaining

instance (c : Cfg) (d : Dev) (rw : RwCommand) : Decidable (rw.Accepted c d) :=
  inferInstanceAs (Decidable (_ ∧ _))

/-- The job of the write. -/
def RwCommand.job (c : Cfg) (d : Dev) (rw : RwCommand) (nsecsStart : ℕ) : WriteJob :=
  let nsecsLatest := (ssdAdvanceWriteBuffer c.sp d.timing nsecsStart rw.bytes).1
  ⟨startLpn c.sp rw.slba, endLpn c.sp rw.slba rw.nrLba, nsecsLatest, nsecsLatest, rw.fua, false⟩

/-- What `conv_write` does up to its loop: nothing, or it takes the space in the write buffer. -/
inductive Started (c : Cfg) (d : Dev) (rw : RwCommand) (n : ℕ) : Option WriteJob → Dev → Prop where
  | refused (h : ¬ rw.Accepted c d) : Started c d rw n none d
  | started (h : rw.Accepted c d) {t : Timing} : Started c d rw n (some (rw.job c d n))
      { d with wbuf := { d.wbuf with remaining := d.wbuf.remaining - rw.bytes }, timing := t }

theorem convWriteStart_started (d : Dev) (rw : RwCommand) (n : ℕ) :
    Yields (fun r => Started c d rw n r.1 r.2) (convWriteStart c d rw n) := by
  have hbytes := rw.bytes_eq
  have hpos := rw.nrLba_pos
  have hle := rw.nrLba_le
  unfold convWriteStart bufferAllocate
  dsimp only
  split_ifs with hlpn hshort
  · exact .refused fun h => not_le.2 h.1 hlpn
  · simp only [bind_assoc, pure_bind]
    refine yields_require fun _ => ?_
    rw [if_pos (by rw [u32]; omega)]
    exact .refused fun h => not_le.2 hshort h.2
  · simp only [bind_assoc, pure_bind]
    refine yields_require fun _ => ?_
    rw [if_neg (by rw [u32]; omega)]
    exact .started ⟨not_le.1 hlpn, not_lt.1 hshort⟩

/-! ## The step that collects -/

theorem gcCall_eq (hgc : gcCall c d e = some part) :
    e = .resume ∧ ∃ job, d.job = some job ∧ job.refill = true ∧ job.lpn % c.nrParts = part ∧
      GcDue c (d.dev.ftls part) := by
  cases e with
  | dispatch req => exact nomatch hgc
  | fire i => exact nomatch hgc
  | resume =>
    unfold gcCall at hgc
    cases hjob : d.job with
    | none => simp [hjob] at hgc
    | some job =>
      simp only [hjob, Option.bind_eq_bind, Option.bind_some, Option.ite_none_right_eq_some,
        Option.some.injEq] at hgc
      obtain ⟨⟨hr, hdue⟩, rfl⟩ := hgc
      exact ⟨rfl, job, rfl, hr, rfl, hdue⟩

/-- **The step in which `do_gc` runs on the FTL `part`.** -/
theorem step_gcCall (hgc : gcCall c d e = some part) (h : (device c).step d e = .ok d') :
    ∃ r, doGc c (d.dev.ftls part) d.dev.timing true = .ok r ∧ d'.dev.ftls part = r.2.1.refill := by
  obtain ⟨rfl, job, hjob, hr, rfl, hdue⟩ := gcCall_eq hgc
  change resume c d = .ok d' at h
  unfold resume at h
  rw [hjob] at h
  dsimp only at h
  rw [if_pos hr] at h
  obtain ⟨r, hres, rfl⟩ := exists_ok_of_map h
  obtain ⟨⟨s', t⟩, hs', hres⟩ := bind_eq_ok hres
  cases hres
  rw [checkAndRefill_eq, if_pos hdue.1, if_pos hdue.2] at hs'
  obtain ⟨x, hx, heq⟩ := exists_ok_of_map hs'
  cases heq
  refine ⟨x, hx, ?_⟩
  change (d.dev.setFtl _ _).ftls _ = _
  rw [setFtl_ftls, if_pos rfl]

/-- A step in which `do_gc` does not run on the FTL `part` leaves its statistics of victims. -/
theorem step_noGc (hgc : gcCall c d e ≠ some part) (h : (device c).step d e = .ok d') :
    ∃ host, (d'.dev.ftls part).stats = { (d.dev.ftls part).stats with hostWritePages := host } := by
  have hmove : PartMove c d part e _ := step_partMove h
  generalize d'.dev.ftls part = s' at hmove
  cases hmove with
  | stays => exact ⟨_, rfl⟩
  | discards _ hstats => exact ⟨_, hstats⟩
  | writes hjob hr hl hpart hw =>
    have hframe := ((convWriteFtl_yields _ _ _).of_ok hw).frame
    dsimp only at hframe
    rw [hframe]
    exact ⟨_, rfl⟩
  | checks hjob hr hpart hc =>
    rw [checkAndRefill_eq] at hc
    split_ifs at hc with h0 hlow
    · refine absurd ?_ hgc
      simp [gcCall, hjob, hr, hpart, GcDue, h0, hlow]
    · cases hc
      exact ⟨_, rfl⟩
    · cases hc
      exact ⟨_, rfl⟩

end WaitGc

/-
  WAITGC verification — from one FTL to the device.

  An FTL changes in three ways: a host write, a deallocate, and the check of
  the credits with the garbage collection in it.  `FtlRules c E G I` says that
  each of them keeps the property `I` of an FTL, with faults in `E`, where `G`
  may be assumed of an FTL whenever `do_gc` is called on it.  `FtlRules.run`
  lifts the rules to every run of the device: commands, moves of the dispatcher
  inside a write and internal operations, in any order.

  `I` has a flag: it is `true` for the FTL whose credits are to be checked next.
-/
import WaitGc.Ftl.Device
import WaitGc.Proof.Frame

namespace WaitGc

open Outcome Function

variable {c : Cfg} {E : Fault → Prop} {G : ConvFtl → Prop} {I : Bool → ConvFtl → Prop}
  {d d' : Device} {e : Event} {es : List Event}

/-! ## Rules -/

/-- The three ways an FTL changes keep `I`. -/
structure FtlRules (c : Cfg) (E : Fault → Prop) (G : ConvFtl → Prop) (I : Bool → ConvFtl → Prop) :
    Prop where
  write : ∀ s lpn nsecs, I false s → lpn < c.sp.ttPgs →
    Sat E (fun r => I true (consumeWriteCredit r.2)) (convWriteFtl c s lpn nsecs)
  discard : ∀ s lpn now, I false s → lpn < c.sp.ttPgs → Sat E (I false) (discardFtl c s lpn now)
  refill : ∀ s t, I true s → (GcDue c s → G s) →
    Sat E (fun r => I false r.1) (checkAndRefillWriteCredit c s t)

/-- The FTL `part` is the one whose credits are checked next. -/
def Device.refilling (c : Cfg) (d : Device) (part : ℕ) : Bool :=
  match d.job with
  | none => false
  | some job => job.refill && (job.lpn % c.nrParts == part)

theorem refilling_some (d : Dev) (job : WriteJob) (part : ℕ) :
    Device.refilling c ⟨d, some job⟩ part = (job.refill && (job.lpn % c.nrParts == part)) := rfl

/-- Every FTL is in `I`, and a write stays inside the tables. -/
structure DevInv (c : Cfg) (I : Bool → ConvFtl → Prop) (d : Device) : Prop where
  ftl : ∀ part < c.nrParts, I (d.refilling c part) (d.dev.ftls part)
  job : ∀ job, d.job = some job → job.endLpn / c.nrParts < c.sp.ttPgs

/-- `G` holds of the FTL that `do_gc` is called on in the step. -/
def GcIn (c : Cfg) (G : ConvFtl → Prop) (d : Device) (e : Event) : Prop :=
  ∀ part, gcCall c d e = some part → G (d.dev.ftls part)

/-! ## Commands that do not touch an FTL -/

theorem convRead_ftls (d : Dev) (rw : RwCommand) (n : ℕ) : (convRead c d rw n).2.ftls = d.ftls := by
  unfold convRead
  dsimp only
  by_cases h : c.sp.ttPgs ≤ endLpn c.sp rw.slba rw.nrLba / c.nrParts
  · rw [if_pos h]
  · rw [if_neg h]

/-- The loop of `conv_write` stays inside the tables. -/
theorem convWriteStart_yields (d : Dev) (rw : RwCommand) (n : ℕ) :
    Sat (fun f => f = .assert .bufferSize) (fun r => r.2.ftls = d.ftls ∧
      ∀ job, r.1 = some job → job.refill = false ∧ job.endLpn / c.nrParts < c.sp.ttPgs)
      (convWriteStart c d rw n) := by
  unfold convWriteStart
  dsimp only
  split_ifs with hlpn
  · refine ⟨rfl, ?_⟩
    intro job h
    cases h
  unfold bufferAllocate
  by_cases hsz : rw.bytes ≤ d.wbuf.size
  swap
  · rw [nvmevAssert, require_neg hsz]
    exact rfl
  rw [nvmevAssert_pos hsz]
  dsimp only [ok_bind, bind_assoc, pure_bind]
  generalize (if d.wbuf.remaining < rw.bytes then 0 else rw.bytes) = size
  simp only [pure_bind]
  by_cases hshort : u32 size < rw.bytes
  · rw [if_pos hshort]
    refine ⟨rfl, ?_⟩
    intro job h
    cases h
  · rw [if_neg hshort]
    refine ⟨rfl, ?_⟩
    intro job h
    cases h
    exact ⟨rfl, not_le.1 hlpn⟩

/-! ## The rules lift to the device -/

theorem setFtl_ftls (d : Dev) (part i : ℕ) (s : ConvFtl) :
    (d.setFtl part s).ftls i = if i = part then s else d.ftls i := by
  by_cases h : i = part
  · subst h; rw [if_pos rfl]; exact update_self ..
  · rw [if_neg h]; exact update_of_ne h ..

theorem setFtl_sum (d : Dev) {part : ℕ} (hpart : part < c.nrParts) (s : ConvFtl) (f : ConvFtl → ℕ) :
    (d.setFtl part s).sum c f + f (d.ftls part) = d.sum c f + f s := by
  have hsum (m : ℕ) : ((List.range m).map fun i => f ((d.setFtl part s).ftls i)).sum +
      (if part < m then f (d.ftls part) else 0) =
        ((List.range m).map fun i => f (d.ftls i)).sum + if part < m then f s else 0 := by
    induction m with
    | zero => simp
    | succ m ih =>
      simp only [List.range_succ, List.map_append, List.map_cons, List.map_nil, List.sum_append,
        List.sum_cons, List.sum_nil]
      rw [setFtl_ftls]
      rcases Nat.lt_trichotomy part m with hlt | rfl | hgt
      · rw [if_pos hlt, if_pos hlt] at ih
        rw [if_neg hlt.ne', if_pos (Nat.lt_succ_of_lt hlt), if_pos (Nat.lt_succ_of_lt hlt)]
        omega
      · rw [if_neg (Nat.lt_irrefl _), if_neg (Nat.lt_irrefl _)] at ih
        rw [if_pos rfl, if_pos (Nat.lt_succ_self _), if_pos (Nat.lt_succ_self _)]
        omega
      · rw [if_neg (by omega), if_neg (by omega)] at ih
        rw [if_neg hgt.ne, if_neg (by omega), if_neg (by omega)]
        omega
  have h := hsum c.nrParts
  rw [if_pos hpart, if_pos hpart] at h
  exact h

theorem devInv_idle {d : Dev} (h : ∀ part < c.nrParts, I false (d.ftls part)) :
    DevInv c I ⟨d, none⟩ := ⟨h, fun _ hj => (nomatch hj)⟩

theorem FtlRules.convDiscard (h : FtlRules c E G I) {d : Dev}
    (hd : ∀ part < c.nrParts, I false (d.ftls part)) (dsm : DsmCommand) (n : ℕ) :
    Sat E (fun r => ∀ part < c.nrParts, I false (r.2.ftls part)) (convDiscard c d dsm n) := by
  unfold WaitGc.convDiscard
  split_ifs
  · exact hd
  dsimp only
  cases dsm.dsmRanges with
  | none => exact hd
  | some ranges =>
    refine Sat.bind (sat_foldlM (fun _ (d : Dev) => ∀ part < c.nrParts, I false (d.ftls part))
      _ ?_ hd) fun d' hd' => hd'
    intro pre lpn post d' hl hI
    -- the page is inside the tables
    have hlpn : lpn / c.nrParts < c.sp.ttPgs := by
      have hm : lpn ∈ (List.range (dsm.nr.toNat % 256 + 1)).flatMap fun i =>
          discardLpns c (ranges i) := by rw [hl]; simp
      obtain ⟨i, -, hm⟩ := List.mem_flatMap.1 hm
      unfold discardLpns at hm
      dsimp only at hm
      split_ifs at hm with h₁ h₂
      · cases hm
      · cases hm
      · rw [lpnRange, List.mem_range'_1] at hm
        exact (Nat.div_le_div_right (by omega)).trans_lt (not_le.1 h₂)
    unfold discardLpn
    have hpart : lpn % c.nrParts < c.nrParts := Nat.mod_lt _ c.nrParts_pos
    refine (h.discard _ _ n (hI _ hpart) hlpn).bind ?_
    intro s' hs' part hp
    rw [setFtl_ftls]
    split_ifs with hi
    · exact hs'
    · exact hI part hp

theorem FtlRules.convWritePage (h : FtlRules c E G I) {d : Dev} {job : WriteJob}
    (hd : DevInv c I ⟨d, some job⟩) (hr : job.refill = false) (hl : job.lpn ≤ job.endLpn) :
    Sat E (fun r => DevInv c I ⟨r.1, some r.2⟩) (convWritePage c d job) := by
  have hI : ∀ part < c.nrParts, I false (d.ftls part) := by
    intro part hp
    have := hd.ftl part hp
    rwa [refilling_some, hr, Bool.false_and] at this
  have hpart : job.lpn % c.nrParts < c.nrParts := Nat.mod_lt _ c.nrParts_pos
  have hend := hd.job job rfl
  have hlpn : job.lpn / c.nrParts < c.sp.ttPgs := (Nat.div_le_div_right hl).trans_lt hend
  unfold WaitGc.convWritePage
  refine (h.write _ _ _ (hI _ hpart) hlpn).bind ?_
  rintro ⟨p, s'⟩ hs'
  have hftl (i : ℕ) (hi : i < c.nrParts) :
      I (true && (job.lpn % c.nrParts == i))
        ((d.setFtl (job.lpn % c.nrParts) (consumeWriteCredit s')).ftls i) := by
    rw [setFtl_ftls]
    by_cases he : i = job.lpn % c.nrParts
    · subst he; simpa using hs'
    · rw [if_neg he, Bool.true_and, beq_eq_false_iff_ne.2 (Ne.symm he)]
      exact hI i hi
  dsimp only
  split_ifs
  · refine ⟨hftl, ?_⟩
    rintro job' ⟨⟩
    exact hend
  · refine ⟨hftl, ?_⟩
    rintro job' ⟨⟩
    exact hend

/-- The credits are checked. -/
theorem FtlRules.convWriteRefill (h : FtlRules c E G I) {d : Dev} {job : WriteJob}
    (hd : DevInv c I ⟨d, some job⟩) (hr : job.refill = true)
    (hG : GcIn c G ⟨d, some job⟩ .resume) :
    Sat E (fun r => DevInv c I ⟨r.1, some r.2⟩) (convWriteRefill c d job) := by
  have hpart : job.lpn % c.nrParts < c.nrParts := Nat.mod_lt _ c.nrParts_pos
  have hI := hd.ftl _ hpart
  have hflag : Device.refilling c ⟨d, some job⟩ (job.lpn % c.nrParts) = true := by
    simp [Device.refilling, hr]
  rw [hflag] at hI
  have hgc : GcDue c (d.ftls (job.lpn % c.nrParts)) → G (d.ftls (job.lpn % c.nrParts)) := by
    intro hdue
    refine hG _ ?_
    simp [gcCall, hr, hdue]
  unfold WaitGc.convWriteRefill
  refine (h.refill _ _ hI hgc).bind ?_
  rintro ⟨s', t'⟩ hs'
  refine ⟨?_, ?_⟩
  · intro i hi
    change I false ((d.setFtl _ s').ftls i)
    rw [setFtl_ftls]
    by_cases he : i = job.lpn % c.nrParts
    · rw [if_pos he]; exact hs'
    · rw [if_neg he]
      have := hd.ftl i hi
      rwa [refilling_some, hr, Bool.true_and, beq_eq_false_iff_ne.2 (Ne.symm he)] at this
  · rintro job' ⟨⟩
    exact hd.job job rfl

/-- **One step of the device.** -/
theorem FtlRules.step (h : FtlRules c E G I) (hd : DevInv c I d) (hG : GcIn c G d e) :
    Sat (fun f => E f ∨ f = .assert .bufferSize) (DevInv c I) ((device c).step d e) := by
  obtain ⟨dev, job⟩ := d
  have hid : DevInv c I ⟨dev, none⟩ → ∀ part < c.nrParts, I false (dev.ftls part) := fun h => h.ftl
  cases e with
  | dispatch req =>
    change Sat _ _ (dispatch c ⟨dev, job⟩ req)
    unfold dispatch
    cases job with
    | some job => exact hd
    | none =>
      dsimp only
      cases req.cmd with
      | write rw =>
        dsimp only
        have hw := convWriteStart_yields (c := c) dev rw req.nsecsStart.toNat
        cases hr : convWriteStart c dev rw req.nsecsStart.toNat with
        | error f => rw [hr] at hw; exact .inr hw
        | ok r =>
          rw [hr] at hw
          obtain ⟨hftl, hjob⟩ := hw
          refine ⟨?_, fun job hj => (hjob job hj).2⟩
          intro part hp
          have hflag : Device.refilling c ⟨r.2, r.1⟩ part = false := by
            unfold Device.refilling
            cases hr1 : r.1 with
            | none => rfl
            | some job => dsimp only; rw [(hjob job hr1).1, Bool.false_and]
          change I (Device.refilling c ⟨r.2, r.1⟩ part) (r.2.ftls part)
          rw [hflag, hftl]
          exact hid hd part hp
      | read rw =>
        refine devInv_idle fun part hp => ?_
        rw [convRead_ftls]
        exact hid hd part hp
      | flush => exact devInv_idle (hid hd)
      | dsm dsm =>
        dsimp only
        have hc := h.convDiscard (hid hd) dsm req.nsecsStart.toNat
        cases hr : WaitGc.convDiscard c dev dsm req.nsecsStart.toNat with
        | error f => rw [hr] at hc; exact .inl hc
        | ok r => rw [hr] at hc; exact devInv_idle hc
      | other _ => exact hd
  | resume =>
    change Sat _ _ (resume c ⟨dev, job⟩)
    unfold resume
    cases job with
    | none => exact hd
    | some job =>
      dsimp only
      split_ifs with hr hl
      · have hc := h.convWriteRefill hd hr hG
        cases hres : WaitGc.convWriteRefill c dev job with
        | error f => rw [hres] at hc; exact .inl hc
        | ok r => rw [hres] at hc; exact hc
      · have hc := h.convWritePage hd (by simpa using hr) hl
        cases hres : WaitGc.convWritePage c dev job with
        | error f => rw [hres] at hc; exact .inl hc
        | ok r => rw [hres] at hc; exact hc
      · refine devInv_idle fun part hp => ?_
        have := hd.ftl part hp
        rwa [refilling_some, Bool.eq_false_iff.2 hr, Bool.false_and] at this
  | fire i =>
    change DevInv c I (fire ⟨dev, job⟩ i)
    unfold fire
    dsimp only
    cases dev.pending[i]? with
    | none => exact hd
    | some op => exact ⟨hd.ftl, hd.job⟩

/-- **Every run of the device.** -/
theorem FtlRules.run (h : FtlRules c E G I) (hd : DevInv c I d) (hG : (device c).Along (GcIn c G) d es) :
    Sat (fun f => E f ∨ f = .assert .bufferSize) (DevInv c I) ((device c).run d es) :=
  Machine.run_sat (fun _ _ hd hG => h.step hd hG) hd hG

theorem devInv_init {junk : ℕ → ℕ → Slot} {clock : ℕ → ℕ} {dev : Dev}
    (hinit : ∀ part junk, Yields (I false) (convInitFtl c part junk))
    (h : convInitNamespace c junk clock = .ok dev) : DevInv c I ⟨dev, none⟩ := by
  obtain ⟨first, -, h⟩ := bind_eq_ok h
  obtain ⟨ftls, hf, h⟩ := bind_eq_ok h
  cases h
  refine devInv_idle fun part hp => ?_
  refine (sat_foldlM (E := fun _ => True) (fun pre (ftls : ℕ → ConvFtl) =>
    ∀ part ∈ pre, I false (ftls part)) _ ?_ ?_).of_ok hf part (List.mem_range.2 hp)
  · intro pre i post ftls hl hI
    refine (hinit i (junk i)).bind fun s hs => ?_
    intro part hpart
    by_cases hi : part = i
    · subst hi; rw [update_self]; exact hs
    · rw [update_of_ne hi]
      refine hI part ?_
      rcases List.mem_append.1 hpart with h | h
      · exact h
      · exact absurd (List.mem_singleton.1 h) hi
  · exact fun _ h => (nomatch h)

end WaitGc

/-
  WAITGC verification — the clock ages are measured by (`cur_nsecs`).

  A write sets the clock of an FTL to the time its data is in the write buffer, and later
  in the same command to the time a wordline is programmed.  A deallocate sets it to the
  time the command arrived.  The first is ahead of the arrival, so a deallocate that
  arrives during a write takes the clock back, and so does a write that arrives before the
  last wordline of another one is programmed.

  `InTime`: a command is late enough for the clocks it sets.  In a run of such commands no
  clock goes back, and the age of a line is the time since its latest invalidation.
-/
import WaitGc.Proof.Devices
import WaitGc.Proof.GcFrame
import WaitGc.Proof.Moves
import WaitGc.Proof.System

namespace WaitGc

open Outcome Function

variable {c : Cfg} {s s' s₁ s₂ s₃ : ConvFtl} {d d' : Device} {e : Event} {part i now : ℕ}

/-! ## One FTL -/

/-- The first block of the line is erased on the way from `s` to `s'`. -/
def Erased (s s' : ConvFtl) (i : ℕ) : Prop := (s.blk ⟨0, 0, 0, i⟩).eraseCnt < (s'.blk ⟨0, 0, 0, i⟩).eraseCnt

/-- A line stays, is dated by the clock, or is freed. -/
def LineMoved (s s' : ConvFtl) (i : ℕ) : Prop :=
  SameTime (s.lm.lines i) (s'.lm.lines i) ∨ Dated (· = s'.curNsecs) (s.lm.lines i) (s'.lm.lines i) ∨
    ((s'.lm.lines i).lastModifiedTime = 0 ∧ (s'.lm.lines i).ipc = 0) ∧ Erased s s' i

/-- What a step does to the clock and to the times of the lines. -/
structure ClockMoved (s s' : ConvFtl) : Prop where
  clock : s.curNsecs ≤ s'.curNsecs
  erase : ∀ b, (s.blk b).eraseCnt ≤ (s'.blk b).eraseCnt
  line : ∀ i, LineMoved s s' i

theorem ClockMoved.refl (s : ConvFtl) : ClockMoved s s :=
  ⟨le_rfl, fun _ => le_rfl, fun _ => .inl ⟨rfl, rfl⟩⟩

theorem Touched.clockMoved (h : Touched (· = now) s s') (hcur : s'.curNsecs = now)
    (hle : s.curNsecs ≤ now) : ClockMoved s s' := by
  refine ⟨hcur ▸ hle, h.erase, fun i => ?_⟩
  rcases (h.lines i).2 with hsame | hdated
  · exact .inl hsame
  · exact .inr (.inl (hcur.symm ▸ hdated))

theorem checkAndRefill_clockMoved (s : ConvFtl) (t : Timing) :
    Yields (fun r => ClockMoved s r.1 ∧ r.1.curNsecs = s.curNsecs) (checkAndRefillWriteCredit c s t) := by
  rw [checkAndRefill_eq]
  split_ifs
  · have hgc := doGc_result (c := c) s t true
    cases hr : doGc c s t true with
    | error e => trivial
    | ok r =>
      rw [hr] at hgc
      change ClockMoved s r.2.1.refill ∧ r.2.1.refill.curNsecs = s.curNsecs
      rcases hgc.collected_of with hs | ⟨v, s₁, -, ⟨-, hsel⟩, hcol⟩
      · rw [hs]
        exact ⟨⟨le_rfl, fun _ => le_rfl, fun _ => .inl ⟨rfl, rfl⟩⟩, rfl⟩
      · have hcur : s₁.curNsecs = s.curNsecs := by rw [hsel.frame]
        have hblk : s₁.blk = s.blk := by rw [hsel.frame]
        refine ⟨⟨(hcol.curNsecs.trans hcur).ge, fun b => hblk ▸ hcol.erase b, fun i => ?_⟩,
          hcol.curNsecs.trans hcur⟩
        have hline := hsel.line i
        rcases hcol.time i with ⟨ht, hipc⟩ | ⟨hfree, herase⟩
        · exact .inl ⟨ht.trans hline.time, hipc.trans hline.ipc⟩
        · exact .inr (.inr ⟨hfree, by rw [hblk] at herase; exact herase⟩)
  · exact ⟨⟨le_rfl, fun _ => le_rfl, fun _ => .inl ⟨rfl, rfl⟩⟩, rfl⟩
  · exact ⟨.refl s, rfl⟩

/-- No line was modified later than the clock. -/
def TimesPast (s : ConvFtl) : Prop := ∀ i, (s.lm.lines i).lastModifiedTime ≤ s.curNsecs

theorem ClockMoved.timesPast (h : ClockMoved s s') (hp : TimesPast s) : TimesPast s' := by
  intro i
  rcases h.line i with ⟨ht, -⟩ | ⟨ht, -⟩ | ⟨⟨ht, -⟩, -⟩
  · exact ht ▸ (hp i).trans h.clock
  · exact ht.le
  · exact ht ▸ Nat.zero_le _

/-- `s'` comes after `s`: the clock went on, and so did the time of every line that was not
    erased. -/
structure Later (s s' : ConvFtl) : Prop where
  clock : s.curNsecs ≤ s'.curNsecs
  erase : ∀ b, (s.blk b).eraseCnt ≤ (s'.blk b).eraseCnt
  line : ∀ i, (s.lm.lines i).lastModifiedTime ≤ (s'.lm.lines i).lastModifiedTime ∨ Erased s s' i

theorem Later.refl (s : ConvFtl) : Later s s := ⟨le_rfl, fun _ => le_rfl, fun _ => .inl le_rfl⟩

theorem Later.trans (h : Later s₁ s₂) (h' : Later s₂ s₃) : Later s₁ s₃ := by
  refine ⟨h.clock.trans h'.clock, fun b => (h.erase b).trans (h'.erase b), fun i => ?_⟩
  rcases h.line i with ht | he
  · rcases h'.line i with ht' | he'
    · exact .inl (ht.trans ht')
    · exact .inr ((h.erase _).trans_lt he')
  · exact .inr (he.trans_le (h'.erase _))

theorem ClockMoved.later (h : ClockMoved s s') (hp : TimesPast s) : Later s s' := by
  refine ⟨h.clock, h.erase, fun i => ?_⟩
  rcases h.line i with ⟨ht, -⟩ | ⟨ht, -⟩ | ⟨-, he⟩
  · exact .inl ht.ge
  · exact .inl (((hp i).trans h.clock).trans ht.ge)
  · exact .inr he

/-- The clamp of `line_age_ns` does not fire. -/
theorem TimesPast.age (h : TimesPast s) (i : ℕ) :
    (s.lm.lines i).lastModifiedTime + lineAgeNs s (s.lm.lines i) = s.curNsecs := by
  have hle := h i
  unfold lineAgeNs
  split_ifs <;> omega

/-! ## Commands -/

/-- What the pages of one deallocate do to an FTL. -/
def Trimmed (now : ℕ) (s s' : ConvFtl) : Prop :=
  s' = s ∨ (s.curNsecs ≤ now ∧ s'.curNsecs = now ∧ Touched (· = now) s s')

theorem Trimmed.trans (h : Trimmed now s₁ s₂) (h' : Trimmed now s₂ s₃) : Trimmed now s₁ s₃ := by
  rcases h with rfl | ⟨hle, hcur, ht⟩
  · exact h'
  · rcases h' with rfl | ⟨-, hcur', ht'⟩
    · exact .inr ⟨hle, hcur, ht⟩
    · exact .inr ⟨hle, hcur', ht.trans ht'⟩

theorem Trimmed.clockMoved (h : Trimmed now s s') : ClockMoved s s' := by
  rcases h with rfl | ⟨hle, hcur, ht⟩
  · exact .refl s'
  · exact ht.clockMoved hcur hle

/-- `conv_discard` unmaps the page. -/
def Trims (c : Cfg) (s : ConvFtl) (lpn : ℕ) : Prop :=
  mappedPpa (s.maptbl lpn) = true ∧ validPpa c.sp (s.maptbl lpn) = true

theorem discardFtl_trimmed {lpn : ℕ} (h : Trims c s lpn → s.curNsecs ≤ now) :
    Yields (Trimmed now s) (discardFtl c s lpn now) := by
  have hy := discardFtl_yields (c := c) s lpn now
  by_cases hm : Trims c s lpn
  · refine hy.mono (fun _ h => h) ?_
    rintro s' (rfl | ⟨ht, hf⟩)
    · exact .inl rfl
    · exact .inr ⟨h hm, by rw [hf], ht⟩
  · have hskip : (!mappedPpa (s.maptbl lpn) || !validPpa c.sp (s.maptbl lpn)) = true := by
      simpa [Trims, Decidable.or_iff_not_imp_left] using hm
    unfold discardFtl
    rw [if_pos hskip]
    exact .inl rfl

/-- The pages `conv_discard` goes over. -/
def DsmCommand.lpns (c : Cfg) (dsm : DsmCommand) : List ℕ :=
  match dsm.dsmRanges with
  | none => []
  | some ranges => (List.range (dsm.nr.toNat % 256 + 1)).flatMap fun i => discardLpns c (ranges i)

/-- Each page the deallocate unmaps is on an FTL with a clock up to `now`. -/
def DsmCommand.InTime (c : Cfg) (d : Dev) (dsm : DsmCommand) (now : ℕ) : Prop :=
  dsm.attributes.getLsbD 2 = true → ∀ lpn ∈ dsm.lpns c,
    Trims c (d.ftls (lpn % c.nrParts)) (lpn / c.nrParts) → (d.ftls (lpn % c.nrParts)).curNsecs ≤ now

theorem convDiscard_trimmed {d : Dev} {dsm : DsmCommand} (h : dsm.InTime c d now) :
    Yields (fun r => ∀ part, Trimmed now (d.ftls part) (r.2.ftls part)) (convDiscard c d dsm now) := by
  have hrefl (part : ℕ) : Trimmed now (d.ftls part) (d.ftls part) := .inl rfl
  unfold convDiscard
  by_cases had : dsm.attributes.getLsbD 2 = false
  · rw [if_pos had]
    exact hrefl
  rw [if_neg had]
  replace h := h (by simpa using had)
  unfold DsmCommand.lpns at h
  cases hranges : dsm.dsmRanges with
  | none => exact hrefl
  | some ranges =>
    rw [hranges] at h
    dsimp only at h
    refine Sat.bind (sat_foldlM (fun _ (d' : Dev) => ∀ part, Trimmed now (d.ftls part) (d'.ftls part))
      _ ?_ hrefl) fun d' h => h
    intro pre lpn post d₁ hl hd₁
    have hmem := h lpn (by rw [hl]; simp)
    have hpart := hd₁ (lpn % c.nrParts)
    refine (discardFtl_trimmed ?_).bind ?_
    · intro hm
      -- before the first page that is unmapped the FTL is as it was
      rcases hpart with he | ⟨-, hcur, -⟩
      · rw [he] at hm ⊢
        exact hmem hm
      · exact hcur.le
    · intro s' hs' part
      rw [setFtl_ftls]
      split_ifs with hi
      · exact hi ▸ hpart.trans hs'
      · exact hd₁ part

/-- The time at which the data of the write is in the write buffer. -/
def RwCommand.bufferedAt (c : Cfg) (d : Dev) (rw : RwCommand) (nsecsStart : ℕ) : ℕ :=
  (ssdAdvanceWriteBuffer c.sp d.timing nsecsStart rw.bytes).1

/-- Each page of the write is on an FTL with a clock up to the time the data is buffered. -/
def RwCommand.InTime (c : Cfg) (d : Dev) (rw : RwCommand) (nsecsStart : ℕ) : Prop :=
  rw.Accepted c d → ∀ lpn ∈ lpnRange (startLpn c.sp rw.slba) (endLpn c.sp rw.slba rw.nrLba),
    (d.ftls (lpn % c.nrParts)).curNsecs ≤ rw.bufferedAt c d nsecsStart

/-- The command is late enough for the clocks it sets. -/
def NvmevRequest.InTime (c : Cfg) (d : Dev) (req : NvmevRequest) : Prop :=
  match req.cmd with
  | .write rw => rw.InTime c d req.nsecsStart.toNat
  | .dsm dsm => dsm.InTime c d req.nsecsStart.toNat
  | _ => True

/-- The command the dispatcher takes in the step is in time. -/
def InTime (c : Cfg) (d : Device) (e : Event) : Prop := ∀ req ∈ d.taken e, req.InTime c d.dev

theorem InTime.command {req : NvmevRequest} (h : InTime c d (.dispatch req)) (hjob : d.job = none) :
    req.InTime c d.dev := h req (Device.taken_dispatch hjob)

/-! ## The device -/

/-- The times of the lines are past, and a write in progress is ahead of the clocks it is
    about to set. -/
structure ClockInv (c : Cfg) (d : Device) : Prop where
  past : ∀ part < c.nrParts, TimesPast (d.dev.ftls part)
  job : ∀ job, d.job = some job → ∀ lpn, job.lpn ≤ lpn → lpn ≤ job.endLpn →
    (d.dev.ftls (lpn % c.nrParts)).curNsecs ≤ job.nsecsLatest

theorem resume_job {job' : WriteJob} (h : resume c d = .ok d') (hj : d'.job = some job') :
    ∃ job, d.job = some job ∧ job.lpn ≤ job'.lpn ∧ job'.endLpn = job.endLpn ∧
      job.nsecsLatest ≤ job'.nsecsLatest := by
  unfold resume at h
  cases hjob : d.job with
  | none =>
    rw [hjob] at h
    cases h
    rw [hjob] at hj
    cases hj
  | some job =>
    rw [hjob] at h
    refine ⟨job, rfl, ?_⟩
    dsimp only at h
    split_ifs at h with hr hl
    · obtain ⟨r, hres, rfl⟩ := exists_ok_of_map h
      obtain ⟨x, -, hres⟩ := bind_eq_ok hres
      cases hres
      cases hj
      exact ⟨Nat.le_succ _, rfl, le_rfl⟩
    · obtain ⟨r, hres, rfl⟩ := exists_ok_of_map h
      obtain ⟨x, -, hres⟩ := bind_eq_ok hres
      cases hj
      dsimp only at hres
      split_ifs at hres
      · cases hres
        exact ⟨le_rfl, rfl, le_max_right _ _⟩
      · cases hres
        exact ⟨le_rfl, rfl, le_rfl⟩
    · cases h
      cases hj

/-- What a move of the dispatcher does to an FTL. -/
theorem resume_clockMoved (hd : ClockInv c d) (h : resume c d = .ok d') (part : ℕ) :
    ClockMoved (d.dev.ftls part) (d'.dev.ftls part) ∧
      ((d'.dev.ftls part).curNsecs = (d.dev.ftls part).curNsecs ∨
        ∃ job, d.job = some job ∧ (d'.dev.ftls part).curNsecs = job.nsecsLatest) := by
  have hmove : PartMove c d part .resume _ := step_partMove h
  generalize d'.dev.ftls part = s' at hmove
  cases hmove with
  | stays => exact ⟨.refl _, .inl rfl⟩
  | @writes job p s' hjob hr hl hpart hw =>
    have hmoved := (convWriteFtl_yields _ _ _).of_ok hw
    have hcur : s'.curNsecs = job.nsecsLatest := by
      have hframe := hmoved.frame
      dsimp only at hframe
      rw [hframe]
    have hle := hd.job job hjob job.lpn le_rfl hl
    rw [hpart] at hle
    obtain ⟨w, hcons⟩ : ∃ w, consumeWriteCredit s' = { s' with wfc := w } := ⟨_, rfl⟩
    have hclock : ClockMoved (d.dev.ftls part) s' := hmoved.touched.clockMoved hcur hle
    rw [hcons]
    exact ⟨⟨hclock.clock, hclock.erase, hclock.line⟩, .inr ⟨job, hjob, hcur⟩⟩
  | checks hjob hr hpart hc =>
    obtain ⟨hclock, hcur⟩ := (checkAndRefill_clockMoved _ _).of_ok hc
    exact ⟨hclock, .inl hcur⟩

theorem dispatch_clockMoved {req : NvmevRequest} (hC : InTime c d (.dispatch req))
    (h : dispatch c d req = .ok d') (part : ℕ) : ClockMoved (d.dev.ftls part) (d'.dev.ftls part) := by
  have hsame (he : d'.dev.ftls = d.dev.ftls) : ClockMoved (d.dev.ftls part) (d'.dev.ftls part) := by
    rw [he]
    exact .refl _
  unfold dispatch at h
  cases hjob : d.job with
  | some job =>
    rw [hjob] at h
    cases h
    exact .refl _
  | none =>
    rw [hjob] at h
    dsimp only at h
    replace hC := hC.command hjob
    unfold NvmevRequest.InTime at hC
    cases hcmd : req.cmd with
    | write rw =>
      rw [hcmd] at h
      obtain ⟨r, hr, rfl⟩ := exists_ok_of_map h
      exact hsame ((convWriteStart_yields _ _ _).of_ok hr).1
    | read rw =>
      rw [hcmd] at h
      cases h
      exact hsame (convRead_ftls _ _ _)
    | flush =>
      rw [hcmd] at h
      cases h
      exact .refl _
    | dsm dsm =>
      rw [hcmd] at h hC
      obtain ⟨r, hr, rfl⟩ := exists_ok_of_map h
      exact ((convDiscard_trimmed hC).of_ok hr part).clockMoved
    | other opcode =>
      rw [hcmd] at h
      cases h
      exact .refl _

/-- A write in time starts ahead of the clocks it is about to set. -/
theorem dispatch_job {req : NvmevRequest} {job : WriteJob} (hd : ClockInv c d)
    (hC : InTime c d (.dispatch req)) (h : dispatch c d req = .ok d') (hj : d'.job = some job) (lpn : ℕ)
    (hfirst : job.lpn ≤ lpn) (hlast : lpn ≤ job.endLpn) :
    (d'.dev.ftls (lpn % c.nrParts)).curNsecs ≤ job.nsecsLatest := by
  unfold dispatch at h
  cases hjob : d.job with
  | some job' =>
    rw [hjob] at h
    cases h
    exact hd.job job hj lpn hfirst hlast
  | none =>
    rw [hjob] at h
    dsimp only at h
    replace hC := hC.command hjob
    unfold NvmevRequest.InTime at hC
    cases hcmd : req.cmd with
    | write rw =>
      rw [hcmd] at h hC
      obtain ⟨r, hr, rfl⟩ := exists_ok_of_map h
      obtain ⟨job', dev⟩ := r
      have hstarted := (convWriteStart_started _ _ _).of_ok hr
      cases hj
      cases hstarted with
      | started hacc =>
        refine hC hacc lpn ?_
        rw [lpnRange, List.mem_range'_1]
        exact ⟨hfirst, by dsimp only [RwCommand.job] at hfirst hlast; omega⟩
    | dsm dsm =>
      rw [hcmd] at h
      obtain ⟨r, hr, rfl⟩ := exists_ok_of_map h
      cases hj
    | read rw | flush | other opcode =>
      rw [hcmd] at h
      cases h
      first | cases hj | (rw [hjob] at hj; cases hj)

/-- **One step of the device**, with a command in time. -/
theorem step_clock (hd : ClockInv c d) (hC : InTime c d e) (h : (device c).step d e = .ok d') :
    ClockInv c d' ∧ ∀ part, ClockMoved (d.dev.ftls part) (d'.dev.ftls part) := by
  cases e with
  | dispatch req =>
    have hmoved := dispatch_clockMoved hC h
    exact ⟨⟨fun part hp => (hmoved part).timesPast (hd.past part hp),
      fun job hj => dispatch_job hd hC h hj⟩, hmoved⟩
  | resume =>
    have hmoved := resume_clockMoved hd h
    refine ⟨⟨fun part hp => (hmoved part).1.timesPast (hd.past part hp), ?_⟩, fun part => (hmoved part).1⟩
    intro job' hj' lpn hfirst hlast
    obtain ⟨job, hjob, hlpn, hend, hlatest⟩ := resume_job h hj'
    refine le_trans ?_ hlatest
    rcases (hmoved (lpn % c.nrParts)).2 with hcur | ⟨job₁, hjob₁, hcur⟩
    · exact hcur ▸ hd.job job hjob lpn (hlpn.trans hfirst) (hend ▸ hlast)
    · rw [hjob] at hjob₁
      cases hjob₁
      exact hcur.le
  | fire i =>
    change Except.ok (fire d i) = .ok d' at h
    cases h
    have hftls : (fire d i).dev.ftls = d.dev.ftls := by
      unfold fire
      cases d.dev.pending[i]? <;> rfl
    have hjob : (fire d i).job = d.job := by
      unfold fire
      cases d.dev.pending[i]? <;> rfl
    refine ⟨⟨?_, ?_⟩, fun part => hftls ▸ .refl _⟩
    · rw [hftls]
      exact hd.past
    · rw [hftls, hjob]
      exact hd.job

/-! ## Runs -/

/-- A step invalidates a page of the line. -/
def Invalidates (s s' : ConvFtl) (i : ℕ) : Prop := (s.lm.lines i).ipc < (s'.lm.lines i).ipc

/-- The line is left alone in the step. -/
def LeavesLine (c : Cfg) (part i : ℕ) (d : Device) (e : Event) : Prop :=
  ∀ d', (device c).step d e = .ok d' →
    ¬ Invalidates (d.dev.ftls part) (d'.dev.ftls part) i ∧ ¬ Erased (d.dev.ftls part) (d'.dev.ftls part) i

/-- What the ages of an FTL rely on, in the run `es` from `d₀`. -/
structure ClockSound (c : Cfg) (d₀ : Device) (es : List Event) (part : ℕ) : Prop where
  later : ∀ es₁ es₂ d₁ d₂, es₁ ++ es₂ <+: es → (device c).run d₀ es₁ = .ok d₁ →
    (device c).run d₁ es₂ = .ok d₂ → Later (d₁.dev.ftls part) (d₂.dev.ftls part)
  -- the clamp does not fire
  age : ∀ es₁ d₁, es₁ <+: es → (device c).run d₀ es₁ = .ok d₁ → ∀ i,
    let s := d₁.dev.ftls part
    (s.lm.lines i).lastModifiedTime ≤ s.curNsecs ∧
      (s.lm.lines i).lastModifiedTime + lineAgeNs s (s.lm.lines i) = s.curNsecs
  -- the age is what the clock went on since the last invalidation, the one in the step `e`
  since : ∀ es₁ e es₂ d₁ d₂ d₃ i, es₁ ++ e :: es₂ <+: es → (device c).run d₀ es₁ = .ok d₁ →
    (device c).step d₁ e = .ok d₂ → (device c).run d₂ es₂ = .ok d₃ →
    Invalidates (d₁.dev.ftls part) (d₂.dev.ftls part) i → (device c).Along (LeavesLine c part i) d₂ es₂ →
    (d₂.dev.ftls part).curNsecs + lineAgeNs (d₃.dev.ftls part) ((d₃.dev.ftls part).lm.lines i) =
      (d₃.dev.ftls part).curNsecs

theorem clockInv_run {es : List Event} (hd : ClockInv c d) (hC : (device c).Along (InTime c) d es)
    (h : (device c).run d es = .ok d') : ClockInv c d' := by
  have hrun : Sat (fun _ => True) (ClockInv c) ((device c).run d es) := by
    refine Machine.run_sat ?_ hd hC
    intro d e hd hC
    cases hs : (device c).step d e with
    | error f => trivial
    | ok d' => exact (step_clock hd hC hs).1
  exact hrun.of_ok h

theorem later_run (hpart : part < c.nrParts) {es : List Event} (hd : ClockInv c d)
    (hC : (device c).Along (InTime c) d es) (h : (device c).run d es = .ok d') :
    Later (d.dev.ftls part) (d'.dev.ftls part) := by
  refine Machine.run_rel (R := fun d d' => Later (d.dev.ftls part) (d'.dev.ftls part))
    (fun _ => .refl _) (fun _ _ _ => Later.trans) ?_ hd hC h
  intro d e d' hd hC hs
  obtain ⟨hd', hmoved⟩ := step_clock hd hC hs
  exact ⟨hd', (hmoved part).later (hd.past part hpart)⟩

theorem sameTime_run {es : List Event} (hd : ClockInv c d) (hC : (device c).Along (InTime c) d es)
    (hL : (device c).Along (LeavesLine c part i) d es) (h : (device c).run d es = .ok d') :
    SameTime ((d.dev.ftls part).lm.lines i) ((d'.dev.ftls part).lm.lines i) := by
  refine Machine.run_rel
    (R := fun d d' => SameTime ((d.dev.ftls part).lm.lines i) ((d'.dev.ftls part).lm.lines i))
    (fun _ => ⟨rfl, rfl⟩) (fun _ _ _ h h' => ⟨h'.1.trans h.1, h'.2.trans h.2⟩) ?_ hd (hC.and hL) h
  rintro d e d' hd ⟨hC, hL⟩ hs
  obtain ⟨hd', hmoved⟩ := step_clock hd hC hs
  obtain ⟨hno, hkept⟩ := hL d' hs
  refine ⟨hd', ?_⟩
  rcases (hmoved part).line i with hsame | ⟨-, hipc⟩ | ⟨-, he⟩
  · exact hsame
  · exact absurd hipc hno
  · exact absurd he hkept

theorem initial_clockInv {junk : ℕ → ℕ → Slot} {clock : ℕ → ℕ} {dev : Dev}
    (hinit : convInitNamespace c junk clock = .ok dev) : ClockInv c ⟨dev, none⟩ := by
  have hzero (part : ℕ) (junk : ℕ → Slot) : Yields TimesPast (convInitFtl c part junk) := by
    refine (convInitFtl_yields c part junk).mono (fun _ h => h) ?_
    rintro s ⟨rfl, -⟩ i
    exact Nat.zero_le _
  have hdev : DevInv c (fun _ => TimesPast) ⟨dev, none⟩ := devInv_init hzero hinit
  exact ⟨hdev.ftl, fun _ hj => nomatch hj⟩

/-- **The clock of ages never runs backwards**, in a run of commands in time. -/
theorem age_clock {junk : ℕ → ℕ → Slot} {clock : ℕ → ℕ} {dev : Dev} {es : List Event}
    (hinit : convInitNamespace c junk clock = .ok dev)
    (hC : (device c).Along (InTime c) ⟨dev, none⟩ es) (hpart : part < c.nrParts) :
    ClockSound c ⟨dev, none⟩ es part := by
  have hd₀ := initial_clockInv hinit
  refine ⟨?_, ?_, ?_⟩
  · rintro es₁ es₂ d₁ d₂ ⟨rest, rfl⟩ h₁ h₂
    rw [List.append_assoc, Machine.along_append h₁, Machine.along_append h₂] at hC
    exact later_run hpart (clockInv_run hd₀ hC.1 h₁) hC.2.1 h₂
  · rintro es₁ d₁ ⟨rest, rfl⟩ h₁ i
    rw [Machine.along_append h₁] at hC
    have hpast := (clockInv_run hd₀ hC.1 h₁).past part hpart
    exact ⟨hpast i, hpast.age i⟩
  · rintro es₁ e es₂ d₁ d₂ d₃ i ⟨rest, rfl⟩ h₁ hs h₃ hinv hL
    rw [List.append_assoc, Machine.along_append h₁, List.cons_append] at hC
    obtain ⟨hC₁, he, hC₂⟩ := hC
    replace hC₂ := ((Machine.along_append h₃).1 (hC₂ d₂ hs)).1
    obtain ⟨hd₂, hmoved⟩ := step_clock (clockInv_run hd₀ hC₁ h₁) he hs
    have hpast := (clockInv_run hd₂ hC₂ h₃).past part hpart
    -- the step dates the line by the clock
    have hdated : ((d₂.dev.ftls part).lm.lines i).lastModifiedTime = (d₂.dev.ftls part).curNsecs := by
      unfold Invalidates at hinv
      rcases (hmoved part).line i with ⟨-, hipc⟩ | ⟨ht, -⟩ | ⟨⟨-, hipc⟩, -⟩
      · rw [hipc] at hinv
        exact absurd hinv (lt_irrefl _)
      · exact ht
      · rw [hipc] at hinv
        exact absurd hinv (Nat.not_lt_zero _)
    have hsame := sameTime_run hd₂ hC₂ hL h₃
    rw [← hdated, ← hsame.1]
    exact hpast.age i

/-! ## A write and a deallocate -/

/-- The arrival of the command an event hands over. -/
def Event.arrival : Event → Option ℕ
  | .dispatch req => some req.nsecsStart.toNat
  | _ => none

/-- The page is deallocated. -/
def trimPage (nsecsStart : BitVec 64) : List Event := [.dispatch ⟨.dsm ⟨0, 4, some fun _ => ⟨8, 0⟩⟩, nsecsStart⟩]

/-- The deallocate arrives a nanosecond after the write, and before its data is buffered. -/
theorem age_clock_back : ∃ dev, convInitNamespace tinyCfg (fun _ _ => .null) (fun _ => 0) = .ok dev ∧
    ((onePageRun ++ trimPage 1).filterMap Event.arrival).Pairwise (· ≤ ·) ∧
    ¬ ClockSound tinyCfg ⟨dev, none⟩ (onePageRun ++ trimPage 1) 0 := by
  have hback : (convInitNamespace tinyCfg (fun _ _ => .null) (fun _ => 0) >>= fun dev =>
      (device tinyCfg).run ⟨dev, none⟩ onePageRun >>= fun d =>
        ((device tinyCfg).run d (trimPage 1)).map fun d' =>
          decide ((d'.dev.ftls 0).curNsecs < (d.dev.ftls 0).curNsecs)) = .ok true := by
    decide +kernel
  obtain ⟨dev, hinit, hback⟩ := bind_eq_ok hback
  obtain ⟨d, hrun, hback⟩ := bind_eq_ok hback
  obtain ⟨d', htrim, hlt⟩ := exists_ok_of_map hback
  refine ⟨dev, hinit, by decide, fun hsound => ?_⟩
  have hle := (hsound.later _ _ d d' List.prefix_rfl hrun htrim).clock
  exact absurd (of_decide_eq_true hlt) (not_lt.2 hle)

instance (c : Cfg) (s : ConvFtl) (lpn : ℕ) : Decidable (Trims c s lpn) :=
  inferInstanceAs (Decidable (_ ∧ _))

instance (c : Cfg) (d : Dev) (dsm : DsmCommand) (now : ℕ) : Decidable (dsm.InTime c d now) :=
  inferInstanceAs (Decidable (_ → ∀ lpn ∈ dsm.lpns c, _ → _))

instance (c : Cfg) (d : Dev) (rw : RwCommand) (n : ℕ) : Decidable (rw.InTime c d n) :=
  inferInstanceAs (Decidable (_ → ∀ lpn ∈ lpnRange _ _, _ ≤ _))

instance (c : Cfg) (d : Dev) : DecidablePred (NvmevRequest.InTime c d)
  | ⟨.write rw, n⟩ => inferInstanceAs (Decidable (rw.InTime c d n.toNat))
  | ⟨.dsm dsm, n⟩ => inferInstanceAs (Decidable (dsm.InTime c d n.toNat))
  | ⟨.read _, _⟩ | ⟨.flush, _⟩ | ⟨.other _, _⟩ => .isTrue trivial

instance (c : Cfg) (d : Device) (e : Event) : Decidable (InTime c d e) :=
  inferInstanceAs (Decidable (∀ req ∈ d.taken e, req.InTime c d.dev))

/-- A second later the deallocate is in time. -/
theorem age_clock_second : ∃ dev, convInitNamespace tinyCfg (fun _ _ => .null) (fun _ => 0) = .ok dev ∧
    ClockSound tinyCfg ⟨dev, none⟩ (onePageRun ++ trimPage 1000000000) 0 := by
  have hC : (convInitNamespace tinyCfg (fun _ _ => .null) (fun _ => 0)).map (fun dev =>
      decide ((device tinyCfg).Along (InTime tinyCfg) ⟨dev, none⟩ (onePageRun ++ trimPage 1000000000))) =
        .ok true := by
    decide +kernel
  obtain ⟨dev, hinit, hC⟩ := exists_ok_of_map hC
  exact ⟨dev, hinit, age_clock hinit (of_decide_eq_true hC) (by decide)⟩

end WaitGc

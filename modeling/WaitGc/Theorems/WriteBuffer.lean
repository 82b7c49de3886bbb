/-
  WAITGC verification — the space of the write buffer.

  `conv_write` takes the bytes of the command from the buffer, and gives back the bytes of a
  wordline for each wordline that its pages complete.  `BufferInv` balances the two: the
  pages of incomplete wordlines and the pages the write in progress has left are paid for.

  A write that does not cover its pages takes less than they give back, and the buffer grows
  past its size.
-/
import WaitGc.Proof.Devices
import WaitGc.Proof.Moves
import WaitGc.Proof.System

namespace WaitGc

open Outcome

variable {c : Cfg} {s s' : ConvFtl} {d d' : Device} {e : Event} {es : List Event} {part : ℕ}

/-! ## The balance -/

/-- The pages of the wordline the user's write pointer is in. -/
def openPages (c : Cfg) (s : ConvFtl) : ℕ := s.wp.pg % c.sp.pgsPerOneshotpg

/-- The pages the write has left. -/
def WriteJob.pagesLeft (job : WriteJob) : ℕ :=
  job.endLpn + 1 - if job.refill then job.lpn + 1 else job.lpn

def Device.pagesLeft (d : Device) : ℕ := (d.job.map WriteJob.pagesLeft).getD 0

/-- The space the scheduled operations give back. -/
def scheduled (ops : List InternalOp) : ℕ := (ops.map InternalOp.buffsToRelease).sum

theorem scheduled_concat (ops : List InternalOp) (op : InternalOp) :
    scheduled (ops ++ [op]) = scheduled ops + op.buffsToRelease := by
  simp [scheduled]

theorem scheduled_eraseIdx {ops : List InternalOp} {i : ℕ} {op : InternalOp} (h : ops[i]? = some op) :
    scheduled ops = op.buffsToRelease + scheduled (ops.eraseIdx i) := by
  obtain ⟨hi, rfl⟩ := List.getElem?_eq_some_iff.1 h
  have hperm := (List.getElem_cons_eraseIdx_perm hi).map InternalOp.buffsToRelease
  rw [scheduled, ← hperm.sum_eq]
  rfl

/-- The space that is free, or paid for. -/
def Device.bufferUse (c : Cfg) (d : Device) : ℕ :=
  d.dev.wbuf.remaining + scheduled d.dev.pending + (d.dev.sum c (openPages c) + d.pagesLeft) * c.sp.pgsz

/-- The buffer is large enough for it. -/
def BufferInv (c : Cfg) (d : Device) : Prop := d.bufferUse c ≤ d.dev.wbuf.size

/-! ## Pages -/

/-- A host page completes a wordline, or is one more page of it. -/
theorem HostMoved.openPages {nsecs : ℕ} {p : Ppa} (h : HostMoved c nsecs s p s') :
    if lastPgInWordline c.sp p then openPages c s' = 0 ∧ openPages c s + 1 = c.sp.pgsPerOneshotpg
    else openPages c s' = openPages c s + 1 := by
  have hlt := h.pg_lt
  have hle : c.sp.pgsPerBlk ≤ 2 ^ 16 := c.geo.pgs_le
  have hpage : p.pg.toNat = s.wp.pg := by
    rw [h.page, WritePointer.page]
    exact Nat.mod_eq_of_lt (hlt.trans_le hle)
  have ho : s.wp.pg % c.sp.pgsPerOneshotpg < c.sp.pgsPerOneshotpg := Nat.mod_lt _ c.geo.oneshotpg_pos
  have hnext := h.pg_mod
  rw [← Nat.mod_add_mod] at hnext
  unfold lastPgInWordline WaitGc.openPages
  rw [hpage]
  split_ifs with hlast
  · have hlast' : s.wp.pg % c.sp.pgsPerOneshotpg + 1 = c.sp.pgsPerOneshotpg := by
      rw [beq_iff_eq] at hlast
      omega
    rw [hlast', Nat.mod_self] at hnext
    exact ⟨hnext, hlast'⟩
  · rw [beq_iff_eq] at hlast
    rw [hnext, Nat.mod_eq_of_lt]
    omega

/-- The write pointer of the user in a step. -/
theorem step_wp (h : (device c).step d e = .ok d') (part : ℕ) :
    (d'.dev.ftls part).wp = (d.dev.ftls part).wp ∨
      ∃ job, e = .resume ∧ d.job = some job ∧ job.refill = false ∧ job.lpn ≤ job.endLpn ∧
        job.lpn % c.nrParts = part := by
  have hmove : PartMove c d part e _ := step_partMove h
  generalize d'.dev.ftls part = s' at hmove
  cases hmove with
  | stays => exact .inl rfl
  | discards _ _ hwp => exact .inl hwp
  | writes hjob hr hl hpart hw => exact .inr ⟨_, rfl, hjob, hr, hl, hpart⟩
  | checks hjob hr hpart hc =>
    refine .inl ?_
    rw [checkAndRefill_eq] at hc
    split_ifs at hc
    · obtain ⟨r, hr, heq⟩ := exists_ok_of_map hc
      cases heq
      rcases ((doGc_result _ _ true).of_ok hr).collected_of with hs | ⟨v, s₁, -, ⟨-, hsel⟩, hcol⟩
      · change r.2.1.wp = _
        rw [hs]
      · exact hcol.wp.trans (by rw [hsel.frame])
    · cases hc
      rfl
    · cases hc
      rfl

theorem convWritePage_buffer {d d' : Dev} {job job' : WriteJob} (hr : job.refill = false)
    (hl : job.lpn ≤ job.endLpn) (h : convWritePage c d job = .ok (d', job')) :
    Device.bufferUse c ⟨d', some job'⟩ = Device.bufferUse c ⟨d, some job⟩ ∧ d'.wbuf = d.wbuf := by
  obtain ⟨⟨p, s'⟩, hw, h⟩ := bind_eq_ok h
  have hmoved := (convWriteFtl_yields _ _ _).of_ok hw
  have hopen := hmoved.openPages
  dsimp only at h hopen
  obtain ⟨w, hcons⟩ : ∃ w, consumeWriteCredit s' = { s' with wfc := w } := ⟨_, rfl⟩
  rw [hcons] at h
  have hsum := setFtl_sum d (Nat.mod_lt job.lpn c.nrParts_pos) { s' with wfc := w } (openPages c)
  change _ = _ + openPages c s' at hsum
  have hleft (h₁ : job'.lpn = job.lpn) (h₂ : job'.endLpn = job.endLpn) (h₃ : job'.refill = true) :
      job.pagesLeft = job'.pagesLeft + 1 := by
    unfold WriteJob.pagesLeft
    rw [h₁, h₂, hr, h₃, if_neg Bool.false_ne_true, if_pos rfl]
    omega
  generalize hS : (d.setFtl (job.lpn % c.nrParts) { s' with wfc := w }).sum c (openPages c) = S' at hsum
  split_ifs at h hopen with hlast
  · obtain ⟨hd', hjob'⟩ := Prod.mk.inj (Except.ok.inj h)
    rw [← hjob'] at hleft
    specialize hleft rfl rfl rfl
    rw [hjob'] at hleft
    subst hd'
    refine ⟨?_, rfl⟩
    change d.wbuf.remaining + scheduled (d.pending ++ [_]) + (Dev.sum c (d.setFtl _ _) (openPages c) +
      job'.pagesLeft) * c.sp.pgsz = d.wbuf.remaining + scheduled d.pending + (d.sum c (openPages c) +
      job.pagesLeft) * c.sp.pgsz
    -- the pages of the wordline pay for it
    have hpages : d.sum c (openPages c) + job.pagesLeft = S' + job'.pagesLeft + c.sp.pgsPerOneshotpg := by
      omega
    rw [hS, hpages, scheduled_concat, Nat.add_mul _ c.sp.pgsPerOneshotpg]
    dsimp only
    omega
  · obtain ⟨hd', hjob'⟩ := Prod.mk.inj (Except.ok.inj h)
    rw [← hjob'] at hleft
    specialize hleft rfl rfl rfl
    rw [hjob'] at hleft
    subst hd'
    refine ⟨?_, rfl⟩
    change d.wbuf.remaining + scheduled d.pending + (Dev.sum c (d.setFtl _ _) (openPages c) +
      job'.pagesLeft) * c.sp.pgsz = d.wbuf.remaining + scheduled d.pending + (d.sum c (openPages c) +
      job.pagesLeft) * c.sp.pgsz
    have hpages : d.sum c (openPages c) + job.pagesLeft = S' + job'.pagesLeft := by omega
    rw [hS, hpages]

/-! ## Steps -/

/-- The write brings the bytes of each page it goes over. -/
def RwCommand.CoversPages (c : Cfg) (rw : RwCommand) : Prop :=
  (endLpn c.sp rw.slba rw.nrLba + 1 - startLpn c.sp rw.slba) * c.sp.pgsz ≤ rw.bytes

/-- The command the dispatcher takes in the step is no write of a part of a page. -/
def PagesCovered (c : Cfg) (d : Device) (e : Event) : Prop :=
  ∀ req ∈ d.taken e, ∀ rw, req.cmd = .write rw → rw.Accepted c d.dev → rw.CoversPages c

theorem convRead_buffer (d : Dev) (rw : RwCommand) (n : ℕ) :
    (convRead c d rw n).2.wbuf = d.wbuf ∧ (convRead c d rw n).2.pending = d.pending := by
  unfold convRead
  dsimp only
  by_cases h : c.sp.ttPgs ≤ endLpn c.sp rw.slba rw.nrLba / c.nrParts
  · rw [if_pos h]
    exact ⟨rfl, rfl⟩
  · rw [if_neg h]
    exact ⟨rfl, rfl⟩

theorem convDiscard_buffer (d : Dev) (dsm : DsmCommand) (n : ℕ) :
    Yields (fun r => r.2.wbuf = d.wbuf ∧ r.2.pending = d.pending) (convDiscard c d dsm n) := by
  unfold convDiscard
  split_ifs
  · exact ⟨rfl, rfl⟩
  dsimp only
  cases dsm.dsmRanges with
  | none => exact ⟨rfl, rfl⟩
  | some ranges =>
    refine Sat.bind (sat_foldlM (fun _ (d' : Dev) => d'.wbuf = d.wbuf ∧ d'.pending = d.pending)
      _ ?_ ⟨rfl, rfl⟩) fun d' h => h
    intro pre lpn post d' _ h
    exact (yields_iff.2 fun _ _ => trivial : Yields (fun _ => True) _).bind fun s' _ => h

theorem BufferInv.congr (hd : BufferInv c d) (hbuf : d'.dev.wbuf = d.dev.wbuf)
    (hops : d'.dev.pending = d.dev.pending) (hwp : ∀ part, (d'.dev.ftls part).wp = (d.dev.ftls part).wp)
    (hleft : d'.pagesLeft = d.pagesLeft) : BufferInv c d' ∧ d'.dev.wbuf.size = d.dev.wbuf.size := by
  have hsum : d'.dev.sum c (openPages c) = d.dev.sum c (openPages c) := by
    unfold Dev.sum openPages
    simp only [hwp]
  unfold BufferInv Device.bufferUse at hd ⊢
  rw [hbuf, hops, hsum, hleft]
  exact ⟨hd, rfl⟩

theorem dispatch_buffer {req : NvmevRequest} (hd : BufferInv c d) (hC : PagesCovered c d (.dispatch req))
    (h : dispatch c d req = .ok d') : BufferInv c d' ∧ d'.dev.wbuf.size = d.dev.wbuf.size := by
  have hwp (part : ℕ) : (d'.dev.ftls part).wp = (d.dev.ftls part).wp := by
    rcases step_wp (c := c) (e := .dispatch req) h part with hwp | ⟨job, he, -⟩
    · exact hwp
    · cases he
  unfold dispatch at h
  cases hjob : d.job with
  | some job =>
    rw [hjob] at h
    cases h
    exact hd.congr rfl rfl hwp rfl
  | none =>
    rw [hjob] at h
    dsimp only at h
    have hleft : d.pagesLeft = 0 := by rw [Device.pagesLeft, hjob]; rfl
    replace hC := hC req (Device.taken_dispatch hjob)
    cases hcmd : req.cmd with
    | write rw =>
      rw [hcmd] at h
      obtain ⟨⟨job, dev⟩, hr, rfl⟩ := exists_ok_of_map h
      have hstarted := (convWriteStart_started _ _ _).of_ok hr
      cases hstarted with
      | refused => exact hd.congr rfl rfl hwp hleft.symm
      | started hacc =>
        have hpages : _ ≤ rw.bytes := hC rw hcmd hacc
        have hroom := hacc.2
        refine ⟨?_, rfl⟩
        unfold BufferInv Device.bufferUse at hd ⊢
        rw [hleft] at hd
        change d.dev.wbuf.remaining - rw.bytes + scheduled d.dev.pending + (d.dev.sum c (openPages c) +
          (endLpn c.sp rw.slba rw.nrLba + 1 - startLpn c.sp rw.slba)) * c.sp.pgsz ≤ d.dev.wbuf.size
        rw [Nat.add_mul]
        rw [Nat.add_zero] at hd
        omega
    | read rw =>
      rw [hcmd] at h
      cases h
      obtain ⟨hbuf, hops⟩ := convRead_buffer (c := c) d.dev rw req.nsecsStart.toNat
      exact hd.congr hbuf hops hwp hleft.symm
    | flush =>
      rw [hcmd] at h
      cases h
      exact hd.congr rfl rfl hwp hleft.symm
    | dsm dsm =>
      rw [hcmd] at h
      obtain ⟨r, hr, rfl⟩ := exists_ok_of_map h
      obtain ⟨hbuf, hops⟩ := (convDiscard_buffer _ _ _).of_ok hr
      exact hd.congr hbuf hops hwp hleft.symm
    | other opcode =>
      rw [hcmd] at h
      cases h
      exact hd.congr rfl rfl hwp rfl

theorem resume_buffer (hd : BufferInv c d) (h : resume c d = .ok d') :
    BufferInv c d' ∧ d'.dev.wbuf.size = d.dev.wbuf.size := by
  have hmove := step_wp (c := c) (e := .resume) h
  unfold resume at h
  cases hjob : d.job with
  | none =>
    rw [hjob] at h
    cases h
    exact ⟨hd, rfl⟩
  | some job =>
    rw [hjob] at h
    dsimp only at h
    by_cases hr : job.refill = true
    · rw [if_pos hr] at h
      obtain ⟨r, hres, rfl⟩ := exists_ok_of_map h
      obtain ⟨⟨s', t⟩, -, hres⟩ := bind_eq_ok hres
      cases hres
      refine hd.congr rfl rfl (fun part => ?_) ?_
      · rcases hmove part with hwp | ⟨job', -, hj, hr', -⟩
        · exact hwp
        · rw [hjob] at hj
          cases hj
          rw [hr] at hr'
          cases hr'
      · simp [Device.pagesLeft, hjob, WriteJob.pagesLeft, hr]
    rw [if_neg hr] at h
    by_cases hl : job.lpn ≤ job.endLpn
    · rw [if_pos hl] at h
      obtain ⟨⟨dev, job'⟩, hres, rfl⟩ := exists_ok_of_map h
      obtain ⟨huse, hbuf⟩ := convWritePage_buffer (by simpa using hr) hl hres
      have hd₀ : d = ⟨d.dev, some job⟩ := by rw [← hjob]
      unfold BufferInv
      rw [hd₀] at hd
      dsimp only
      rw [huse, hbuf]
      exact ⟨hd, rfl⟩
    · rw [if_neg hl] at h
      cases h
      refine hd.congr rfl rfl (fun _ => rfl) ?_
      simp [Device.pagesLeft, hjob, WriteJob.pagesLeft, hr]
      omega

/-- **One step of the device**, with a command that covers its pages. -/
theorem step_buffer (hd : BufferInv c d) (hC : PagesCovered c d e) (h : (device c).step d e = .ok d') :
    BufferInv c d' ∧ d'.dev.wbuf.size = d.dev.wbuf.size := by
  cases e with
  | dispatch req => exact dispatch_buffer hd hC h
  | resume => exact resume_buffer hd h
  | fire i =>
    change Except.ok (fire d i) = .ok d' at h
    cases h
    unfold fire
    cases hop : d.dev.pending[i]? with
    | none => exact ⟨hd, rfl⟩
    | some op =>
      refine ⟨?_, rfl⟩
      have hsched := scheduled_eraseIdx hop
      have hle : u64 (d.dev.wbuf.remaining + op.buffsToRelease) ≤ d.dev.wbuf.remaining + op.buffsToRelease :=
        Nat.mod_le _ _
      unfold BufferInv Device.bufferUse at hd ⊢
      change u64 (d.dev.wbuf.remaining + op.buffsToRelease) + scheduled (d.dev.pending.eraseIdx i) +
        (d.dev.sum c (openPages c) + d.pagesLeft) * c.sp.pgsz ≤ d.dev.wbuf.size
      omega

/-! ## Runs -/

theorem initial_bufferInv {junk : ℕ → ℕ → Slot} {clock : ℕ → ℕ} {dev : Dev}
    (hinit : convInitNamespace c junk clock = .ok dev) :
    BufferInv c ⟨dev, none⟩ ∧ dev.wbuf.size = c.sp.writeBufferSize := by
  have hopen (part : ℕ) (junk : ℕ → Slot) :
      Yields (fun s => openPages c s = 0) (convInitFtl c part junk) := by
    refine (convInitFtl_yields c part junk).mono (fun _ h => h) ?_
    rintro s ⟨rfl, -⟩
    exact Nat.zero_mod _
  have hdev : DevInv c (fun _ s => openPages c s = 0) ⟨dev, none⟩ := devInv_init hopen hinit
  have hsum : dev.sum c (openPages c) = 0 := by
    refine List.sum_eq_zero fun n hn => ?_
    obtain ⟨part, hpart, rfl⟩ := List.mem_map.1 hn
    exact hdev.ftl part (List.mem_range.1 hpart)
  obtain ⟨first, -, hinit⟩ := bind_eq_ok hinit
  obtain ⟨ftls, -, hinit⟩ := bind_eq_ok hinit
  cases hinit
  refine ⟨?_, rfl⟩
  unfold BufferInv Device.bufferUse
  dsimp only
  rw [hsum]
  simp [scheduled, bufferInit, Device.pagesLeft]

/-- **The write buffer never holds more than its size**, in a run of writes that cover their
    pages, and will not when all scheduled operations have given back their space. -/
theorem write_buffer_conserved {junk : ℕ → ℕ → Slot} {clock : ℕ → ℕ} {dev : Dev}
    (hinit : convInitNamespace c junk clock = .ok dev)
    (hC : (device c).Along (PagesCovered c) ⟨dev, none⟩ es) (hrun : (device c).run ⟨dev, none⟩ es = .ok d) :
    d.dev.wbuf.size = c.sp.writeBufferSize ∧
      d.dev.wbuf.remaining + scheduled d.dev.pending ≤ d.dev.wbuf.size := by
  obtain ⟨hinv₀, hsize₀⟩ := initial_bufferInv hinit
  have hsat : Sat (fun _ => True) (fun d => BufferInv c d ∧ d.dev.wbuf.size = c.sp.writeBufferSize)
      ((device c).run ⟨dev, none⟩ es) := by
    refine Machine.run_sat ?_ ⟨hinv₀, hsize₀⟩ hC
    rintro d e ⟨hd, hsize⟩ hC
    cases hs : (device c).step d e with
    | error f => trivial
    | ok d' =>
      obtain ⟨hd', hsize'⟩ := step_buffer hd hC hs
      exact ⟨hd', hsize'.trans hsize⟩
  obtain ⟨hd, hsize⟩ := hsat.of_ok hrun
  exact ⟨hsize, (Nat.le_add_right _ _).trans hd⟩

/-! ## Writes of a sector -/

/-- A sector is written twice, which completes a wordline, and its space is given back. -/
def sectorRun : List Event :=
  [.dispatch ⟨.write ⟨0, 0, 0⟩, 0⟩, .resume, .resume, .resume,
    .dispatch ⟨.write ⟨0, 0, 0⟩, 0⟩, .resume, .fire 0]

theorem write_buffer_overfull : ∃ dev d,
    convInitNamespace duoGreedyCfg (fun _ _ => .null) (fun _ => 0) = .ok dev ∧
      (device duoGreedyCfg).run ⟨dev, none⟩ sectorRun = .ok d ∧
      ¬ d.dev.wbuf.remaining ≤ d.dev.wbuf.size := by
  have hover : (convInitNamespace duoGreedyCfg (fun _ _ => .null) (fun _ => 0) >>= fun dev =>
      ((device duoGreedyCfg).run ⟨dev, none⟩ sectorRun).map fun d =>
        decide (d.dev.wbuf.remaining ≤ d.dev.wbuf.size)) = .ok false := by
    decide +kernel
  obtain ⟨dev, hinit, hover⟩ := bind_eq_ok hover
  obtain ⟨d, hrun, hover⟩ := exists_ok_of_map hover
  exact ⟨dev, d, hinit, hrun, of_decide_eq_false hover⟩

instance (c : Cfg) (rw : RwCommand) : Decidable (rw.CoversPages c) := inferInstanceAs (Decidable (_ ≤ _))

/-- On a given command the condition can be checked. -/
def coversPages (c : Cfg) (d : Dev) : NvmevRequest → Bool
  | ⟨.write rw, _⟩ => decide (rw.Accepted c d → rw.CoversPages c)
  | _ => true

theorem coversPages_iff (d : Dev) (req : NvmevRequest) : coversPages c d req = true ↔
    ∀ rw, req.cmd = .write rw → rw.Accepted c d → rw.CoversPages c := by
  obtain ⟨cmd, n⟩ := req
  cases cmd <;> simp [coversPages, ← imp_iff_not_or]

instance (c : Cfg) (d : Device) (e : Event) : Decidable (PagesCovered c d e) :=
  decidable_of_iff (∀ req ∈ d.taken e, coversPages c d.dev req = true)
    (forall₂_congr fun req _ => coversPages_iff d.dev req)

/-- Whole pages keep the balance. -/
theorem write_buffer_conserved_rewriteRun : ∃ dev d,
    convInitNamespace duoGreedyCfg (fun _ _ => .null) (fun _ => 0) = .ok dev ∧
      (device duoGreedyCfg).run ⟨dev, none⟩ (rewriteRun ++ [.fire 0]) = .ok d ∧
      d.dev.wbuf.size = 1572864 ∧ d.dev.wbuf.remaining + scheduled d.dev.pending ≤ d.dev.wbuf.size := by
  have hcond : (convInitNamespace duoGreedyCfg (fun _ _ => .null) (fun _ => 0) >>= fun dev =>
      ((device duoGreedyCfg).run ⟨dev, none⟩ (rewriteRun ++ [.fire 0])).map fun _ =>
        decide ((device duoGreedyCfg).Along (PagesCovered duoGreedyCfg) ⟨dev, none⟩
          (rewriteRun ++ [.fire 0]))) = .ok true := by
    decide +kernel
  obtain ⟨dev, hinit, hcond⟩ := bind_eq_ok hcond
  obtain ⟨d, hrun, hcond⟩ := exists_ok_of_map hcond
  exact ⟨dev, d, hinit, hrun, write_buffer_conserved hinit (of_decide_eq_true hcond) hrun⟩

end WaitGc

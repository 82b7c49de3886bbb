/-
  WAITGC verification — runs of writes of one page.

  `pageWrite lpn` is the write of one page by itself, and the release of its buffer space
  where it completes a wordline.  Between two of them the device is at rest (`Rested`), and
  its FTL changes by `writePage` (`run_pageWrite`).
-/
import WaitGc.Proof.Stands
import WaitGc.Theorems.WriteBuffer

namespace WaitGc

open Outcome

variable {c : Cfg} {s s' : ConvFtl} {d : Device} {dev dev' : Dev} {job job' : WriteJob} {E : Fault → Prop}
  {Q : ConvFtl → Prop} {lpn : ℕ}

/-- The blocks of the page `lpn`. -/
def pageCommand (lpn : ℕ) : RwCommand := ⟨.ofNat 64 (lpn * 8), 7, 0⟩

/-- The page `lpn` is written. -/
def pageWrite (lpn : ℕ) : List Event :=
  [.dispatch ⟨.write (pageCommand lpn), 0⟩, .resume, .resume, .resume, .fire 0]

/-- Nothing is in progress, and the buffer is short of the open wordline only. -/
structure Rested (d : Device) : Prop where
  job : d.job = none
  pending : d.dev.pending = []
  size : d.dev.wbuf.size = 1572864
  room : d.dev.wbuf.remaining + openPages greedyCfg (d.dev.ftls 0) * 4096 = 1572864

theorem openPages_lt (s : ConvFtl) : openPages greedyCfg s < 12 := Nat.mod_lt _ (Nat.succ_pos 11)

/-- What the start of `conv_write` leaves. -/
structure StartedWrite (dev : Dev) (rw : RwCommand) (dev' : Dev) : Prop where
  ftls : dev'.ftls = dev.ftls
  pending : dev'.pending = dev.pending
  size : dev'.wbuf.size = dev.wbuf.size
  remaining : dev'.wbuf.remaining = dev.wbuf.remaining - rw.bytes

theorem convWriteStart_accepted {rw : RwCommand} (n : ℕ) (h : rw.Accepted c dev)
    (hsize : rw.bytes ≤ dev.wbuf.size) : ∃ dev', convWriteStart c dev rw n = .ok (some (rw.job c dev n), dev') ∧
      StartedWrite dev rw dev' := by
  have hbytes := rw.bytes_eq
  have hle := rw.nrLba_le
  have hroom := h.2
  unfold convWriteStart bufferAllocate
  dsimp only
  rw [if_neg (not_le.2 h.1), nvmevAssert_pos hsize, if_neg (not_lt.2 hroom)]
  simp only [ok_bind, pure_bind]
  rw [if_neg (by rw [u32]; omega)]
  exact ⟨_, rfl, rfl, rfl, rfl, rfl⟩

theorem pageCommand_nrLba (lpn : ℕ) : (pageCommand lpn).nrLba = 8 := rfl

theorem pageCommand_bytes (lpn : ℕ) : (pageCommand lpn).bytes = 4096 := by
  rw [RwCommand.bytes_eq, pageCommand_nrLba]

theorem pageCommand_lpn (hlpn : lpn < 2 ^ 48) : startLpn greedyCfg.sp (pageCommand lpn).slba = lpn ∧
    endLpn greedyCfg.sp (pageCommand lpn).slba 8 = lpn := by
  have hslba : (pageCommand lpn).slba.toNat = lpn * 8 := by
    change lpn * 8 % 2 ^ 64 = lpn * 8
    omega
  unfold startLpn endLpn u64
  rw [hslba]
  change lpn * 8 / 8 = lpn ∧ (lpn * 8 + 8 - 1) % 2 ^ 64 / 8 = lpn
  omega

/-! ## The moves of the dispatcher -/

theorem step_page (hr : job.refill = false) (hl : job.lpn ≤ job.endLpn) :
    (device c).step ⟨dev, some job⟩ .resume = (convWritePage c dev job).map fun r => ⟨r.1, some r.2⟩ := by
  change resume c ⟨dev, some job⟩ = _
  unfold resume
  dsimp only
  rw [hr, if_neg Bool.false_ne_true, if_pos hl]

theorem step_refill (hr : job.refill = true) :
    (device c).step ⟨dev, some job⟩ .resume = (convWriteRefill c dev job).map fun r => ⟨r.1, some r.2⟩ := by
  change resume c ⟨dev, some job⟩ = _
  unfold resume
  dsimp only
  rw [if_pos hr]

theorem step_end (hr : job.refill = false) (hl : job.endLpn < job.lpn) :
    (device c).step ⟨dev, some job⟩ .resume = .ok ⟨dev, none⟩ := by
  change resume c ⟨dev, some job⟩ = _
  unfold resume
  dsimp only
  rw [hr, if_neg Bool.false_ne_true, if_neg (not_le.2 hl)]

theorem checkAndRefill_wp (c : Cfg) (s : ConvFtl) (t : Timing) :
    Yields (fun r => r.1.wp = s.wp) (checkAndRefillWriteCredit c s t) := by
  refine yields_iff.2 fun r hc => ?_
  rw [checkAndRefill_eq] at hc
  split_ifs at hc
  · obtain ⟨x, hx, heq⟩ := exists_ok_of_map hc
    cases heq
    rcases ((doGc_result _ _ true).of_ok hx).collected_of with hs | ⟨v, s₁, -, ⟨-, hsel⟩, hcol⟩
    · change x.2.1.wp = _
      rw [hs]
    · exact hcol.wp.trans (by rw [hsel.frame])
  · cases hc
    rfl
  · cases hc
    rfl

/-- What `conv_write` does to the device with a page, up to the check of the credits. -/
structure WrittenPage (s : ConvFtl) (dev : Dev) (job : WriteJob) (dev' : Dev) (job' : WriteJob) : Prop where
  ftl : dev'.ftls 0 = consumeWriteCredit s
  wbuf : dev'.wbuf = dev.wbuf
  pending : dev'.pending = dev.pending ∨ ∃ op, dev'.pending = dev.pending ++ [op]
  refill : job'.refill = true
  lpn : job'.lpn = job.lpn
  endLpn : job'.endLpn = job.endLpn

theorem convWritePage_written (dev : Dev) (job : WriteJob) :
    Rel (fun r x => WrittenPage r.2 dev job x.1 x.2)
      (convWriteFtl greedyCfg (dev.ftls 0) job.lpn job.nsecsLatest) (convWritePage greedyCfg dev job) := by
  have hpart : job.lpn % greedyCfg.nrParts = 0 := Nat.mod_one _
  have hdiv : job.lpn / greedyCfg.nrParts = job.lpn := Nat.div_one _
  unfold convWritePage
  dsimp only
  rw [hpart, hdiv, ← bind_pure (convWriteFtl greedyCfg (dev.ftls 0) job.lpn job.nsecsLatest), bind_assoc]
  refine Rel.bind_same _ ?_
  rintro ⟨p, s⟩
  have hftl : (dev.setFtl 0 (consumeWriteCredit s)).ftls 0 = consumeWriteCredit s := by
    rw [setFtl_ftls, if_pos rfl]
  rw [pure_bind]
  dsimp only
  split_ifs
  · exact ⟨hftl, rfl, .inr ⟨_, rfl⟩, rfl, rfl, rfl⟩
  · exact ⟨hftl, rfl, .inl rfl, rfl, rfl, rfl⟩

/-- The end of the command: the credits are checked, and the space is given back. -/
theorem run_pageRefill (hr : job.refill = true) (hl : job.lpn = job.endLpn)
    (hpage : Sat E (fun r => Q r.1) (checkAndRefillWriteCredit greedyCfg (dev.ftls 0) dev.timing))
    (hops : dev.pending = [] ∨ ∃ op, dev.pending = [op]) (hsize : dev.wbuf.size = 1572864)
    (hroom : dev.wbuf.remaining + scheduled dev.pending + openPages greedyCfg (dev.ftls 0) * 4096 = 1572864) :
    Sat E (fun d' => Rested d' ∧ Q (d'.dev.ftls 0))
      ((device greedyCfg).run ⟨dev, some job⟩ [.resume, .resume, .fire 0]) := by
  have hpart : job.lpn % greedyCfg.nrParts = 0 := Nat.mod_one _
  have hwp := checkAndRefill_wp greedyCfg (dev.ftls 0) dev.timing
  rw [Machine.run_cons, step_refill hr]
  unfold convWriteRefill
  dsimp only
  rw [hpart]
  cases hc : checkAndRefillWriteCredit greedyCfg (dev.ftls 0) dev.timing with
  | error f =>
    rw [hc] at hpage
    exact hpage
  | ok x =>
    rw [hc] at hpage hwp
    obtain ⟨s, t⟩ := x
    have hftl : (dev.setFtl 0 s).ftls 0 = s := by rw [setFtl_ftls, if_pos rfl]
    change Sat E _ ((device greedyCfg).run ⟨{ dev.setFtl 0 s with timing := t },
      some { job with lpn := job.lpn + 1, refill := false }⟩ [.resume, .fire 0])
    rw [Machine.run_cons, step_end rfl (by dsimp only; omega), ok_bind, Machine.run_cons]
    have hopen : openPages greedyCfg s = openPages greedyCfg (dev.ftls 0) := by
      unfold openPages
      rw [show s.wp = (dev.ftls 0).wp from hwp]
    rw [← hopen] at hroom
    change Rested (fire ⟨{ dev.setFtl 0 s with timing := t }, none⟩ 0) ∧ Q _
    rcases hops with hops | ⟨op, hops⟩
    · -- the wordline is still open
      rw [hops] at hroom
      have hfire : fire ⟨{ dev.setFtl 0 s with timing := t }, none⟩ 0 =
          ⟨{ dev.setFtl 0 s with timing := t }, none⟩ := by
        unfold fire
        dsimp only [Dev.setFtl]
        rw [hops]
        rfl
      rw [hfire]
      refine ⟨⟨rfl, hops, hsize, ?_⟩, ?_⟩
      · change dev.wbuf.remaining + openPages greedyCfg ((dev.setFtl 0 s).ftls 0) * 4096 = _
        rw [hftl]
        exact hroom
      · change Q ((dev.setFtl 0 s).ftls 0)
        rw [hftl]
        exact hpage
    · rw [hops] at hroom
      have hsched : scheduled [op] = op.buffsToRelease := Nat.add_zero _
      have hfire : fire ⟨{ dev.setFtl 0 s with timing := t }, none⟩ 0 = ⟨{ dev.setFtl 0 s with
          timing := t, wbuf := bufferRelease dev.wbuf op.buffsToRelease, pending := [] }, none⟩ := by
        unfold fire
        dsimp only [Dev.setFtl]
        rw [hops]
        rfl
      rw [hfire]
      refine ⟨⟨rfl, rfl, hsize, ?_⟩, ?_⟩
      · change u64 (dev.wbuf.remaining + op.buffsToRelease) +
          openPages greedyCfg ((dev.setFtl 0 s).ftls 0) * 4096 = _
        rw [hftl, u64, Nat.mod_eq_of_lt (by omega)]
        omega
      · change Q ((dev.setFtl 0 s).ftls 0)
        rw [hftl]
        exact hpage

/-- The write of a page is taken. -/
theorem Rested.started (hd : Rested d) (hlpn : lpn < 6144) : ∃ dev₁ n fua,
    StartedWrite d.dev (pageCommand lpn) dev₁ ∧ dev₁.wbuf.remaining = d.dev.wbuf.remaining - 4096 ∧
      (device greedyCfg).step d (.dispatch ⟨.write (pageCommand lpn), 0⟩) =
        .ok ⟨dev₁, some ⟨lpn, lpn, n, n, fua, false⟩⟩ := by
  obtain ⟨dev, job⟩ := d
  obtain ⟨hjob, hpending, hsize, hroom⟩ := hd
  dsimp only at hjob hpending hsize hroom ⊢
  subst hjob
  obtain ⟨hstart, hend⟩ := pageCommand_lpn (show lpn < 2 ^ 48 by omega)
  have hopen := openPages_lt (dev.ftls 0)
  have hacc : (pageCommand lpn).Accepted greedyCfg dev := by
    unfold RwCommand.Accepted
    rw [pageCommand_nrLba, pageCommand_bytes, hend]
    refine ⟨?_, by omega⟩
    change lpn / 1 < 6144
    omega
  obtain ⟨dev₁, hstarted, hst⟩ := convWriteStart_accepted 0 hacc (by rw [pageCommand_bytes]; omega)
  obtain ⟨n, fua, hcmd⟩ : ∃ n fua, (pageCommand lpn).job greedyCfg dev 0 = ⟨lpn, lpn, n, n, fua, false⟩ := by
    unfold RwCommand.job
    dsimp only
    rw [hstart, pageCommand_nrLba, hend]
    exact ⟨_, _, rfl⟩
  rw [hcmd] at hstarted
  have hremaining := hst.remaining
  rw [pageCommand_bytes] at hremaining
  refine ⟨dev₁, n, fua, hst, hremaining, ?_⟩
  change (convWriteStart greedyCfg dev (pageCommand lpn) 0).map _ = _
  rw [hstarted]
  rfl

/-- **A page is written**: the FTL changes by `writePage`, and the device is at rest again. -/
theorem run_pageWrite (hd : Rested d) (hlpn : lpn < 6144)
    (hpage : ∀ n t, Sat E (fun r => Q r.1) (writePage greedyCfg (d.dev.ftls 0) lpn n t)) :
    Sat E (fun d' => Rested d' ∧ Q (d'.dev.ftls 0)) ((device greedyCfg).run d (pageWrite lpn)) := by
  obtain ⟨dev, job⟩ := d
  obtain ⟨dev₁, n, fua, hst, hremaining, hstep⟩ := hd.started hlpn
  have hopen := openPages_lt (dev.ftls 0)
  obtain ⟨hjob, hpending, hsize, hroom⟩ := hd
  dsimp only at hjob hpending hsize hroom hst hremaining hpage
  subst hjob
  rw [pageWrite, Machine.run_cons, hstep, ok_bind, Machine.run_cons, step_page rfl le_rfl]
  -- the page is written
  have hwritten := convWritePage_written dev₁ ⟨lpn, lpn, n, n, fua, false⟩
  dsimp only at hwritten
  rw [hst.ftls] at hwritten
  cases hw : convWriteFtl greedyCfg (dev.ftls 0) lpn n with
  | error f =>
    have herr := hpage n dev.timing
    unfold writePage at herr
    rw [hw] at hwritten herr
    rw [hwritten.of_error]
    exact herr
  | ok r =>
    rw [hw] at hwritten
    obtain ⟨⟨dev₂, job₂⟩, hpg, hwritten⟩ := hwritten.of_ok
    have huse := (convWritePage_buffer rfl le_rfl hpg).1
    rw [hpg]
    change Sat E _ ((device greedyCfg).run ⟨dev₂, some job₂⟩ [.resume, .resume, .fire 0])
    obtain ⟨hftl, hwbuf, hops, hr, hl, he⟩ := hwritten
    dsimp only at hftl hl he
    have hchecked := hpage n dev₂.timing
    unfold writePage at hchecked
    rw [hw, ok_bind] at hchecked
    dsimp only at hchecked
    rw [← hftl] at hchecked
    have hops' : dev₂.pending = [] ∨ ∃ op, dev₂.pending = [op] := by
      rw [hst.pending, hpending] at hops
      exact hops
    refine run_pageRefill hr (hl.trans he.symm) hchecked hops' (by rw [hwbuf, hst.size, hsize]) ?_
    -- the page pays for the space it took
    have hsum (d : Dev) : d.sum greedyCfg (openPages greedyCfg) = openPages greedyCfg (d.ftls 0) := Nat.add_zero _
    have hleft : job₂.pagesLeft = 0 := by
      unfold WriteJob.pagesLeft
      rw [hr, if_pos rfl]
      omega
    have hleft₁ : WriteJob.pagesLeft ⟨lpn, lpn, n, n, fua, false⟩ = 1 := by
      unfold WriteJob.pagesLeft
      dsimp only
      rw [if_neg Bool.false_ne_true]
      omega
    have hnone : scheduled dev₁.pending = 0 := by
      rw [hst.pending, hpending]
      rfl
    unfold Device.bufferUse Device.pagesLeft at huse
    simp only [Option.map_some, Option.getD_some] at huse
    rw [hsum, hsum, hleft, hleft₁, hnone, hwbuf, hst.ftls, show greedyCfg.sp.pgsz = 4096 from rfl] at huse
    rw [hwbuf]
    omega

/-- **Pages are written** one after the other. -/
theorem run_pageWrites {I : ℕ → ConvFtl → Prop} {lpns : ℕ → ℕ} (n : ℕ) (hlpns : ∀ k < n, lpns k < 6144)
    (hpage : ∀ k < n, ∀ s m t, I k s → Sat E (fun r => I (k + 1) r.1) (writePage greedyCfg s (lpns k) m t))
    (hd : Rested d) (h₀ : I 0 (d.dev.ftls 0)) :
    Sat E (fun d' => Rested d' ∧ I n (d'.dev.ftls 0))
      ((device greedyCfg).run d ((List.range n).flatMap fun k => pageWrite (lpns k))) := by
  induction n with
  | zero => exact ⟨hd, h₀⟩
  | succ n ih =>
    rw [List.range_succ, List.flatMap_append, List.flatMap_singleton]
    refine Machine.run_append_sat (ih (fun k hk => hlpns k (by omega)) fun k hk => hpage k (by omega)) ?_
    rintro d' ⟨hd', h'⟩
    exact run_pageWrite hd' (hlpns n (by omega)) fun m t => hpage n (by omega) _ m t h'

/-! ## The collections on the way -/

/-- A check finds the FTL as the page left it, and collects only where the credits are spent. -/
theorem along_pageRefill {C : ConvFtl → Prop} (hr : job.refill = true)
    (hC : (dev.ftls 0).wfc.writeCredits = 0 → C (dev.ftls 0)) :
    (device greedyCfg).Along (GcIn greedyCfg C) ⟨dev, some job⟩ [.resume, .resume, .fire 0] := by
  refine ⟨?_, fun d₁ h₁ => ⟨?_, fun d₂ _ => ⟨fun part hgc => (nomatch hgc), fun _ _ => trivial⟩⟩⟩
  · intro part hgc
    obtain ⟨-, job', hjob, -, hpart, hdue⟩ := gcCall_eq hgc
    obtain rfl : part = 0 := hpart.symm.trans (Nat.mod_one _)
    exact hC hdue.1
  · -- the check is over
    intro part hgc
    obtain ⟨-, job', hjob, hr', -⟩ := gcCall_eq hgc
    rw [step_refill hr] at h₁
    obtain ⟨r, hr, rfl⟩ := exists_ok_of_map h₁
    obtain ⟨x, -, hr⟩ := bind_eq_ok hr
    cases hr
    cases hjob
    cases hr'

/-- **A page is written**: a collection finds the FTL as `hostWrite` leaves it. -/
theorem along_pageWrite {C : ConvFtl → Prop} (hd : Rested d) (hlpn : lpn < 6144)
    (hC : ∀ n s', hostWrite greedyCfg (d.dev.ftls 0) lpn n = .ok s' → s'.wfc.writeCredits = 0 → C s') :
    (device greedyCfg).Along (GcIn greedyCfg C) d (pageWrite lpn) := by
  obtain ⟨dev₁, n, fua, hst, -, hstep⟩ := hd.started hlpn
  refine ⟨fun part hgc => (nomatch hgc), fun d₁ h₁ => ?_⟩
  obtain rfl := Except.ok.inj (hstep.symm.trans h₁)
  refine ⟨fun part hgc => ?_, fun d₂ h₂ => ?_⟩
  · obtain ⟨-, job', hjob, hr, -⟩ := gcCall_eq hgc
    cases hjob
    cases hr
  rw [step_page rfl le_rfl] at h₂
  obtain ⟨⟨dev₂, job₂⟩, hpg, rfl⟩ := exists_ok_of_map h₂
  have hwritten := convWritePage_written dev₁ ⟨lpn, lpn, n, n, fua, false⟩
  rw [hpg, hst.ftls] at hwritten
  dsimp only at hwritten
  cases hw : convWriteFtl greedyCfg (d.dev.ftls 0) lpn n with
  | error f =>
    rw [hw] at hwritten
    exact hwritten.elim
  | ok x =>
    rw [hw] at hwritten
    refine along_pageRefill hwritten.refill (hC n _ ?_)
    rw [hwritten.ftl]
    unfold hostWrite
    rw [hw]
    rfl

/-- **Pages are written** one after the other, and the last one may do what it likes. -/
theorem along_pageWrites {C : ConvFtl → Prop} {I : ℕ → ConvFtl → Prop} {lpns : ℕ → ℕ} (n : ℕ)
    (hlpns : ∀ k ≤ n, lpns k < 6144)
    (hpage : ∀ k < n, ∀ s m t, I k s → Sat (fun _ => False) (fun r => I (k + 1) r.1)
      (writePage greedyCfg s (lpns k) m t))
    (hC : ∀ k ≤ n, ∀ s m s', I k s → hostWrite greedyCfg s (lpns k) m = .ok s' → s'.wfc.writeCredits = 0 → C s')
    (hd : Rested d) (h₀ : I 0 (d.dev.ftls 0)) :
    (device greedyCfg).Along (GcIn greedyCfg C) d
      ((List.range (n + 1)).flatMap fun k => pageWrite (lpns k)) := by
  induction n with
  | zero =>
    exact along_pageWrite hd (hlpns 0 le_rfl) fun m s' => hC 0 le_rfl _ m s' h₀
  | succ n ih =>
    have hrun := run_pageWrites (E := fun _ => False) (n + 1) (fun k hk => hlpns k hk.le)
      (fun k hk => hpage k hk) hd h₀
    obtain ⟨d', hd', hrest, hI⟩ := hrun.exists_ok fun _ => id
    rw [List.range_succ, List.flatMap_append, List.flatMap_singleton, Machine.along_append hd']
    refine ⟨ih (fun k hk => hlpns k (by omega)) (fun k hk => hpage k (by omega))
      fun k hk => hC k (by omega), ?_⟩
    exact along_pageWrite hrest (hlpns _ le_rfl) fun m s' => hC _ le_rfl _ m s' hI

theorem initial_rested {junk : ℕ → ℕ → Slot} {clock : ℕ → ℕ}
    (hinit : convInitNamespace greedyCfg junk clock = .ok dev) :
    Rested ⟨dev, none⟩ ∧ ∃ partId junk, dev.ftls 0 = .initial greedyCfg partId junk := by
  have hdev : DevInv greedyCfg (fun _ s => ∃ partId junk, s = .initial greedyCfg partId junk) ⟨dev, none⟩ :=
    devInv_init (fun partId junk => (convInitFtl_yields _ partId junk).mono (fun _ h => h) fun s h =>
      ⟨partId, junk, h.1⟩) hinit
  obtain ⟨partId, junk₀, hftl⟩ : ∃ partId junk, dev.ftls 0 = .initial greedyCfg partId junk := hdev.ftl 0 Nat.one_pos
  obtain ⟨first, -, h⟩ := bind_eq_ok hinit
  obtain ⟨ftls, -, h⟩ := bind_eq_ok h
  have hdev := Except.ok.inj h
  refine ⟨⟨rfl, ?_, ?_, ?_⟩, partId, junk₀, hftl⟩
  · rw [← hdev]
  · rw [← hdev]
    rfl
  · rw [hftl, openPages, show (ConvFtl.initial greedyCfg partId junk₀).wp.pg = 0 from rfl, Nat.zero_mod, ← hdev]
    rfl

end WaitGc

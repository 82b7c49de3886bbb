/-
  WAITGC verification — the range check of `conv_read` and `conv_write`.

  The handlers compare the last page of a command, in 64-bit arithmetic, with
  the pages of the flash; the advertised size `ns->size` is smaller, and they
  report a range out of bounds by returning `false`, which the dispatcher takes
  for a full write buffer.

  `range_checked_iff`: the range of a command is checked as an NVMe namespace
  checks it exactly when there was nothing to check.
-/
import WaitGc.Io.Copy
import WaitGc.Theorems.Address

namespace WaitGc

open Outcome

variable {c : Cfg} {d d' : Dev} {rw : RwCommand}

/-! ## What the handlers return -/

/-- The last page of the command is behind the pages of the flash. -/
def PastFlash (c : Cfg) (rw : RwCommand) : Prop := c.sp.ttPgs ≤ endLpn c.sp rw.slba rw.nrLba / c.nrParts

/-- The write buffer is short of space for the command. -/
def BufferShort (d : Dev) (rw : RwCommand) : Prop := d.wbuf.remaining < rw.bytes

theorem convRead_past {start : ℕ} (h : PastFlash c rw) : convRead c d rw start = (none, d) := if_pos h

theorem convRead_within (d : Dev) (start : ℕ) (h : ¬ PastFlash c rw) :
    ∃ target, (convRead c d rw start).1 = some ⟨.success, target⟩ := by
  unfold PastFlash at h
  unfold convRead
  dsimp only
  rw [if_neg h]
  exact ⟨_, rfl⟩

theorem convWrite_past {start : ℕ} (h : PastFlash c rw) : convWrite c d rw start = .ok (none, d) := by
  unfold PastFlash at h
  unfold convWrite convWriteStart
  dsimp only
  rw [if_pos h]
  rfl

theorem convWrite_within {start : ℕ} {r : Option NvmevResult × Dev} (h : ¬ PastFlash c rw)
    (hw : convWrite c d rw start = .ok r) :
    (r.1 = none ∧ BufferShort d rw) ∨ ∃ target, r.1 = some ⟨.success, target⟩ := by
  have hbytes := rw.bytes_eq
  have hnr := rw.nrLba_le
  have hpos := rw.nrLba_pos
  obtain ⟨⟨job, d₁⟩, hstart, hw⟩ := bind_eq_ok hw
  unfold PastFlash at h
  unfold convWriteStart at hstart
  dsimp only at hstart
  rw [if_neg h] at hstart
  obtain ⟨⟨allocated, wbuf⟩, halloc, hstart⟩ := bind_eq_ok hstart
  have hshort := bufferAllocate_short (by omega) (by omega) halloc
  by_cases hlt : allocated < rw.bytes
  · dsimp only at hstart
    rw [if_pos hlt] at hstart
    cases hstart
    cases hw
    exact .inl ⟨rfl, hshort.1 hlt⟩
  · dsimp only at hstart
    rw [if_neg hlt] at hstart
    cases hstart
    obtain ⟨⟨d₂, job₂⟩, -, hw⟩ := bind_eq_ok hw
    cases hw
    exact .inr ⟨_, rfl⟩

/-! ## The theorem -/

/-- A write, or a read. -/
def ioCommand (write : Bool) (rw : RwCommand) : NvmeCommand := if write then .write rw else .read rw

/-- The blocks of the command lie in a namespace of `size` bytes. -/
def LbaContained (size : ℕ) (rw : RwCommand) : Prop := rw.slba.toNat + rw.nrLba ≤ size / LBA_SIZE

/-- The range of a command is checked: a range that is not contained in the namespace is
    completed with an error and touches nothing, and `false` means that the write
    buffer is short of space. -/
structure RangeChecked (c : Cfg) (size : ℕ) (d : Dev) (write : Bool) (rw : RwCommand)
    (start : BitVec 64) (ret : NvmevResult) : Prop where
  rejects : ¬ LbaContained size rw →
    ∃ r d', convProcNvmeIoCmd c d ⟨ioCommand write rw, start⟩ ret = .ok (some r, d') ∧
      r.status ≠ .success ∧ d'.ftls = d.ftls ∧ d'.wbuf = d.wbuf ∧
      ∀ j, Touches rw.slba.toNat rw.bytes j → j < size
  retries : ∀ d', convProcNvmeIoCmd c d ⟨ioCommand write rw, start⟩ ret = .ok (none, d') →
    write = true ∧ BufferShort d rw

/-- Past the flash every command returns `false`, and leaves the namespace as it is. -/
theorem procIo_past (write : Bool) {start : BitVec 64} {ret : NvmevResult} (h : PastFlash c rw) :
    convProcNvmeIoCmd c d ⟨ioCommand write rw, start⟩ ret = .ok (none, d) := by
  cases write with
  | true => exact convWrite_past h
  | false => exact congrArg Except.ok (convRead_past h)

/-- No command fails. -/
theorem procIo_within {write : Bool} {start : BitVec 64} {ret : NvmevResult}
    {r : Option NvmevResult × Dev} (h : ¬ PastFlash c rw)
    (hr : convProcNvmeIoCmd c d ⟨ioCommand write rw, start⟩ ret = .ok r) :
    (r.1 = none ∧ write = true ∧ BufferShort d rw) ∨ ∃ target, r.1 = some ⟨.success, target⟩ := by
  cases write with
  | true => exact (convWrite_within h hr).imp_left fun h => ⟨h.1, rfl, h.2⟩
  | false =>
    cases hr
    exact .inr (convRead_within d _ h)

theorem procIo_checked_iff {size : ℕ} {write : Bool} {start : BitVec 64} {ret : NvmevResult} :
    RangeChecked c size d write rw start ret ↔
      LbaContained size rw ∧ (PastFlash c rw → write = true ∧ BufferShort d rw) := by
  constructor
  · intro h
    refine ⟨?_, fun hpast => h.retries d (procIo_past write hpast)⟩
    by_contra hout
    obtain ⟨r, d', hr, hst, -⟩ := h.rejects hout
    by_cases hpast : PastFlash c rw
    · rw [procIo_past write hpast] at hr
      cases hr
    · rcases procIo_within hpast hr with ⟨hnone, -⟩ | ⟨target, hsome⟩
      · cases hnone
      · cases hsome
        exact hst rfl
  · rintro ⟨hin, hpast⟩
    refine ⟨fun hout => absurd hin hout, fun d' hr => ?_⟩
    by_cases h : PastFlash c rw
    · exact hpast h
    · rcases procIo_within h hr with ⟨-, hshort⟩ | ⟨target, hsome⟩
      · exact hshort
      · cases hsome

theorem not_pastFlash {capacity : ℕ} (hparts : c.nrParts = 1) (hsecs : c.sp.secsPerPg = 8)
    (hcover : nsSize c.cp capacity ≤ c.sp.ttPgs * 4096) (hsize : c.sp.ttPgs < 2 ^ 32)
    (h : LbaContained (nsSize c.cp capacity) rw) : ¬ PastFlash c rw := by
  have hnr := rw.nrLba_pos
  unfold LbaContained at h
  unfold PastFlash endLpn
  rw [hparts, hsecs, Nat.div_one, u64]
  rw [show LBA_SIZE = 512 from rfl] at h
  omega

/-- The configurations of SAMSUNG_970PRO whose addresses are faithful. -/
theorem pro970_cover {capacity : ℕ} (h : capacity ≤ 137430564864) :
    nsSize convInitParams capacity ≤ (pro970Params (wordlines capacity)).ttPgs * 4096 ∧
      (pro970Params (wordlines capacity)).ttPgs < 2 ^ 32 := by
  obtain ⟨hcov, hle⟩ := wordlines_bounds (h.trans (by norm_num))
  have hsize : nsSize convInitParams capacity = capacity * 100 / 107 := by
    rw [nsSize, u64_of_lt (by omega)]
    rfl
  rw [hsize]
  simp only [pro970Params]
  omega

/-- **Range checking.** -/
theorem range_checked_iff (c : Cfg) (capacity : ℕ) (d : Dev) (write : Bool) (rw : RwCommand)
    (start : BitVec 64) (ret : NvmevResult) :
    (RangeChecked c (nsSize c.cp capacity) d write rw start ret ↔
      LbaContained (nsSize c.cp capacity) rw ∧ (PastFlash c rw → write = true ∧ BufferShort d rw)) ∧
    (∀ build hpos hle, c = pro970Cfg build (wordlines capacity) hpos hle → capacity ≤ 137430564864 →
      (RangeChecked c (nsSize c.cp capacity) d write rw start ret ↔
        LbaContained (nsSize c.cp capacity) rw)) := by
  refine ⟨procIo_checked_iff, ?_⟩
  rintro build hpos hle rfl hcap
  obtain ⟨hcover, hsize⟩ := pro970_cover hcap
  rw [procIo_checked_iff]
  exact and_iff_left_of_imp fun hin hpast => absurd hpast (not_pastFlash rfl rfl hcover hsize hin)

/-- A read of the first block of a namespace of 24 MiB. -/
theorem range_checked_first (d : Dev) :
    RangeChecked greedyCfg (nsSize greedyCfg.cp 25165824) d false ⟨0, 0, 0⟩ 0 ⟨.success, 0⟩ :=
  ((range_checked_iff greedyCfg 25165824 d false ⟨0, 0, 0⟩ 0 ⟨.success, 0⟩).2 _ _ _ rfl
    (by norm_num)).2 (by unfold LbaContained; decide)

/-- A read behind the last page of a new namespace returns `false` with an empty write
    buffer, and the dispatcher tries it again and again; one behind `ns->size`, but on the
    flash, succeeds. -/
theorem range_not_checked :
    ∃ dev, convInitNamespace greedyCfg (fun _ _ => .null) (fun _ => 0) = .ok dev ∧
      convProcNvmeIoCmd greedyCfg dev ⟨.read ⟨49152, 0, 0⟩, 0⟩ ⟨.success, 0⟩ = .ok (none, dev) ∧
      ¬ BufferShort dev ⟨49152, 0, 0⟩ ∧
      ¬ RangeChecked greedyCfg (nsSize greedyCfg.cp 25165824) dev false ⟨49152, 0, 0⟩ 0 ⟨.success, 0⟩ ∧
      ∃ target dev', convProcNvmeIoCmd greedyCfg dev ⟨.read ⟨49151, 0, 0⟩, 0⟩ ⟨.success, 0⟩ =
        .ok (some ⟨.success, target⟩, dev') ∧
      ¬ LbaContained (nsSize greedyCfg.cp 25165824) ⟨49151, 0, 0⟩ := by
  obtain ⟨dev, -, hinit, -⟩ := trimRun_ok
  have hpast : PastFlash greedyCfg ⟨49152, 0, 0⟩ := by unfold PastFlash; decide
  have hwithin : ¬ PastFlash greedyCfg ⟨49151, 0, 0⟩ := by unfold PastFlash; decide
  have hbuf : dev.wbuf = bufferInit greedyCfg.sp.writeBufferSize := by
    obtain ⟨first, -, hinit⟩ := bind_eq_ok hinit
    obtain ⟨ftls, -, hinit⟩ := bind_eq_ok hinit
    cases hinit
    rfl
  have hshort : ¬ BufferShort dev ⟨49152, 0, 0⟩ := by
    unfold BufferShort
    rw [hbuf]
    decide
  obtain ⟨target, hread⟩ := convRead_within dev 0 hwithin
  refine ⟨dev, hinit, congrArg Except.ok (convRead_past hpast), hshort, fun h => ?_, target,
    (convRead greedyCfg dev ⟨49151, 0, 0⟩ 0).2, ?_, by unfold LbaContained; decide⟩
  · exact hshort (h.retries dev (procIo_past false hpast)).2
  · exact congrArg Except.ok (Prod.ext hread rfl)

end WaitGc

/-
  WAITGC verification — divisions in the zone commands.

  The devices of the repository have random write areas of size zero, and a zone
  can be opened with one.  Then `lbas_per_zrwafg` divides: in a write that
  passes `zrwa_impl_end`, and in an explicit flush that passes `zrwa_end`.  Both
  ends are one below the write pointer, and wrap where it is zero.

  `no_division_by_zero_iff`: a run divides by zero exactly if one of its commands
  is such a write or such a flush, on a zone whose write pointer is zero.
-/
import WaitGc.Proof.ZoneDevices
import WaitGc.Theorems.SequentialWrites

namespace WaitGc

open Outcome Function

variable {m : ZnsConfig} {capacity : ℕ} {c : ZnsCfg} {s : ZnsFtl} {clock storage : ℕ → ℕ}
  {es : List ZnsEvent}

/-! ## The commands that divide by zero -/

/-- An explicit flush up to the block `slba` gets to the division. -/
def FlushDivides (c : ZnsCfg) (s : ZnsFtl) (slba : ℕ) : Prop :=
  let z := s.zoneDescs (lbaToZone c slba)
  z.zrwav = true ∧ z.wp = 0 ∧ slba ≤ sub64 (u64 (zoneToSlba c (lbaToZone c slba) + z.zoneCapacity)) 1

/-- A write or an append gets to the division. -/
def WriteDivides (c : ZnsCfg) (s : ZnsFtl) (rw : RwCommand) : Prop :=
  let z := s.zoneDescs (lbaToZone c rw.slba.toNat)
  z.zrwav = true ∧ z.wp = 0 ∧ z.isOpen = true ∧ lbaToByte rw.nrLba % c.writeUnitSize = 0 ∧
    checkBoundaryError c rw.slba.toNat rw.nrLba = true

/-- A management command gets to the division. -/
def ZmgmtSendCommand.Divides (c : ZnsCfg) (s : ZnsFtl) (cmd : ZmgmtSendCommand) : Prop :=
  cmd.zsa = ZSA_FLUSH_EXPL_ZRWA ∧
    if cmd.selectAll then ∃ zid < c.zp.nrZones, FlushDivides c s (zoneToSlba c zid)
    else FlushDivides c s cmd.slba.toNat

/-- The event divides by zero. -/
def ZnsEvent.Divides (c : ZnsCfg) (s : ZnsFtl) : ZnsEvent → Prop
  | .command ⟨.write rw, _, _⟩ | .command ⟨.append rw, _, _⟩ => WriteDivides c s rw
  | .command ⟨.mgmtSend cmd, _, _⟩ => cmd.Divides c s
  | _ => False

/-- What else the commands divide by is fixed when the device is initialised. -/
structure FixedDivisors (c : ZnsCfg) : Prop where
  writeUnitSize : 0 < c.writeUnitSize
  lbasPerZone : 0 < lbasPerZone c
  pgsPerZone : 0 < c.zp.zoneSize / c.sp.pgsz
  secsPerPg : 0 < c.sp.secsPerPg
  pgsz : 0 < c.sp.pgsz
  nchs : 0 < c.sp.nchs
  ttLuns : 0 < c.sp.ttLuns
  diesPerZone : 0 < c.zp.diesPerZone
  pgsPerOneshotpg : 0 < c.sp.pgsPerOneshotpg
  pgsPerFlashpg : 0 < c.sp.pgsPerFlashpg
  cellMode : 0 < c.sp.cellMode
  channel : 0 < (chmodelInit c.sp.chBandwidth).maxCredits
  pcie : 0 < (chmodelInit c.sp.pcieBandwidth).maxCredits

/-- Every command of the run divides by positive numbers only. -/
structure NoDivisionByZero (c : ZnsCfg) (s : ZnsFtl) (es : List ZnsEvent) : Prop where
  fixed : FixedDivisors c
  run : (znsMachine c).run s es ≠ .error .divideByZero

/-! ## The devices -/

theorem ZnsConfig.Inits.fixedDivisors (hm : Shipped m) (hinit : m.Inits capacity c) : FixedDivisors c := by
  have hlba : 0 < lbasPerZone c := lbasPerZone_pos c
  have hsecs := c.secsPerPg_eq
  have hpgsz := c.pgsz_eq
  obtain ⟨hnchs, hluns, -, honeshot, hflash, hcell, hch, hpcie⟩ := ssdInitParams_fixed hinit.sp
  have hpgs : 0 < c.zp.zoneSize / c.sp.pgsz :=
    Nat.div_pos (Nat.le_of_dvd c.zoneSize_pos (Nat.dvd_of_mod_eq_zero c.zoneSize_mod))
      (by rw [hpgsz]; decide)
  have hunit := hinit.writeUnitSize
  have hdies : c.zp.diesPerZone = m.diesPerZone := by rw [hinit.zp]; rfl
  refine ⟨?_, hlba, hpgs, by omega, by rw [hpgsz]; decide, ?_, ?_, ?_, ?_, ?_, ?_, ?_, ?_⟩
  · rw [hunit]; rcases hm with rfl | rfl <;> decide
  · rw [hnchs]; rcases hm with rfl | rfl <;> decide
  · rw [hluns]; rcases hm with rfl | rfl <;> decide
  · rw [hdies]; rcases hm with rfl | rfl <;> decide
  · rw [honeshot]; rcases hm with rfl | rfl <;> decide
  · rw [hflash]; rcases hm with rfl | rfl <;> decide
  · rw [hcell]; rcases hm with rfl | rfl <;> decide
  · rw [hch]; rcases hm with rfl | rfl <;> decide
  · rw [hpcie]; rcases hm with rfl | rfl <;> decide

/-! ## A write -/

/-- **A write or an append** divides by zero. -/
theorem znsWrite_divides (hz : NoZrwa c) (s : ZnsFtl) (sqid start : ℕ) (append : Bool) {rw : RwCommand}
    (helba : rw.slba.toNat ≤ sub64 (u64 (rw.slba.toNat + rw.nrLba)) 1) :
    znsWrite c s sqid start append rw = .error .divideByZero ↔ WriteDivides c s rw := by
  unfold znsWrite WriteDivides
  dsimp only
  rw [lpnToZone_lbaToLpn]
  by_cases hw : (s.zoneDescs (lbaToZone c rw.slba.toNat)).zrwav = false
  · rw [if_pos hw]
    refine iff_of_false (fun h => ?_) fun h => by simp [hw] at h
    obtain ⟨f, hf⟩ := znsWriteSeq_fault h
    cases hf
  · rw [if_neg hw]
    rcases znsWriteZrwa_faults hz s sqid start helba with ⟨hpass, hopen, h⟩ | ⟨-, hz', -, h⟩ | ⟨hnot, o, h⟩
    · exact iff_of_true h ⟨by simpa using hw, hpass.wp, hopen, hpass.aligned, hpass.boundary⟩
    · refine iff_of_false (by simp [h]) fun hd => ?_
      have hopen := (isOpen_eq _).1 hd.2.2.1
      rcases hz' with hz' | hz' <;> rw [hz'] at hopen <;> simp at hopen
    · exact iff_of_false (by simp [h]) fun hd => hnot ⟨⟨hd.2.1, hd.2.2.2.1, hd.2.2.2.2⟩, .inl hd.2.2.1⟩

/-! ## Zone management -/

/-- Without random write areas a flush divides by zero or changes nothing. -/
theorem flush_divides (hz : NoZrwa c) (s : ZnsFtl) {slba : ℕ} (hslba : slba < 2 ^ 64) :
    (FlushDivides c s slba ∧ zmgmtSendFlushExplicitZrwa c s slba = .error .divideByZero) ∨
      (¬ FlushDivides c s slba ∧ ∃ st, zmgmtSendFlushExplicitZrwa c s slba = .ok (st, s)) := by
  unfold FlushDivides zmgmtSendFlushExplicitZrwa
  dsimp only
  generalize lbaToZone c slba = zid
  generalize sub64 (u64 (zoneToSlba c zid + (s.zoneDescs zid).zoneCapacity)) 1 = stop
  by_cases hw : (s.zoneDescs zid).zrwav = false
  · rw [if_pos hw]
    exact .inr ⟨fun h => by simp [hw] at h, _, rfl⟩
  rw [if_neg hw, hz.lbasPerZrwa, hz.lbasPerZrwafg]
  by_cases hin : ¬ ((s.zoneDescs zid).wp ≤ slba ∧
      slba ≤ min (sub64 (u64 ((s.zoneDescs zid).wp + 0)) 1) stop)
  · rw [if_pos hin]
    refine .inr ⟨fun ⟨_, hwp, hle⟩ => hin ?_, _, rfl⟩
    rw [hwp]
    exact ⟨Nat.zero_le _, Nat.le_min.2 ⟨by unfold sub64 u64; omega, hle⟩⟩
  · rw [if_neg hin]
    rw [not_not, Nat.le_min] at hin
    have hwp : (s.zoneDescs zid).wp = 0 := by
      unfold sub64 u64 at hin
      omega
    exact .inl ⟨⟨by simpa using hw, hwp, hin.2.2⟩, rfl⟩

/-- The loop over all zones stops at the first flush that divides by zero. -/
theorem flushAll_divides (hz : NoZrwa c) (s : ZnsFtl) (option : Bool) : ∀ l : List ℕ,
    l.foldlM (fun s zid => (zmgmtSend c s (zoneToSlba c zid) ZSA_FLUSH_EXPL_ZRWA option).map Prod.snd) s =
        .error .divideByZero ↔ ∃ zid ∈ l, FlushDivides c s (zoneToSlba c zid)
  | [] => by simp [pure, Except.pure]
  | zid :: l => by
    have hslba : zoneToSlba c zid < 2 ^ 64 := (Nat.mod_lt _ (by decide)).trans (by decide)
    rw [List.foldlM_cons]
    simp only [List.mem_cons, exists_eq_or_imp]
    show ((zmgmtSendFlushExplicitZrwa c s (zoneToSlba c zid)).map Prod.snd >>= _) = _ ↔ _
    rcases flush_divides hz s hslba with ⟨hdiv, h⟩ | ⟨hnot, st, h⟩
    · rw [h]
      exact iff_of_true rfl (.inl hdiv)
    · rw [h, or_iff_right hnot]
      exact flushAll_divides hz s option l

theorem zmgmtSend_ok (s : ZnsFtl) (slba : ℕ) {action : BitVec 8} (option : Bool)
    (ha : action ≠ ZSA_FLUSH_EXPL_ZRWA) : ∃ r, zmgmtSend c s slba action option = .ok r := by
  unfold zmgmtSend
  dsimp only
  split_ifs
  all_goals exact ⟨_, rfl⟩

/-- **A management command** divides by zero. -/
theorem znsZmgmtSend_divides (hz : NoZrwa c) (s : ZnsFtl) (cmd : ZmgmtSendCommand) :
    znsZmgmtSend c s cmd = .error .divideByZero ↔ cmd.Divides c s := by
  unfold znsZmgmtSend ZmgmtSendCommand.Divides
  by_cases ha : cmd.zsa = ZSA_FLUSH_EXPL_ZRWA
  · rw [and_iff_right ha, ha]
    split_ifs with hall
    · have hloop := flushAll_divides hz s cmd.zsaso (List.range c.zp.nrZones)
      simp only [List.mem_range] at hloop
      rw [← hloop]
      show Except.map _ (zmgmtSendAll c s ZSA_FLUSH_EXPL_ZRWA cmd.zsaso) = _ ↔
        zmgmtSendAll c s ZSA_FLUSH_EXPL_ZRWA cmd.zsaso = _
      cases zmgmtSendAll c s ZSA_FLUSH_EXPL_ZRWA cmd.zsaso <;> simp [Except.map]
    · show zmgmtSendFlushExplicitZrwa c s cmd.slba.toNat = _ ↔ _
      rcases flush_divides hz s cmd.slba.isLt with ⟨hdiv, h⟩ | ⟨hnot, st, h⟩
      · exact iff_of_true h hdiv
      · exact iff_of_false (by simp [h]) hnot
  · refine iff_of_false ?_ fun h => ha h.1
    split_ifs with hall
    · have hloop : Sat (fun _ => False) (fun _ => True) (zmgmtSendAll c s cmd.zsa cmd.zsaso) := by
        refine sat_foldlM (fun _ _ => True) _ ?_ trivial
        intro pre zid post s₁ _ _
        obtain ⟨r, hr⟩ := zmgmtSend_ok (c := c) s₁ (zoneToSlba c zid) cmd.zsaso ha
        rw [hr]
        trivial
      obtain ⟨s₁, hs₁, -⟩ := hloop.exists_ok fun _ => id
      simp [hs₁, Except.map]
    · obtain ⟨r, hr⟩ := zmgmtSend_ok (c := c) s cmd.slba.toNat cmd.zsaso ha
      simp [hr]

/-! ## Runs -/

/-- **A step divides by zero** exactly if its event is such a command. -/
theorem step_divides (hm : Shipped m) (hinit : m.Inits capacity c) (s : ZnsFtl) {e : ZnsEvent}
    (haddr : e.Addressed c) : (znsMachine c).step s e = .error .divideByZero ↔ e.Divides c s := by
  have hz := hinit.noZrwa hm
  have hmap (m : Except ZnsFault ZnsOutcome) :
      m.map ZnsOutcome.ftl = .error .divideByZero ↔ m = .error .divideByZero := by
    cases m <;> simp [Except.map]
  cases e with
  | fire i => exact iff_of_false (by simp [znsMachine]) id
  | command req =>
    obtain ⟨cmd, sqId, nsecsStart⟩ := req
    refine (hmap _).trans ?_
    cases cmd with
    | write rw => exact znsWrite_divides hz s _ _ _ (elba_ge hm hinit haddr)
    | append rw => exact znsWrite_divides hz s _ _ _ (elba_ge hm hinit haddr)
    | mgmtSend cmd =>
      show (znsZmgmtSend c s cmd >>= _) = _ ↔ cmd.Divides c s
      rw [← znsZmgmtSend_divides hz s cmd]
      cases znsZmgmtSend c s cmd with
      | ok r => exact iff_of_false (by simp) (by simp)
      | error f => simp
    | _ => exact iff_of_false (by simp [znsProcNvmeIoCmd]) id

/-- **No run divides by zero** unless a write or an explicit flush of a random write area comes
    to a zone whose write pointer is zero. -/
theorem no_division_by_zero_iff (hm : Shipped m) (hinit : m.Inits capacity c)
    (haddr : ∀ e ∈ es, e.Addressed c) :
    NoDivisionByZero c (znsInitFtl c clock storage) es ↔
      (znsMachine c).Along (fun s e => ¬ e.Divides c s) (znsInitFtl c clock storage) es := by
  have hfixed := hinit.fixedDivisors hm
  have hrun : (znsMachine c).run (znsInitFtl c clock storage) es ≠ .error .divideByZero ↔ _ :=
    Machine.run_ne_error_iff
  have hall : (znsMachine c).Along (fun _ e => e.Addressed c) (znsInitFtl c clock storage) es :=
    Machine.along_of_forall haddr
  constructor
  · intro h
    exact ((hrun.1 h.run).and hall).mono fun s e hse hd => hse.1 ((step_divides hm hinit s hse.2).2 hd)
  · intro h
    exact ⟨hfixed, hrun.2 ((h.and hall).mono fun s e hse hd => hse.1 ((step_divides hm hinit s hse.2).1 hd))⟩

/-! ## Two runs -/

instance (c : ZnsCfg) (s : ZnsFtl) (slba : ℕ) : Decidable (FlushDivides c s slba) :=
  inferInstanceAs (Decidable (_ ∧ _ ∧ _))

instance (c : ZnsCfg) (s : ZnsFtl) (rw : RwCommand) : Decidable (WriteDivides c s rw) :=
  inferInstanceAs (Decidable (_ ∧ _ ∧ _ ∧ _ ∧ _))

instance (c : ZnsCfg) (s : ZnsFtl) (cmd : ZmgmtSendCommand) : Decidable (cmd.Divides c s) := by
  unfold ZmgmtSendCommand.Divides
  infer_instance

instance (c : ZnsCfg) (s : ZnsFtl) : ∀ e : ZnsEvent, Decidable (e.Divides c s)
  | .command ⟨.write rw, _, _⟩ | .command ⟨.append rw, _, _⟩ => inferInstanceAs (Decidable (WriteDivides c s rw))
  | .command ⟨.mgmtSend cmd, _, _⟩ => inferInstanceAs (Decidable (cmd.Divides c s))
  | .command ⟨.read _, _, _⟩ | .command ⟨.flush, _, _⟩ | .command ⟨.other _, _, _⟩ | .fire _ => .isFalse id

/-- The zone of the block `slba` is opened with a random write area, and written there. -/
def writeNewZrwa (slba : BitVec 64) : List ZnsEvent :=
  [.command ⟨.mgmtSend ⟨slba, ZSA_OPEN_ZONE, false, true⟩, 1, 0⟩, .command ⟨.write ⟨slba, 0, 0⟩, 1, 0⟩]

/-- In zone 1 the write is refused. -/
theorem no_division_by_zero_zone1 :
    NoDivisionByZero zn540 (znsInitFtl zn540 (fun _ => 0) fun _ => 0) (writeNewZrwa 0x400000) := by
  have haddr : ∀ e ∈ writeNewZrwa 0x400000, e.Addressed zn540 := by
    simp only [writeNewZrwa, List.forall_mem_cons]
    refine ⟨.inr ?_, ?_, List.forall_mem_nil _⟩
    · show lbaToZone zn540 _ < 2
      decide
    · show lbaToZone zn540 _ < 2
      decide
  exact (no_division_by_zero_iff (.inl rfl) wdZn540_inits haddr).2 (by decide)

/-- In zone 0 it divides by zero, and so does an explicit flush. -/
theorem division_by_zero :
    (znsMachine zn540).run (znsInitFtl zn540 (fun _ => 0) fun _ => 0) (writeNewZrwa 0) =
        .error .divideByZero ∧
      (znsMachine zn540).run (znsInitFtl zn540 (fun _ => 0) fun _ => 0)
        [.command ⟨.mgmtSend ⟨0, ZSA_OPEN_ZONE, false, true⟩, 1, 0⟩,
          .command ⟨.mgmtSend ⟨0, ZSA_FLUSH_EXPL_ZRWA, false, false⟩, 1, 0⟩] = .error .divideByZero :=
  ⟨rfl, rfl⟩

end WaitGc

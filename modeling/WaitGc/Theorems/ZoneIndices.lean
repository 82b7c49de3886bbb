/-
  WAITGC verification — the indices the zone commands use.

  Five entry points compute a zone number of 32 bits from the 64-bit `slba`
  of a command and use it as an index of `zone_descs`, `zone_write_buffer` and
  `zrwa_buffer`; `zns_zmgmt_recv` alone compares it with `nr_zones`.  A worker
  copies the data of a command whatever its status.

  `zone_indices_in_bounds_iff`: on the devices of the repository a command
  stays inside the arrays and the storage, and one beyond the device is answered
  with an error and copies nothing, exactly if none of its blocks lies behind
  the device and it does not use `zrwa_buffer`, which is not allocated there.
  That a command stays inside the arrays is said of its handler as a whole: with
  other descriptors and buffers in place of all but those of its own zone, it
  returns the same, and leaves them.
-/
import Mathlib.Order.Interval.Finset.Nat
import WaitGc.Proof.ZoneDevices
import WaitGc.Proof.ZoneFootprint
import WaitGc.Theorems.ZoneManagement

namespace WaitGc

open Outcome Function

variable {m : ZnsConfig} {capacity : ℕ} {c : ZnsCfg} {s : ZnsFtl} {cmd : ZnsCommand} {recv : ZmgmtRecvCommand}

/-! ## Staying in bounds -/

/-- The number of blocks of the namespace. -/
def nsLbas (c : ZnsCfg) : ℕ := c.zp.nrZones * lbasPerZone c

/-- The number of bytes of the namespace. -/
def nsBytes (c : ZnsCfg) : ℕ := c.zp.nrZones * c.zp.zoneSize

/-- The zone that a block lies in, if it is one of the device. -/
def zonesAt (c : ZnsCfg) (lba : ℕ) : Finset ℕ := (Finset.range c.zp.nrZones).filter (· = lba / lbasPerZone c)

/-- The zones a command is addressed to. -/
def ZnsCommand.zones (c : ZnsCfg) : ZnsCommand → Finset ℕ
  | .write rw | .append rw | .read rw => zonesAt c rw.slba.toNat
  | .mgmtSend cmd => if cmd.selectAll then Finset.range c.zp.nrZones else zonesAt c cmd.slba.toNat
  | .flush | .other _ => ∅

/-- A worker that performs the command, with `slba` in its entry, touches the byte `a` of the
    storage. -/
def ZnsCommand.Copies (slba a : ℕ) : ZnsCommand → Prop
  | .write rw | .append rw | .read rw => Touches slba rw.bytes a
  | .flush | .mgmtSend _ | .other _ => False

/-- The status is an error. -/
def ZnsStatus.IsError (st : ZnsStatus) : Prop := st ≠ .success ∧ st ≠ .indeterminate

/-- A page lies on a channel and a LUN of the device. -/
def LunInBounds (c : ZnsCfg) (lpn : ℕ) : Prop :=
  (lpnToPpa c lpn).ch.toNat < c.sp.nchs ∧ (lpnToPpa c lpn).lun.toNat < c.sp.lunsPerCh

/-- The command is addressed to a block behind the device.  An append is one at the write
    pointer of its zone. -/
def ZnsCommand.Beyond (c : ZnsCfg) (s : ZnsFtl) : ZnsCommand → Prop
  | .write rw | .read rw => nsLbas c < rw.slba.toNat + rw.nrLba
  | .append rw => nsLbas c ≤ rw.slba.toNat ∨ nsLbas c < entrySlba c s true rw + rw.nrLba
  | .mgmtSend cmd => cmd.selectAll = false ∧ nsLbas c ≤ cmd.slba.toNat
  | .flush | .other _ => False

/-- A command of the zoned namespace stays inside the arrays and the storage. -/
structure InBounds (c : ZnsCfg) (s : ZnsFtl) (req : ZnsRequest) : Prop where
  -- no descriptor and no buffer but those of the command's zones matters, or changes
  zones : ∀ other, znsProcNvmeIoCmd c (s.splice (req.cmd.zones c) other) req =
    (znsProcNvmeIoCmd c s req).map (·.splice (req.cmd.zones c) other)
  luns : ∀ lpn, LunInBounds c lpn
  -- `zrwa_buffer` is allocated where it is used
  buffer : znsProcNvmeIoCmd c s req ≠ .error .nullPointer
  cleared : ∀ o, znsProcNvmeIoCmd c s req = .ok o → ∀ a, nsBytes c ≤ a → o.ftl.storage a = s.storage a
  copied : ∀ o ret, znsProcNvmeIoCmd c s req = .ok o → o.ret = some ret →
    ∀ a, req.cmd.Copies o.slba a → a < nsBytes c
  answer : req.cmd.Beyond c s → ∃ o ret, znsProcNvmeIoCmd c s req = .ok o ∧ o.ret = some ret ∧
    ret.status.IsError ∧ ∀ a, ¬ req.cmd.Copies o.slba a

/-- The zones a report may list. -/
def ZmgmtRecvCommand.zones (c : ZnsCfg) (cmd : ZmgmtRecvCommand) : Finset ℕ :=
  Finset.Ico (cmd.slba.toNat / lbasPerZone c) c.zp.nrZones

/-- A report stays inside the arrays. -/
structure ReportInBounds (c : ZnsCfg) (s : ZnsFtl) (report : ℕ → ℕ) (host : HostData)
    (cmd : ZmgmtRecvCommand) : Prop where
  zones : ∀ other, znsZmgmtRecv c (s.splice (cmd.zones c) other) report host cmd =
    znsZmgmtRecv c s report host cmd
  answer : nsLbas c ≤ cmd.slba.toNat → (znsZmgmtRecv c s report host cmd).status.IsError

/-! ## The condition -/

/-- The command writes to a closed or empty zone with a random write area and a write pointer of
    zero, and opens it. -/
def ZnsCommand.UsesZrwaBuffer (c : ZnsCfg) (s : ZnsFtl) : ZnsCommand → Prop
  | .write rw | .append rw =>
    let z := s.zoneDescs (lbaToZone c rw.slba.toNat)
    z.zrwav = true ∧ ZrwaPasses c s rw ∧ (z.state = .empty ∨ z.state = .closed) ∧
      s.isZoneResourceAvail .openZone = true
  | _ => False

/-- A report starts inside the device, or is not supported. -/
def ZmgmtRecvCommand.InDevice (c : ZnsCfg) (cmd : ZmgmtRecvCommand) : Prop :=
  checkZmgmtRcvOptionSupported c cmd = true → cmd.slba.toNat < nsLbas c

/-! ## Zone numbers -/

theorem div_lt_iff (c : ZnsCfg) (lba : ℕ) :
    lba / lbasPerZone c < c.zp.nrZones ↔ lba < c.zp.nrZones * lbasPerZone c :=
  Nat.div_lt_iff_lt_mul (lbasPerZone_pos c)

/-- **A zone number is right** exactly if the block is one of the device. -/
theorem lbaToZone_exact_iff (c : ZnsCfg) (lba : ℕ) :
    (lbaToZone c lba < c.zp.nrZones ∧ lbaToZone c lba = lba / lbasPerZone c) ↔
      lba < c.zp.nrZones * lbasPerZone c := by
  have hlt := c.nrZones_lt
  rw [← div_lt_iff, lbaToZone, u32]
  generalize lba / lbasPerZone c = zid
  omega

theorem lunInBounds (hm : Shipped m) (hinit : m.Inits capacity c) (lpn : ℕ) : LunInBounds c lpn := by
  obtain ⟨hnchs, hluns, hlunsPerCh, -⟩ := ssdInitParams_fixed hinit.sp
  have hdies : c.zp.diesPerZone = m.diesPerZone := by rw [hinit.zp]; rfl
  unfold LunInBounds lpnToPpa Ppa.store dieToChannel dieToLun
  dsimp only
  rw [hnchs, hluns, hlunsPerCh, hdies]
  generalize lpnToZone c lpn = zone
  generalize sub64 lpn (zoneToSlpn c zone) / c.sp.pgsPerOneshotpg = stripe
  simp only [BitVec.toNat_ofNat]
  rcases hm with rfl | rfl
  · simp only [wdZn540, u32]
    omega
  · simp only [znsPrototype, u32]
    omega

/-! ## Commands -/

theorem znsWrite_nullPointer (hz : NoZrwa c) (s : ZnsFtl) (sqid start : ℕ) (append : Bool) {rw : RwCommand}
    (helba : rw.slba.toNat ≤ sub64 (u64 (rw.slba.toNat + rw.nrLba)) 1) :
    znsWrite c s sqid start append rw = .error .nullPointer ↔ (ZnsCommand.write rw).UsesZrwaBuffer c s := by
  unfold znsWrite ZnsCommand.UsesZrwaBuffer
  dsimp only
  rw [lpnToZone_lbaToLpn]
  by_cases hw : (s.zoneDescs (lbaToZone c rw.slba.toNat)).zrwav = false
  · rw [if_pos hw]
    refine iff_of_false (fun h => ?_) fun h => by simp [hw] at h
    obtain ⟨f, hf⟩ := znsWriteSeq_fault h
    cases hf
  rw [if_neg hw]
  rw [Bool.not_eq_false] at hw
  rcases znsWriteZrwa_faults hz s sqid start helba with ⟨-, hopen, h⟩ | ⟨hpass, hstate, havail, h⟩ | ⟨hnot, o, h⟩
  · refine iff_of_false (by simp [h]) fun ⟨_, _, hstate, _⟩ => ?_
    have := (isOpen_eq _).1 hopen
    rcases hstate with hstate | hstate <;> rw [hstate] at this <;> simp at this
  · exact iff_of_true h ⟨hw, hpass, hstate, havail⟩
  · exact iff_of_false (by simp [h]) fun ⟨_, hpass, hstate, havail⟩ => hnot ⟨hpass, .inr ⟨hstate, havail⟩⟩

/-- The block a command starts at, if it has one, lies in the device. -/
def ZnsCommand.StartsInside (c : ZnsCfg) : ZnsCommand → Prop
  | .write rw | .append rw | .read rw => rw.slba.toNat < nsLbas c
  | .mgmtSend cmd => cmd.selectAll = false → cmd.slba.toNat < nsLbas c
  | .flush | .other _ => True

theorem ZnsCommand.startsInside (h : ¬ cmd.Beyond c s) : cmd.StartsInside c := by
  cases cmd with
  | write rw | read rw =>
    have hpos := rw.nrLba_pos
    unfold Beyond at h
    exact lt_of_lt_of_le (Nat.lt_add_of_pos_right hpos) (Nat.le_of_not_lt h)
  | append rw => exact Nat.lt_of_not_le fun hle => h (.inl hle)
  | mgmtSend cmd => exact fun hall => Nat.lt_of_not_le fun hle => h ⟨hall, hle⟩
  | flush => trivial
  | other opcode => trivial

theorem nullPointer_iff (hm : Shipped m) (hinit : m.Inits capacity c) {req : ZnsRequest}
    (hin : req.cmd.StartsInside c) :
    znsProcNvmeIoCmd c s req = .error .nullPointer ↔ req.cmd.UsesZrwaBuffer c s := by
  have hz := hinit.noZrwa hm
  obtain ⟨cmd, sqId, nsecsStart⟩ := req
  cases cmd with
  | write rw | append rw =>
    have haddr := ((lbaToZone_exact_iff c _).2 hin).1
    exact znsWrite_nullPointer hz s _ _ _ (elba_ge hm hinit haddr)
  | mgmtSend cmd =>
    refine iff_of_false (fun h => ?_) id
    rcases bind_eq_error_iff.1 h with h | ⟨r, -, h⟩
    · cases znsZmgmtSend_fault h
    · cases h
  | _ => exact iff_of_false (by simp [znsProcNvmeIoCmd]) id

/-! ## Commands inside the device -/

theorem lbaToZone_mem {lba : ℕ} (h : lba < nsLbas c) : lbaToZone c lba ∈ zonesAt c lba := by
  obtain ⟨hlt, heq⟩ := (lbaToZone_exact_iff c lba).2 h
  exact Finset.mem_filter.2 ⟨Finset.mem_range.2 hlt, heq⟩

theorem ZnsCommand.StartsInside.within (h : cmd.StartsInside c) : cmd.Within c (cmd.zones c) := by
  cases cmd with
  | write rw | append rw | read rw => exact lbaToZone_mem h
  | mgmtSend cmd =>
    intro zid hfor
    unfold ZmgmtSendCommand.For at hfor
    simp only [ZnsCommand.zones]
    split_ifs at hfor ⊢ with hall
    · obtain ⟨i, hi, rfl⟩ := hfor
      exact Finset.mem_range.2 (lbaToZone_zoneToSlba_lt c hi)
    · rw [← hfor]
      exact lbaToZone_mem (h (Bool.eq_false_iff.2 hall))
  | flush => trivial
  | other opcode => trivial

theorem ZnsCommand.zones_lt {zid : ℕ} (h : zid ∈ cmd.zones c) : zid < c.zp.nrZones := by
  have hat {lba : ℕ} (h : zid ∈ zonesAt c lba) : zid < c.zp.nrZones :=
    Finset.mem_range.1 (Finset.mem_filter.1 h).1
  cases cmd with
  | write rw | append rw | read rw => exact hat h
  | mgmtSend cmd =>
    simp only [ZnsCommand.zones] at h
    split_ifs at h
    · exact Finset.mem_range.1 h
    · exact hat h
  | flush => cases h
  | other opcode => cases h

theorem nsBytes_eq (c : ZnsCfg) : nsBytes c = nsLbas c * 512 := by
  have hmod := c.zoneSize_mod
  rw [c.pgsz_eq] at hmod
  have hwhole : c.zp.zoneSize = lbasPerZone c * 512 := by
    unfold lbasPerZone
    rw [show LBA_SIZE = 512 from rfl] at *
    omega
  rw [nsBytes, nsLbas, Nat.mul_assoc, ← hwhole]

theorem touches_inside {slba a : ℕ} {rw : RwCommand} (hend : slba + rw.nrLba ≤ nsLbas c)
    (h : Touches slba rw.bytes a) : a < nsBytes c := by
  have hle := rw.nrLba_le
  have hzones : nsBytes c < 2 ^ 64 :=
    lt_of_le_of_lt (Nat.mul_le_mul_right _ c.nrZones_lt.le)
      (Nat.mul_lt_mul_of_pos_left c.zoneSize_lt (by norm_num))
  rw [nsBytes_eq] at hzones ⊢
  have hbytes := rw.bytes_eq
  obtain ⟨ha, htouch⟩ := h
  have hlt : slba * 512 < 2 ^ 64 :=
    lt_of_le_of_lt (Nat.mul_le_mul_right _ (Nat.le_of_add_right_le hend)) hzones
  have hoff : cmdIoOffset slba = slba * 512 := by
    rw [cmdIoOffset, Nat.shiftLeft_eq, show 2 ^ LBA_BITS = 512 from rfl, u64, Nat.mod_eq_of_lt hlt]
  rw [hoff, hbytes] at htouch
  unfold sub64 u64 at htouch
  omega

theorem exists_touches (slba : ℕ) (rw : RwCommand) : ∃ a, Touches slba rw.bytes a := by
  have hpos := rw.nrLba_pos
  refine ⟨cmdIoOffset slba, Nat.mod_lt _ (by decide), ?_⟩
  have hoff : cmdIoOffset slba < 2 ^ 64 := Nat.mod_lt _ (by decide)
  rw [rw.bytes_eq, sub64, u64]
  omega

/-- **A command inside the device stays in bounds.** -/
theorem inBounds_of_inside (hm : Shipped m) (hinit : m.Inits capacity c) {req : ZnsRequest}
    (hin : ¬ req.cmd.Beyond c s) (hbuf : ¬ req.cmd.UsesZrwaBuffer c s) : InBounds c s req := by
  have hstart := ZnsCommand.startsInside hin
  refine ⟨fun other => znsProcNvmeIoCmd_splice s hstart.within, lunInBounds hm hinit,
    mt (nullPointer_iff hm hinit hstart).1 hbuf, fun o ho a ha => ?_, fun o ret ho hret a ha => ?_,
    fun h => absurd h hin⟩
  · refine znsProcNvmeIoCmd_stored ho fun cmd hcmd hclears => ?_
    have hwithin := hstart.within
    rw [hcmd] at hwithin
    have hlt := ZnsCommand.zones_lt (hwithin _ hclears.1)
    rw [Nat.div_lt_iff_lt_mul c.zoneSize_pos] at hlt
    exact ha.not_gt hlt
  · obtain ⟨cmd, sqId, nsecsStart⟩ := req
    cases cmd with
    | write rw =>
      have hslba : o.slba = rw.slba.toNat := by
        rw [(znsWrite_report ho).slba]
        exact ite_self _
      rw [hslba] at ha
      exact touches_inside (Nat.le_of_not_lt hin) ha
    | append rw =>
      have hslba : o.slba = entrySlba c s true rw := (znsWrite_report ho).slba
      rw [hslba] at ha
      exact touches_inside (Nat.le_of_not_lt fun hlt => hin (.inr hlt)) ha
    | read rw =>
      cases ho
      exact touches_inside (Nat.le_of_not_lt hin) ha
    | flush => exact ha.elim
    | mgmtSend cmd => exact ha.elim
    | other opcode => exact ha.elim

/-! ## Commands behind the device -/

/-- What stands in a descriptor can let an action succeed, or divide by zero. -/
theorem exists_success (hz : NoZrwa c) {action : BitVec 8} (himpl : Implemented action)
    {slba : ℕ} (hslba : slba < 2 ^ 64) (option : Bool) :
    ∃ z : ZoneDescriptor, ∀ s : ZnsFtl, s.zoneDescs (lbaToZone c slba) = z →
      (∃ s', zmgmtSend c s slba action option = .ok (.success, s')) ∨
        zmgmtSend c s slba action option = .error .divideByZero := by
  let inState (state : ZoneState) : ZoneDescriptor := ⟨state, false, 0, 0, 0⟩
  rcases himpl with rfl | rfl | rfl | rfl | rfl | rfl
  · refine ⟨inState .closed, fun s hs => .inl ⟨s, ?_⟩⟩
    simp [zmgmtSend, zmgmtSendCloseZone, hs, inState]
  · refine ⟨inState .full, fun s hs => .inl ⟨s, ?_⟩⟩
    simp [zmgmtSend, ZSA_FINISH_ZONE, ZSA_CLOSE_ZONE, zmgmtSendFinishZone, hs, inState]
  · refine ⟨inState .openedExpl, fun s hs => .inl ⟨s, ?_⟩⟩
    simp [zmgmtSend, ZSA_OPEN_ZONE, ZSA_FINISH_ZONE, ZSA_CLOSE_ZONE, zmgmtSendOpenZone, hs, inState]
  · refine ⟨inState .empty, fun s hs => .inl ?_⟩
    simp [zmgmtSend, ZSA_RESET_ZONE, ZSA_OPEN_ZONE, ZSA_FINISH_ZONE, ZSA_CLOSE_ZONE, zmgmtSendResetZone, hs,
      inState]
  · refine ⟨inState .offline, fun s hs => .inl ⟨s, ?_⟩⟩
    simp [zmgmtSend, ZSA_OFFLINE_ZONE, ZSA_RESET_ZONE, ZSA_OPEN_ZONE, ZSA_FINISH_ZONE, ZSA_CLOSE_ZONE,
      zmgmtSendOfflineZone, hs, inState]
  · -- a random write area that begins at block 0, in a zone that ends at 2 ^ 64
    refine ⟨⟨.closed, true, sub64 0 (zoneToSlba c (lbaToZone c slba)), 0, 0⟩, fun s hs => .inr ?_⟩
    have hflush : zmgmtSend c s slba ZSA_FLUSH_EXPL_ZRWA option = zmgmtSendFlushExplicitZrwa c s slba := rfl
    have hstart : zoneToSlba c (lbaToZone c slba) < 2 ^ 32 := Nat.mod_lt _ (by decide)
    have hend : u64 (zoneToSlba c (lbaToZone c slba) + sub64 0 (zoneToSlba c (lbaToZone c slba))) = 0 := by
      unfold sub64 u64
      omega
    rw [hflush]
    unfold zmgmtSendFlushExplicitZrwa
    dsimp only
    rw [hs, hz.lbasPerZrwa, hend, if_neg (by simp), if_neg, require_neg (not_not_intro hz.lbasPerZrwafg)]
    · rfl
    · rw [not_not]
      refine ⟨Nat.zero_le _, ?_⟩
      rw [show min (sub64 (u64 (0 + 0)) 1) (sub64 0 1) = 2 ^ 64 - 1 by decide]
      omega

/-- **A command that stays in bounds** is not addressed to a block behind the device. -/
theorem InBounds.inside (hz : NoZrwa c) {req : ZnsRequest} (h : InBounds c s req) :
    ¬ req.cmd.Beyond c s := by
  intro hbeyond
  obtain ⟨o, ret, ho, hret, herr, hcopies⟩ := h.answer hbeyond
  obtain ⟨cmd, sqId, nsecsStart⟩ := req
  have hzones := h.zones
  cases cmd with
  | write rw | append rw | read rw =>
    -- a worker copies the data of the command, whatever its status
    obtain ⟨a, ha⟩ := exists_touches o.slba rw
    exact hcopies a ha
  | mgmtSend cmd =>
    obtain ⟨hall, hslba⟩ := hbeyond
    have hsend (s : ZnsFtl) : znsZmgmtSend c s cmd = zmgmtSend c s cmd.slba.toNat cmd.zsa cmd.zsaso := by
      rw [znsZmgmtSend, hall, if_neg Bool.false_ne_true]
    have hstatus {s₁ s' : ZnsFtl} {status : ZnsStatus}
        (hok : zmgmtSend c s₁ cmd.slba.toNat cmd.zsa cmd.zsaso = .ok (status, s')) :
        znsProcNvmeIoCmd c s₁ ⟨.mgmtSend cmd, sqId, nsecsStart⟩ =
          .ok ⟨some ⟨status, 0, nsecsStart.toNat⟩, cmd.slba.toNat, s'⟩ := by
      unfold znsProcNvmeIoCmd
      dsimp only
      rw [hsend, hok]
      rfl
    by_cases himpl : Implemented cmd.zsa
    · -- whatever stands behind the array decides what the command returns
      obtain ⟨z, hsucc⟩ := exists_success hz himpl cmd.slba.isLt cmd.zsaso
      have hnone : ZnsCommand.zones c (.mgmtSend cmd) = ∅ := by
        simp only [ZnsCommand.zones, zonesAt]
        rw [hall, if_neg Bool.false_ne_true, Finset.filter_eq_empty_iff]
        rintro zid hzid rfl
        exact hslba.not_gt ((Nat.div_lt_iff_lt_mul (lbasPerZone_pos c)).1 (Finset.mem_range.1 hzid))
      have hsplice := hzones { s with zoneDescs := fun _ => z }
      rw [hnone, ho] at hsplice
      rcases hsucc (s.splice ∅ { s with zoneDescs := fun _ => z }) (by simp [ZnsFtl.splice]) with ⟨s', hok⟩ | hdiv
      · rw [hstatus hok] at hsplice
        have hsome := congrArg ZnsOutcome.ret (Except.ok.inj hsplice)
        have hret' : some ⟨.success, 0, nsecsStart.toNat⟩ = some ret := hsome.trans hret
        obtain rfl := Option.some.inj hret'
        exact herr.1 rfl
      · unfold znsProcNvmeIoCmd at hsplice
        dsimp only at hsplice
        rw [hsend, hdiv] at hsplice
        cases hsplice
    · -- an unknown action touches no zone, and reports what was never set
      rw [hstatus (zmgmtSend_unknown himpl)] at ho
      cases ho
      obtain rfl := Option.some.inj hret
      exact herr.2 rfl
  | flush => exact hbeyond
  | other opcode => exact hbeyond

/-! ## Reports -/

theorem reportInBounds_iff (s : ZnsFtl) (report : ℕ → ℕ) (host : HostData) (cmd : ZmgmtRecvCommand) :
    ReportInBounds c s report host cmd ↔ cmd.InDevice c := by
  constructor
  · intro h hsup
    refine Nat.lt_of_not_le fun hbehind => (h.answer hbehind).1 ?_
    unfold znsZmgmtRecv
    rw [if_pos hsup]
  · intro hin
    refine ⟨fun other => znsZmgmtRecv_splice s report host cmd fun hsup i hi => ?_, fun hbehind => ?_⟩
    · obtain ⟨hlt, heq⟩ := (lbaToZone_exact_iff c _).2 (hin hsup)
      have hbound := c.nrZones_lt
      have hle : nrZoneToReport c cmd ≤ sub64 c.zp.nrZones (lbaToZone c cmd.slba.toNat) := by
        unfold nrZoneToReport
        dsimp only
        split_ifs <;> omega
      refine Finset.mem_Ico.2 ⟨heq ▸ Nat.le_add_right _ _, ?_⟩
      unfold sub64 u64 at hle
      omega
    · have hsup : ¬ checkZmgmtRcvOptionSupported c cmd = true :=
        fun hsup => absurd (hin hsup) hbehind.not_gt
      unfold znsZmgmtRecv
      rw [if_neg hsup]
      exact ⟨by simp, by simp⟩

/-! ## The result -/

/-- **The zone indices are in bounds** exactly for the commands that are not addressed to a block
    behind the device and do not come to use `zrwa_buffer`. -/
theorem zone_indices_in_bounds_iff (hm : Shipped m) (hinit : m.Inits capacity c) :
    (∀ s req, InBounds c s req ↔ ¬ req.cmd.Beyond c s ∧ ¬ req.cmd.UsesZrwaBuffer c s) ∧
      ∀ s report host cmd, ReportInBounds c s report host cmd ↔ cmd.InDevice c := by
  refine ⟨fun s req => ⟨fun h => ?_, fun h => inBounds_of_inside hm hinit h.1 h.2⟩, reportInBounds_iff⟩
  have hin := h.inside (hinit.noZrwa hm)
  exact ⟨hin, mt (nullPointer_iff hm hinit (ZnsCommand.startsInside hin)).2 h.buffer⟩

/-- The first block of `zn540` is read. -/
def readFirst : ZnsRequest := ⟨.read ⟨0, 0, 0⟩, 1, 0⟩

theorem zone_indices_in_bounds_readFirst :
    InBounds zn540 (znsInitFtl zn540 (fun _ => 0) fun _ => 0) readFirst := by
  refine ((zone_indices_in_bounds_iff (.inl rfl) wdZn540_inits).1 _ readFirst).2 ⟨?_, id⟩
  exact show ¬ nsLbas zn540 < 0 + 1 by decide

/-- A read of the block behind the device uses zone 2 of two, an append far behind it goes to
    zone 0, and a write of the last block and the next is refused, and copied. -/
theorem zone_indices_out_of_bounds :
    let s := znsInitFtl zn540 (fun _ => 0) fun _ => 0
    ¬ InBounds zn540 s ⟨.read ⟨0x800000, 0, 0⟩, 1, 0⟩ ∧
      ¬ InBounds zn540 s ⟨.append ⟨0x40000000000000, 0, 0⟩, 1, 0⟩ ∧
      ¬ InBounds zn540 s ⟨.write ⟨0x7fffff, 1, 0⟩, 1, 0⟩ := by
  have hz : NoZrwa zn540 := ⟨rfl, rfl, rfl⟩
  refine ⟨fun h => h.inside hz ?_, fun h => h.inside hz (.inl ?_), fun h => h.inside hz ?_⟩
  · exact show nsLbas zn540 < 0x800000 + 1 by decide
  · exact show nsLbas zn540 ≤ 0x40000000000000 by decide
  · exact show nsLbas zn540 < 0x7fffff + 2 by decide

end WaitGc

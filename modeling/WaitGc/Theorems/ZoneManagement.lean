/-
  WAITGC verification — what a zone management command reports.

  `zone_management_atomic`: in every reachable state a command on one zone
  reports success and has performed its transition, or it reports an error and
  has changed nothing, exactly if its action is one of those that the `switch`
  of `__zmgmt_send` knows.  There is no `default`, so any other action returns
  a variable that was never set.
-/
import WaitGc.Proof.ZoneData
import WaitGc.Theorems.SequentialWrites
import WaitGc.Theorems.ZrwaResources

namespace WaitGc

open Outcome Function

variable {c : ZnsCfg} {s s' : ZnsFtl} {zid slba : ℕ} {action : BitVec 8} {option : Bool}
  {clock storage : ℕ → ℕ} {es : List ZnsEvent}

/-! ## What a command reports and does -/

/-- Whether a status may be read as `NVME_SC_SUCCESS`; a variable that was not set may
    be read as anything. -/
def ZnsStatus.MayRead : ZnsStatus → Bool → Prop
  | .success, ok => ok = true
  | .indeterminate, _ => True
  | _, ok => ok = false

/-- The actions `__zmgmt_send` knows. -/
def Implemented (action : BitVec 8) : Prop :=
  action = ZSA_CLOSE_ZONE ∨ action = ZSA_FINISH_ZONE ∨ action = ZSA_OPEN_ZONE ∨ action = ZSA_RESET_ZONE ∨
    action = ZSA_OFFLINE_ZONE ∨ action = ZSA_FLUSH_EXPL_ZRWA

instance (action : BitVec 8) : Decidable (Implemented action) := inferInstanceAs (Decidable (_ ∨ _))

/-- The transition of the action, to the block `slba` of a zone from `start` to `stop`. -/
def Transition (action : BitVec 8) (slba start stop : ℕ) (z : ZoneDescriptor) : Prop :=
  if action = ZSA_CLOSE_ZONE then z.state = .closed
  else if action = ZSA_FINISH_ZONE then z.state = .full
  else if action = ZSA_OPEN_ZONE then z.state = .openedExpl
  else if action = ZSA_RESET_ZONE then z.state = .empty ∧ z.wp = start ∧ z.zrwav = false
  else if action = ZSA_OFFLINE_ZONE then z.state = .offline
  else if action = ZSA_FLUSH_EXPL_ZRWA then z.wp = slba + 1 ∧ (slba + 1 = stop → z.state = .full)
  else False

/-- The command returns; whatever its status is read as, its transition was performed
    or nothing was changed. -/
def SendAtomic (c : ZnsCfg) (s : ZnsFtl) (zid : ℕ) (cmd : ZmgmtSendCommand) : Prop :=
  ∃ r, znsZmgmtSend c s cmd = .ok r ∧ ∀ ok, r.1.MayRead ok →
    if ok then
      Transition cmd.zsa cmd.slba.toNat (zoneStart c zid) (zoneStart c zid + lbasPerZone c) (r.2.zoneDescs zid)
    else r.2 = s

/-! ## Where the zones lie -/

/-- The zones lie where they were laid out. -/
def LaidOut (c : ZnsCfg) (s : ZnsFtl) : Prop :=
  ∀ zid, (initDescriptor c zid).SameLayout (s.zoneDescs zid)

theorem LaidOut.move {z : ZoneDescriptor} (h : LaidOut c s) (hz : (s.zoneDescs zid).SameLayout z)
    (hdescs : s'.zoneDescs = update s.zoneDescs zid z) : LaidOut c s' := by
  intro i
  rw [hdescs]
  rcases eq_or_ne i zid with rfl | hne
  · rw [update_self]
    exact ⟨hz.zslba.trans (h i).zslba, hz.zoneCapacity.trans (h i).zoneCapacity⟩
  · rw [update_of_ne hne]
    exact h i

theorem LaidOut.same (h : LaidOut c s) (hs : SameZones s s') : LaidOut c s' := by
  intro i
  rw [hs.descs]
  exact h i

theorem ZoneDescriptor.Managed.layout {z z' : ZoneDescriptor} (h : z.Managed action option z') :
    z.SameLayout z' := by
  rcases h with ⟨-, rfl⟩ | ⟨-, h⟩
  · exact ⟨rfl, rfl⟩
  · cases h <;> exact ⟨rfl, rfl⟩

theorem LaidOut.write {append : Bool} {rw : RwCommand} {sqid start : ℕ} {o : ZnsOutcome}
    (hl : LaidOut c s) (hc : ZonesCounted c s) (hzid : lbaToZone c rw.slba.toNat < c.zp.nrZones)
    (h : znsWrite c s sqid start append rw = .ok o) : LaidOut c o.ftl := by
  have hr := hc.room hzid
  unfold znsWrite at h
  dsimp only at h
  rw [lpnToZone_lbaToLpn] at h
  split_ifs at h with hw
  · rcases znsWriteSeq_cases hr h with ⟨-, hsame⟩ | ⟨-, -, -, hsame⟩ | ⟨-, -, -, -, -, hmove, -⟩
    · exact hl.same hsame
    · exact hl.same hsame
    · exact hl.move ((s.zoneDescs _).openImpl_layout.advance _ _) hmove.descs
  · rw [Bool.not_eq_false] at hw
    obtain ⟨z, hz, hmove⟩ := znsWriteZrwa_move hr hw h
    exact hl.move hz hmove.descs

theorem LaidOut.send {r : ZnsStatus × ZnsFtl} (hl : LaidOut c s) (hc : ZonesCounted c s)
    (hzid : lbaToZone c slba < c.zp.nrZones) (h : zmgmtSend c s slba action option = .ok r) :
    LaidOut c r.2 := by
  obtain ⟨z, hz, hmove⟩ := zmgmtSend_move (hc.room hzid) h
  exact hl.move hz.layout hmove.descs

theorem LaidOut.mgmtSend {cmd : ZmgmtSendCommand} {r : ZnsStatus × ZnsFtl} (hl : LaidOut c s)
    (hc : ZonesCounted c s) (hzid : cmd.selectAll = true ∨ lbaToZone c cmd.slba.toNat < c.zp.nrZones)
    (h : znsZmgmtSend c s cmd = .ok r) : LaidOut c r.2 := by
  unfold znsZmgmtSend at h
  split_ifs at h with hall
  · let I (_ : List ℕ) (s : ZnsFtl) : Prop := ZonesCounted c s ∧ LaidOut c s
    have hloop : Yields (I (List.range c.zp.nrZones)) (zmgmtSendAll c s cmd.zsa cmd.zsaso) := by
      refine sat_foldlM I _ ?_ ⟨hc, hl⟩
      intro pre zid post s₁ hrange ⟨hc₁, hl₁⟩
      have hmem : zid ∈ List.range c.zp.nrZones := hrange ▸ by simp
      have hlt := lbaToZone_zoneToSlba_lt c (List.mem_range.1 hmem)
      cases hsend : zmgmtSend c s₁ (zoneToSlba c zid) cmd.zsa cmd.zsaso with
      | error e => trivial
      | ok r =>
        obtain ⟨z, -, hmove⟩ := zmgmtSend_move (hc₁.room hlt) hsend
        exact ⟨hc₁.move hlt hmove, hl₁.send hc₁ hlt hsend⟩
    cases hs : zmgmtSendAll c s cmd.zsa cmd.zsaso with
    | error e => rw [hs] at h; cases h
    | ok s₁ => rw [hs] at h; cases h; exact (hloop.of_ok hs).2
  · exact hl.send hc (hzid.resolve_left hall) h

/-- **No command moves a zone.** -/
theorem LaidOut.step {e : ZnsEvent} (hl : LaidOut c s) (hc : ZonesCounted c s) (haddr : e.Addressed c)
    (h : (znsMachine c).step s e = .ok s') : LaidOut c s' := by
  cases e with
  | fire i =>
    cases h
    exact hl.same (s.fire_same i)
  | command req =>
    cases ho : znsProcNvmeIoCmd c s req with
    | error f => simp [znsMachine, ho, Except.map] at h
    | ok o =>
      simp only [znsMachine, ho, Except.map, Except.ok.injEq] at h
      subst h
      obtain ⟨cmd, sqid, start⟩ := req
      unfold znsProcNvmeIoCmd at ho
      dsimp only at ho
      cases cmd with
      | write rw => exact hl.write hc haddr ho
      | append rw => exact hl.write hc haddr ho
      | read rw => cases ho; exact hl.same (znsRead_same _ _ _)
      | flush => cases ho; exact hl.same (znsFlush_same _)
      | other opcode => cases ho; exact hl
      | mgmtSend cmd =>
        obtain ⟨r, hsend, ho⟩ := bind_eq_ok ho
        cases ho
        exact hl.mgmtSend hc haddr hsend

theorem LaidOut.run (haddr : ∀ e ∈ es, e.Addressed c)
    (hrun : (znsMachine c).run (znsInitFtl c clock storage) es = .ok s) : ZonesCounted c s ∧ LaidOut c s := by
  have hinit : ZonesCounted c (znsInitFtl c clock storage) ∧ LaidOut c (znsInitFtl c clock storage) :=
    ⟨zonesCounted_init c clock storage, fun _ => ⟨rfl, rfl⟩⟩
  have hsat : Sat (fun _ => True) (fun s => ZonesCounted c s ∧ LaidOut c s)
      ((znsMachine c).run (znsInitFtl c clock storage) es) := by
    refine Machine.run_sat ?_ hinit (Machine.along_of_forall haddr)
    rintro s e ⟨hc, hl⟩ haddr
    cases hs : (znsMachine c).step s e with
    | error f => trivial
    | ok s₁ => exact ⟨hc.step haddr hs, hl.step hc haddr hs⟩
  exact hsat.of_ok hrun

/-! ## The actions -/

/-- The command succeeds with the zone in `p`, or it fails and changes nothing. -/
def DoneOrRefused (s : ZnsFtl) (zid : ℕ) (p : ZoneDescriptor → Prop) (r : ZnsStatus × ZnsFtl) : Prop :=
  (r.1 = .success ∧ p (r.2.zoneDescs zid)) ∨ (r.1 ≠ .success ∧ r.1 ≠ .indeterminate ∧ r.2 = s)

variable {p : ZoneDescriptor → Prop}

theorem DoneOrRefused.done (hp : p (s'.zoneDescs zid)) : DoneOrRefused s zid p (.success, s') := .inl ⟨rfl, hp⟩

theorem DoneOrRefused.refused {st : ZnsStatus} (hst : st ≠ .success) (hst' : st ≠ .indeterminate) :
    DoneOrRefused s zid p (st, s) := .inr ⟨hst, hst', rfl⟩

theorem changeZoneState_state (s : ZnsFtl) (zid : ℕ) (state : ZoneState) :
    ((s.changeZoneState zid state).zoneDescs zid).state = state := by
  rw [ZnsFtl.changeZoneState_zoneDescs, update_self]

theorem closeZone_done (s : ZnsFtl) (zid : ℕ) :
    DoneOrRefused s zid (fun z => z.state = .closed) (zmgmtSendCloseZone s zid) := by
  unfold zmgmtSendCloseZone
  cases hz : (s.zoneDescs zid).state with
  | openedImpl | openedExpl => exact .done (changeZoneState_state s zid _)
  | closed => exact .done hz
  | _ => exact .refused (by simp) (by simp)

theorem finishZone_done (s : ZnsFtl) (zid : ℕ) :
    DoneOrRefused s zid (fun z => z.state = .full) (zmgmtSendFinishZone s zid) := by
  unfold zmgmtSendFinishZone
  cases hz : (s.zoneDescs zid).state with
  | openedImpl | openedExpl | closed | empty => exact .done (changeZoneState_state _ zid _)
  | full => exact .done hz
  | _ => exact .refused (by simp) (by simp)

theorem offlineZone_done (s : ZnsFtl) (zid : ℕ) :
    DoneOrRefused s zid (fun z => z.state = .offline) (zmgmtSendOfflineZone s zid) := by
  unfold zmgmtSendOfflineZone
  cases hz : (s.zoneDescs zid).state with
  | readOnly => exact .done (changeZoneState_state s zid _)
  | offline => exact .done hz
  | _ => exact .refused (by simp) (by simp)

theorem openZone_done (hr : Room c s (s.zoneDescs zid)) (zrwa : Bool) :
    DoneOrRefused s zid (fun z => z.state = .openedExpl) (zmgmtSendOpenZone s zid zrwa) := by
  have hale := hr.activeLe
  have htotal := hr.total
  unfold zmgmtSendOpenZone
  cases hz : (s.zoneDescs zid).state with
  | empty =>
    have hopen : (s.zoneDescs zid).isOpen = false := by simp [ZoneDescriptor.isOpen, hz]
    have hactive : (s.zoneDescs zid).isActive = false := by simp [ZoneDescriptor.isActive, hopen, hz]
    rw [hactive] at hale
    dsimp only
    split_ifs with hna hno hzrwa hfull
    · exact .refused (by simp) (by simp)
    · exact .refused (by simp) (by simp)
    · exact .refused (by simp) (by simp)
    · have hlt : s.acquired .zrwaZone < c.zp.nrZones := by
        refine lt_of_le_of_ne hr.zrwaLe fun h => hfull ?_
        rw [← htotal .zrwaZone] at h
        exact decide_eq_true h
      have hn := c.nrZones_lt
      rw [acquire_eq .zrwaZone (by rw [htotal]; exact hlt) (by omega), acquire_eq .activeZone
        (by simpa [htotal] using Nat.lt_of_succ_le hale) (by simpa using hale.trans_lt hn),
        openClosedZone_eq hr hopen _ (by simp) (by simp)]
      exact .done (changeZoneState_state _ zid _)
    · rw [acquire_active hr hactive, openClosedZone_eq hr hopen _ (by simp) (by simp)]
      exact .done (changeZoneState_state _ zid _)
  | closed =>
    have hopen : (s.zoneDescs zid).isOpen = false := by simp [ZoneDescriptor.isOpen, hz]
    dsimp only
    rw [openClosedZone_eq hr hopen s rfl rfl]
    exact .done (changeZoneState_state _ zid _)
  | openedImpl => exact .done (changeZoneState_state s zid _)
  | openedExpl => exact .done hz
  | _ => exact .refused (by simp) (by simp)

theorem resetZone_done (hr : Room c s (s.zoneDescs zid)) (hl : LaidOut c s) :
    DoneOrRefused s zid (fun z => z.state = .empty ∧ z.wp = u64 (zid * lbasPerZone c) ∧ z.zrwav = false)
      (zmgmtSendResetZone c s zid) := by
  by_cases hstate : (s.zoneDescs zid).state ≠ .readOnly ∧ (s.zoneDescs zid).state ≠ .offline
  · have hdescs := (resetZone_move hr hstate.1 hstate.2).descs
    have hst : (zmgmtSendResetZone c s zid).1 = .success := by
      unfold zmgmtSendResetZone
      cases hz : (s.zoneDescs zid).state with
      | readOnly => exact absurd hz hstate.1
      | offline => exact absurd hz hstate.2
      | _ => rfl
    refine .inl ⟨hst, ?_⟩
    rw [hdescs, update_self]
    exact ⟨rfl, (hl zid).zslba, rfl⟩
  · unfold zmgmtSendResetZone
    cases hz : (s.zoneDescs zid).state with
    | readOnly | offline => exact .refused (by simp) (by simp)
    | _ => exact absurd ⟨by simp [hz], by simp [hz]⟩ hstate

/-- Blocks behind the 32-bit end of a zone are not flushed, so the end that is compared
    with the write pointer is the end of the zone. -/
theorem zoneEnd_of_flush (hge : zoneStart c zid ≤ slba)
    (hend : slba ≤ sub64 (u64 (zoneToSlba c zid + lbasPerZone c)) 1)
    (hne : u64 (slba + 1) ≠ u64 (zoneToSlba c zid + lbasPerZone c)) : slba + 1 ≠ zoneStart c zid + lbasPerZone c := by
  have hlbas := lbasPerZone_lt c
  unfold zoneToSlba u32 at hend hne
  unfold zoneStart at hge ⊢
  generalize zid * lbasPerZone c = start at *
  unfold sub64 u64 at hend
  unfold u64 at hne
  omega

theorem flushExplicitZrwa_done (hfg : 1 ≤ c.zp.lbasPerZrwafg) (hl : LaidOut c s)
    (hzid : lbaToZone c slba = zid) (hge : zoneStart c zid ≤ slba) (hu : u64 (slba + 1) = slba + 1) :
    ∃ r, zmgmtSendFlushExplicitZrwa c s slba = .ok r ∧ DoneOrRefused s zid
      (fun z => z.wp = slba + 1 ∧ (slba + 1 = zoneStart c zid + lbasPerZone c → z.state = .full)) r := by
  have hcap : (s.zoneDescs zid).zoneCapacity = lbasPerZone c := (hl zid).zoneCapacity
  unfold zmgmtSendFlushExplicitZrwa
  dsimp only
  rw [hzid, hcap]
  generalize hz' : s.zoneDescs zid = z
  by_cases hw : z.zrwav = false
  · rw [if_pos hw]
    exact ⟨_, rfl, .refused (by simp) (by simp)⟩
  rw [if_neg hw]
  by_cases hin : ¬ (z.wp ≤ slba ∧ slba ≤ min (sub64 (u64 (z.wp + c.zp.lbasPerZrwa)) 1)
    (sub64 (u64 (zoneToSlba c zid + lbasPerZone c)) 1))
  · rw [if_pos hin]
    exact ⟨_, rfl, .refused (by simp) (by simp)⟩
  rw [if_neg hin, require_pos (Nat.one_le_iff_ne_zero.1 hfg), ok_bind]
  rw [not_not] at hin
  have hend := hin.2.trans (min_le_right _ _)
  by_cases hmod : u64 (sub64 slba z.wp + 1) % c.zp.lbasPerZrwafg ≠ 0
  · rw [if_pos hmod]
    exact ⟨_, rfl, .refused (by simp) (by simp)⟩
  rw [if_neg hmod]
  cases hz : z.state with
  | openedExpl | openedImpl | closed =>
    dsimp only
    by_cases hstop : u64 (slba + 1) = u64 (zoneToSlba c zid + lbasPerZone c)
    · rw [if_pos hstop]
      refine ⟨_, rfl, .done ?_⟩
      rw [flushFull_state, ZnsFtl.setZone_zoneDescs, update_self]
      exact ⟨hu, fun _ => rfl⟩
    · rw [if_neg hstop]
      refine ⟨_, rfl, .done ?_⟩
      rw [ZnsFtl.setZone_zoneDescs, update_self]
      exact ⟨hu, fun heq => absurd heq (zoneEnd_of_flush hge hend hstop)⟩
  | _ => exact ⟨_, rfl, .refused (by simp) (by simp)⟩

/-! ## The command -/

theorem DoneOrRefused.atomic {r : ZnsStatus × ZnsFtl} (h : DoneOrRefused s zid p r) (ok : Bool)
    (hok : r.1.MayRead ok) : if ok then p (r.2.zoneDescs zid) else r.2 = s := by
  obtain ⟨st, s'⟩ := r
  rcases h with ⟨hst, hp⟩ | ⟨hst, hst', hs⟩
  · cases hst
    cases hok
    exact hp
  · cases st with
    | success => exact absurd rfl hst
    | indeterminate => exact absurd rfl hst'
    | _ => cases hok; exact hs

/-- An action that is implemented is done, or refused. -/
theorem zmgmtSend_done (hfg : 1 ≤ c.zp.lbasPerZrwafg) (hc : ZonesCounted c s) (hl : LaidOut c s)
    (hlt : zid < c.zp.nrZones) (hge : zoneStart c zid ≤ slba) (hslba : slba < zoneStart c zid + lbasPerZone c)
    (haction : Implemented action) : ∃ r, zmgmtSend c s slba action option = .ok r ∧
      DoneOrRefused s zid (Transition action slba (zoneStart c zid) (zoneStart c zid + lbasPerZone c)) r := by
  have hzid := lbaToZone_eq hlt hge hslba
  have hr := hc.room hlt
  have hlbas := lbasPerZone_lt c
  have hn := c.nrZones_lt
  have hstart : zoneStart c zid < 2 ^ 55 := by
    have hmul : zid * lbasPerZone c < 2 ^ 32 * 2 ^ 23 := Nat.mul_lt_mul'' (by omega) hlbas
    unfold zoneStart
    omega
  unfold zmgmtSend
  dsimp only
  rw [hzid]
  rcases haction with rfl | rfl | rfl | rfl | rfl | rfl
  · exact ⟨_, rfl, closeZone_done s zid⟩
  · exact ⟨_, rfl, finishZone_done s zid⟩
  · exact ⟨_, rfl, openZone_done hr option⟩
  · have hu : u64 (zid * lbasPerZone c) = zoneStart c zid := Nat.mod_eq_of_lt (by unfold zoneStart at hstart; omega)
    have hreset := resetZone_done hr hl
    rw [hu] at hreset
    exact ⟨_, rfl, hreset⟩
  · exact ⟨_, rfl, offlineZone_done s zid⟩
  · exact flushExplicitZrwa_done hfg hl hzid hge (Nat.mod_eq_of_lt (by omega))

/-- Any other action changes nothing and returns whatever is there. -/
theorem zmgmtSend_unknown (haction : ¬ Implemented action) :
    zmgmtSend c s slba action option = .ok (.indeterminate, s) := by
  simp only [Implemented, not_or] at haction
  unfold zmgmtSend
  dsimp only
  rw [if_neg haction.1, if_neg haction.2.1, if_neg haction.2.2.1, if_neg haction.2.2.2.1,
    if_neg haction.2.2.2.2.1, if_neg haction.2.2.2.2.2]

/-- **A command on one zone is atomic** and reports what it did, exactly if its action is
    implemented. -/
theorem zone_management_atomic {cmd : ZmgmtSendCommand} (hfg : 1 ≤ c.zp.lbasPerZrwafg)
    (haddr : ∀ e ∈ es, e.Addressed c)
    (hrun : (znsMachine c).run (znsInitFtl c clock storage) es = .ok s) (hlt : zid < c.zp.nrZones)
    (hone : cmd.selectAll = false) (hge : zoneStart c zid ≤ cmd.slba.toNat)
    (hslba : cmd.slba.toNat < zoneStart c zid + lbasPerZone c) :
    SendAtomic c s zid cmd ↔ Implemented cmd.zsa := by
  obtain ⟨hc, hl⟩ := LaidOut.run haddr hrun
  unfold SendAtomic znsZmgmtSend
  simp only [hone, Bool.false_eq_true, if_false]
  constructor
  · rintro ⟨r, hsend, hr⟩
    by_contra haction
    rw [zmgmtSend_unknown haction] at hsend
    cases hsend
    have hnone := hr true trivial
    simp only [Implemented, not_or] at haction
    simp only [if_true, Transition, if_neg haction.1, if_neg haction.2.1, if_neg haction.2.2.1,
      if_neg haction.2.2.2.1, if_neg haction.2.2.2.2.1, if_neg haction.2.2.2.2.2] at hnone
  · intro haction
    obtain ⟨r, hsend, hr⟩ := zmgmtSend_done hfg hc hl hlt hge hslba haction
    exact ⟨r, hsend, fun ok hok => hr.atomic ok hok⟩

/-- The page in the random write area of the first zone is flushed. -/
def flushPage : ZmgmtSendCommand := ⟨7, ZSA_FLUSH_EXPL_ZRWA, false, false⟩

theorem zone_management_atomic_flush :
    ∃ s, (znsMachine zrwaZones).run (znsInitFtl zrwaZones (fun _ => 0) fun _ => 0) openZrwaWrite = .ok s ∧
      SendAtomic zrwaZones s 0 flushPage := by
  have haddr : ∀ e ∈ openZrwaWrite, e.Addressed zrwaZones := by
    simpa using openZrwaWrite_addressed [] (List.forall_mem_nil _)
  have hmap : ((znsMachine zrwaZones).run (znsInitFtl zrwaZones (fun _ => 0) fun _ => 0)
      openZrwaWrite).map (fun s => (s.zoneDescs 0).state) = .ok .openedExpl := by decide +kernel
  obtain ⟨s, hrun, -⟩ := exists_ok_of_map hmap
  exact ⟨s, hrun, (zone_management_atomic (by decide) haddr hrun (by decide) rfl (by decide) (by decide)).2
    (by decide)⟩

/-- An action of zero on a new namespace: nothing is done, and the command may report
    success. -/
theorem zone_management_atomic_unknown :
    ¬ SendAtomic zrwaZones (znsInitFtl zrwaZones (fun _ => 0) fun _ => 0) 0 ⟨0, 0, false, false⟩ := by
  rintro ⟨r, hsend, hr⟩
  have hunknown : znsZmgmtSend zrwaZones (znsInitFtl zrwaZones (fun _ => 0) fun _ => 0) ⟨0, 0, false, false⟩ =
      .ok (.indeterminate, znsInitFtl zrwaZones (fun _ => 0) fun _ => 0) := rfl
  rw [hunknown] at hsend
  cases hsend
  exact hr true trivial

end WaitGc

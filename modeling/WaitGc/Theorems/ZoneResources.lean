/-
  WAITGC verification — the accounting of zone resources.

  `zone_resources_counted`: in every run of a zoned namespace the counters of
  open and of active zones are the numbers of such zones, and no release finds
  its counter at zero.  The commands are any commands addressed to existing
  zones, with or without random write areas.
-/
import WaitGc.Proof.ZoneWrites
import WaitGc.Zns.Device

namespace WaitGc

open Outcome Function

variable {c : ZnsCfg} {s s' : ZnsFtl} {clock storage : ℕ → ℕ} {es : List ZnsEvent}

/-- A command of the run is addressed to existing zones. -/
def ZnsEvent.Addressed (c : ZnsCfg) : ZnsEvent → Prop
  | .command req => req.cmd.Addressed c
  | .fire _ => True

/-- The counters of open and active zones are right, within their totals, and never
    wrapped. -/
structure ResourcesCounted (c : ZnsCfg) (s : ZnsFtl) : Prop where
  opened : (s.resInfos .openZone).acquiredCnt = ((Finset.range c.zp.nrZones).filter fun zid =>
    (s.zoneDescs zid).state = .openedImpl ∨ (s.zoneDescs zid).state = .openedExpl).card
  active : (s.resInfos .activeZone).acquiredCnt = ((Finset.range c.zp.nrZones).filter fun zid =>
    (s.zoneDescs zid).state = .openedImpl ∨ (s.zoneDescs zid).state = .openedExpl ∨
      (s.zoneDescs zid).state = .closed).card
  openedLe : (s.resInfos .openZone).acquiredCnt ≤ (s.resInfos .openZone).totalCnt
  activeLe : (s.resInfos .activeZone).acquiredCnt ≤ (s.resInfos .activeZone).totalCnt
  noUnderflow : s.underflows = 0

/-- **Every event keeps the counters right.** -/
theorem ZonesCounted.step {e : ZnsEvent} (hc : ZonesCounted c s) (haddr : e.Addressed c)
    (h : (znsMachine c).step s e = .ok s') : ZonesCounted c s' := by
  cases e with
  | command req =>
    cases ho : znsProcNvmeIoCmd c s req with
    | error f => simp [znsMachine, ho, Except.map] at h
    | ok o =>
      simp only [znsMachine, ho, Except.map, Except.ok.injEq] at h
      exact h ▸ hc.command haddr ho
  | fire i =>
    simp only [znsMachine, Except.ok.injEq] at h
    exact h ▸ hc.same (s.fire_same i)

theorem ZonesCounted.run (haddr : ∀ e ∈ es, e.Addressed c) (hc : ZonesCounted c s)
    (h : (znsMachine c).run s es = .ok s') : ZonesCounted c s' := by
  refine (Machine.run_sat (E := fun _ => True) ?_ hc (Machine.along_of_forall haddr)).of_ok h
  intro s e hc haddr
  cases hs : (znsMachine c).step s e with
  | error f => trivial
  | ok s₁ => exact hc.step haddr hs

theorem ZonesCounted.resources (hc : ZonesCounted c s) : ResourcesCounted c s := by
  have hle (p : ZoneDescriptor → Bool) : s.numZones c.zp.nrZones p ≤ c.zp.nrZones :=
    (Finset.card_filter_le _ _).trans_eq (Finset.card_range _)
  constructor
  · refine hc.opened.trans ?_
    simp [ZnsFtl.numZones, ZoneDescriptor.isOpen]
  · refine hc.active.trans ?_
    simp [ZnsFtl.numZones, ZoneDescriptor.isActive, ZoneDescriptor.isOpen, or_assoc]
  · rw [hc.total]; exact hc.opened.trans_le (hle _)
  · rw [hc.total]; exact hc.active.trans_le (hle _)
  · exact hc.underflows

/-- **The resources of zones are accounted for**, in every reachable state. -/
theorem zone_resources_counted (haddr : ∀ e ∈ es, e.Addressed c)
    (hrun : (znsMachine c).run (znsInitFtl c clock storage) es = .ok s) : ResourcesCounted c s :=
  ((zonesCounted_init c clock storage).run haddr hrun).resources

/-- A zone is opened, another one is written, and both are closed. -/
def openWriteClose : List ZnsEvent :=
  [.command ⟨.mgmtSend ⟨0, ZSA_OPEN_ZONE, false, false⟩, 1, 0⟩,
    .command ⟨.append ⟨0x400000, 0, 0⟩, 1, 0⟩,
    .command ⟨.mgmtSend ⟨0, ZSA_CLOSE_ZONE, true, false⟩, 1, 0⟩]

theorem zone_resources_counted_openWriteClose :
    ∃ s, (znsMachine zn540).run (znsInitFtl zn540 (fun _ => 0) fun _ => 0) openWriteClose = .ok s ∧
      (s.resInfos .activeZone).acquiredCnt = 2 ∧ ResourcesCounted zn540 s := by
  have haddr : ∀ e ∈ openWriteClose, e.Addressed zn540 := by
    simp only [openWriteClose, List.forall_mem_cons]
    refine ⟨?_, ?_, ?_, List.forall_mem_nil _⟩
    · exact .inr (by decide)
    · show lbaToZone zn540 _ < 2
      decide
    · exact .inl rfl
  obtain ⟨s, hrun, hactive⟩ := exists_ok_of_map
    (f := fun s : ZnsFtl => (s.resInfos .activeZone).acquiredCnt)
    (show ((znsMachine zn540).run (znsInitFtl zn540 (fun _ => 0) fun _ => 0) openWriteClose).map
      (fun s => (s.resInfos .activeZone).acquiredCnt) = .ok 2 by decide)
  exact ⟨s, hrun, hactive, zone_resources_counted haddr hrun⟩

end WaitGc

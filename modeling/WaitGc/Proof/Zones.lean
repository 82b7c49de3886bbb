/-
  WAITGC verification — what a command does to its zone.

  A handler changes the descriptor of one zone, and the counters of the
  resources by what the zone held before and holds afterwards (`ZoneMove`).
  `ZonesCounted` says that the counters are those of the zones; it leaves room for
  every move: a zone that is not open finds an open-zone resource, because
  there are as many of them as zones.
-/
import WaitGc.Lib.Tally
import WaitGc.Zns.Namespace

namespace WaitGc

open Outcome Function Tally

variable {c : ZnsCfg} {s s' : ZnsFtl} {zid : ℕ} {z z' : ZoneDescriptor}

/-! ## Zones and the resources they hold -/

/-- `OPENED_IMPL` or `OPENED_EXPL` -/
def ZoneDescriptor.isOpen (z : ZoneDescriptor) : Bool :=
  z.state = .openedImpl ∨ z.state = .openedExpl

/-- `OPENED_IMPL`, `OPENED_EXPL` or `CLOSED` -/
def ZoneDescriptor.isActive (z : ZoneDescriptor) : Bool := z.isOpen || z.state = .closed

/-- An active zone with a random write area. -/
def ZoneDescriptor.hasZrwa (z : ZoneDescriptor) : Bool := z.isActive && z.zrwav

/-- The number of zones in `p`. -/
def ZnsFtl.numZones (s : ZnsFtl) (n : ℕ) (p : ZoneDescriptor → Bool) : ℕ :=
  ((Finset.range n).filter fun zid => p (s.zoneDescs zid) = true).card

/-- The number of resources of a type that are taken. -/
def ZnsFtl.acquired (s : ZnsFtl) (type : ZoneResourceType) : ℕ := (s.resInfos type).acquiredCnt

/-- The counters are those of the zones. -/
structure ZonesCounted (c : ZnsCfg) (s : ZnsFtl) : Prop where
  opened : s.acquired .openZone = s.numZones c.zp.nrZones (·.isOpen)
  active : s.acquired .activeZone = s.numZones c.zp.nrZones (·.isActive)
  -- a zone that fills up through its random write area keeps the resource
  zrwa : s.numZones c.zp.nrZones (·.hasZrwa) ≤ s.acquired .zrwaZone
  zrwaLe : s.acquired .zrwaZone ≤ c.zp.nrZones
  total : ∀ type, (s.resInfos type).totalCnt = c.zp.nrZones
  empty : ∀ zid, (s.zoneDescs zid).state = .empty → (s.zoneDescs zid).zrwav = false
  underflows : s.underflows = 0

/-- A handler changed zone `zid` to `z`. -/
structure ZoneMove (c : ZnsCfg) (s : ZnsFtl) (zid : ℕ) (z : ZoneDescriptor) (s' : ZnsFtl) : Prop where
  descs : s'.zoneDescs = update s.zoneDescs zid z
  opened : s'.acquired .openZone + (s.zoneDescs zid).isOpen.toNat =
    s.acquired .openZone + z.isOpen.toNat
  active : s'.acquired .activeZone + (s.zoneDescs zid).isActive.toNat =
    s.acquired .activeZone + z.isActive.toNat
  zrwa : s.acquired .zrwaZone + z.hasZrwa.toNat ≤
    s'.acquired .zrwaZone + (s.zoneDescs zid).hasZrwa.toNat
  zrwaLe : s'.acquired .zrwaZone ≤ c.zp.nrZones
  total : ∀ type, (s'.resInfos type).totalCnt = (s.resInfos type).totalCnt
  empty : z.state = .empty → z.zrwav = false
  underflows : s'.underflows = s.underflows

/-- The move accounts for the random write area of the zone, too. -/
structure ExactMove (c : ZnsCfg) (s : ZnsFtl) (zid : ℕ) (z : ZoneDescriptor) (s' : ZnsFtl) : Prop extends
    ZoneMove c s zid z s' where
  zrwaEq : s'.acquired .zrwaZone + (s.zoneDescs zid).hasZrwa.toNat =
    s.acquired .zrwaZone + z.hasZrwa.toNat

/-- What the counters say about one zone. -/
structure Room (c : ZnsCfg) (s : ZnsFtl) (z : ZoneDescriptor) : Prop where
  opened : z.isOpen.toNat ≤ s.acquired .openZone
  openedLe : s.acquired .openZone + 1 ≤ c.zp.nrZones + z.isOpen.toNat
  active : z.isActive.toNat ≤ s.acquired .activeZone
  activeLe : s.acquired .activeZone + 1 ≤ c.zp.nrZones + z.isActive.toNat
  zrwa : z.hasZrwa.toNat ≤ s.acquired .zrwaZone
  zrwaLe : s.acquired .zrwaZone ≤ c.zp.nrZones
  total : ∀ type, (s.resInfos type).totalCnt = c.zp.nrZones
  empty : z.state = .empty → z.zrwav = false

/-! ## Counting -/

theorem numZones_eq_tally (s : ZnsFtl) (n : ℕ) (p : ZoneDescriptor → Bool) :
    s.numZones n p = tally (Finset.range n) (p ∘ s.zoneDescs) true := rfl

theorem numZones_update {n : ℕ} (p : ZoneDescriptor → Bool) (hzid : zid < n)
    (h : s'.zoneDescs = update s.zoneDescs zid z) :
    s'.numZones n p + (p (s.zoneDescs zid)).toNat = s.numZones n p + (p z).toNat := by
  have hcond (b : Bool) : b.toNat = if b = true then 1 else 0 := by cases b <;> rfl
  rw [numZones_eq_tally, numZones_eq_tally, h, Function.comp_update, hcond, hcond]
  exact tally_update (Finset.mem_range.2 hzid) _ _

/-- A zone that is in `p` counts, and one that is not leaves `p` short of all zones. -/
theorem numZones_bounds {n : ℕ} (p : ZoneDescriptor → Bool) (hzid : zid < n) :
    (p (s.zoneDescs zid)).toNat ≤ s.numZones n p ∧
      s.numZones n p + 1 ≤ n + (p (s.zoneDescs zid)).toNat := by
  have hmem := Finset.mem_range.2 hzid
  have hcard : s.numZones n p ≤ n := by
    rw [numZones_eq_tally]
    exact (tally_le_card _ _ _).trans_eq (Finset.card_range n)
  cases hp : p (s.zoneDescs zid) with
  | true =>
    have := tally_pos (f := p ∘ s.zoneDescs) hmem hp
    exact ⟨this, by simpa using hcard⟩
  | false =>
    refine ⟨Nat.zero_le _, lt_of_le_of_ne hcard fun h => ?_⟩
    have hall := (tally_eq_card (S := Finset.range n) (f := p ∘ s.zoneDescs) (b := true)).1
      (by rw [← numZones_eq_tally, h, Finset.card_range]) zid hmem
    rw [Function.comp_apply, hp] at hall
    cases hall

theorem ZonesCounted.room (h : ZonesCounted c s) (hzid : zid < c.zp.nrZones) : Room c s (s.zoneDescs zid) where
  opened := h.opened ▸ (numZones_bounds (·.isOpen) hzid).1
  openedLe := h.opened ▸ (numZones_bounds (·.isOpen) hzid).2
  active := h.active ▸ (numZones_bounds (·.isActive) hzid).1
  activeLe := h.active ▸ (numZones_bounds (·.isActive) hzid).2
  zrwa := (numZones_bounds (·.hasZrwa) hzid).1.trans h.zrwa
  zrwaLe := h.zrwaLe
  total := h.total
  empty := h.empty zid

/-- **A move keeps the counters right.** -/
theorem ZonesCounted.move (h : ZonesCounted c s) (hzid : zid < c.zp.nrZones) (hm : ZoneMove c s zid z s') :
    ZonesCounted c s' where
  opened := by
    have := numZones_update (·.isOpen) hzid hm.descs
    have := hm.opened
    have := h.opened
    omega
  active := by
    have := numZones_update (·.isActive) hzid hm.descs
    have := hm.active
    have := h.active
    omega
  zrwa := by
    have := numZones_update (·.hasZrwa) hzid hm.descs
    have := hm.zrwa
    have := h.zrwa
    omega
  zrwaLe := hm.zrwaLe
  total type := (hm.total type).trans (h.total type)
  empty j hj := by
    rw [hm.descs] at hj ⊢
    rcases eq_or_ne j zid with rfl | hne
    · rw [update_self] at hj ⊢; exact hm.empty hj
    · rw [update_of_ne hne] at hj ⊢; exact h.empty j hj
  underflows := hm.underflows.trans h.underflows

theorem ZonesCounted.congr (h : ZonesCounted c s) (hd : s'.zoneDescs = s.zoneDescs)
    (hr : s'.resInfos = s.resInfos) (hu : s'.underflows = s.underflows) : ZonesCounted c s' := by
  obtain ⟨h₁, h₂, h₃, h₄, h₅, h₆, h₇⟩ := h
  constructor <;> simp only [ZnsFtl.acquired, ZnsFtl.numZones, hd, hr, hu] at * <;> assumption

/-! ## Moves -/

theorem ZoneMove.refl (hr : Room c s (s.zoneDescs zid)) : ZoneMove c s zid (s.zoneDescs zid) s where
  descs := (update_eq_self _ _).symm
  opened := rfl
  active := rfl
  zrwa := le_rfl
  zrwaLe := hr.zrwaLe
  total _ := rfl
  empty := hr.empty
  underflows := rfl

theorem ZoneMove.trans {s'' : ZnsFtl} (h : ZoneMove c s zid z s') (h' : ZoneMove c s' zid z' s'') :
    ZoneMove c s zid z' s'' := by
  have hz : s'.zoneDescs zid = z := by rw [h.descs, update_self]
  have ho := h'.opened
  have ha := h'.active
  have hw := h'.zrwa
  rw [hz] at ho ha hw
  refine ⟨by rw [h'.descs, h.descs, update_idem], ?_, ?_, ?_, h'.zrwaLe,
    fun type => (h'.total type).trans (h.total type), h'.empty, h'.underflows.trans h.underflows⟩
  · have := h.opened
    omega
  · have := h.active
    omega
  · have := h.zrwa
    omega

theorem ExactMove.refl (hr : Room c s (s.zoneDescs zid)) : ExactMove c s zid (s.zoneDescs zid) s :=
  ⟨.refl hr, rfl⟩

theorem ExactMove.trans {s'' : ZnsFtl} (h : ExactMove c s zid z s') (h' : ExactMove c s' zid z' s'') :
    ExactMove c s zid z' s'' := by
  have hz : s'.zoneDescs zid = z := by rw [h.descs, update_self]
  have hw := h.zrwaEq
  have hw' := h'.zrwaEq
  rw [hz] at hw'
  exact ⟨h.toZoneMove.trans h'.toZoneMove, by omega⟩

theorem ZoneMove.room (hm : ZoneMove c s zid z s') (hr : Room c s (s.zoneDescs zid)) :
    Room c s' (s'.zoneDescs zid) := by
  have h₁ := hm.opened
  have h₂ := hm.active
  have h₃ := hm.zrwa
  have h₄ := hr.opened
  have h₅ := hr.openedLe
  have h₆ := hr.active
  have h₇ := hr.activeLe
  have h₈ := hr.zrwa
  rw [hm.descs, update_self]
  exact ⟨by omega, by omega, by omega, by omega, by omega, hm.zrwaLe,
    fun type => (hm.total type).trans (hr.total type), hm.empty⟩

namespace ZnsFtl

@[simp] theorem setAcquired_zoneDescs (s : ZnsFtl) (type : ZoneResourceType) (n : ℕ) :
    (s.setAcquired type n).zoneDescs = s.zoneDescs := rfl

@[simp] theorem setAcquired_underflows (s : ZnsFtl) (type : ZoneResourceType) (n : ℕ) :
    (s.setAcquired type n).underflows = s.underflows := rfl

@[simp] theorem setAcquired_acquired (s : ZnsFtl) (type type' : ZoneResourceType) (n : ℕ) :
    (s.setAcquired type n).acquired type' = if type' = type then n else s.acquired type' := by
  by_cases h : type' = type
  · subst h; simp [acquired, setAcquired]
  · simp [acquired, setAcquired, h]

@[simp] theorem setAcquired_total (s : ZnsFtl) (type type' : ZoneResourceType) (n : ℕ) :
    ((s.setAcquired type n).resInfos type').totalCnt = (s.resInfos type').totalCnt := by
  by_cases h : type' = type
  · subst h; simp [setAcquired]
  · simp [setAcquired, h]

theorem setAcquired_eq_self {s : ZnsFtl} {type : ZoneResourceType} {n : ℕ} (h : n = s.acquired type) :
    s.setAcquired type n = s := by
  simp [setAcquired, acquired, h]

@[simp] theorem setZone_zoneDescs (s : ZnsFtl) (zid : ℕ) (z : ZoneDescriptor) :
    (s.setZone zid z).zoneDescs = update s.zoneDescs zid z := rfl

@[simp] theorem setZone_resInfos (s : ZnsFtl) (zid : ℕ) (z : ZoneDescriptor) :
    (s.setZone zid z).resInfos = s.resInfos := rfl

@[simp] theorem setZone_acquired (s : ZnsFtl) (zid : ℕ) (z : ZoneDescriptor) :
    (s.setZone zid z).acquired = s.acquired := rfl

@[simp] theorem setZone_underflows (s : ZnsFtl) (zid : ℕ) (z : ZoneDescriptor) :
    (s.setZone zid z).underflows = s.underflows := rfl

@[simp] theorem changeZoneState_zoneDescs (s : ZnsFtl) (zid : ℕ) (state : ZoneState) :
    (s.changeZoneState zid state).zoneDescs =
      update s.zoneDescs zid { s.zoneDescs zid with state } := rfl

@[simp] theorem changeZoneState_resInfos (s : ZnsFtl) (zid : ℕ) (state : ZoneState) :
    (s.changeZoneState zid state).resInfos = s.resInfos := rfl

@[simp] theorem changeZoneState_acquired (s : ZnsFtl) (zid : ℕ) (state : ZoneState) :
    (s.changeZoneState zid state).acquired = s.acquired := rfl

@[simp] theorem changeZoneState_underflows (s : ZnsFtl) (zid : ℕ) (state : ZoneState) :
    (s.changeZoneState zid state).underflows = s.underflows := rfl

end ZnsFtl

theorem release_eq (type : ZoneResourceType) (h : 0 < s.acquired type)
    (hlt : s.acquired type < 2 ^ 32) :
    s.releaseZoneResource type = s.setAcquired type (s.acquired type - 1) := by
  unfold ZnsFtl.acquired at h hlt ⊢
  have hu : u32 ((s.resInfos type).acquiredCnt + 2 ^ 32 - 1) = (s.resInfos type).acquiredCnt - 1 := by
    unfold u32; omega
  unfold ZnsFtl.releaseZoneResource
  dsimp only
  rw [if_neg h.ne', hu]
  rfl

theorem acquire_eq (type : ZoneResourceType) (h : s.acquired type < (s.resInfos type).totalCnt)
    (hlt : s.acquired type + 1 < 2 ^ 32) :
    s.acquireZoneResource type = (true, s.setAcquired type (s.acquired type + 1)) := by
  unfold ZnsFtl.acquired at h hlt ⊢
  have hu : u32 ((s.resInfos type).acquiredCnt + 1) = (s.resInfos type).acquiredCnt + 1 := by
    unfold u32; omega
  unfold ZnsFtl.acquireZoneResource
  rw [if_pos (by simpa [ZnsFtl.isZoneResourceAvail] using h), hu]

theorem not_full {type : ZoneResourceType} (h : s.acquired type < (s.resInfos type).totalCnt) :
    s.isZoneResourceFull type = false := by
  unfold ZnsFtl.acquired at h
  simpa [ZnsFtl.isZoneResourceFull] using h.ne

theorem Room.lt (hr : Room c s z) (type : ZoneResourceType) : s.acquired type < 2 ^ 32 := by
  have hn := c.nrZones_lt
  have hopen := hr.openedLe
  have hactive := hr.activeLe
  have hzrwa := hr.zrwaLe
  have h₁ := Bool.toNat_le z.isOpen
  have h₂ := Bool.toNat_le z.isActive
  cases type <;> omega

/-- The resources of a zone are given back. -/
def ZnsFtl.giveBack (s : ZnsFtl) (z : ZoneDescriptor) : ZnsFtl :=
  ((s.setAcquired .openZone (s.acquired .openZone - z.isOpen.toNat)).setAcquired .activeZone
    (s.acquired .activeZone - z.isActive.toNat)).setAcquired .zrwaZone
      (s.acquired .zrwaZone - z.hasZrwa.toNat)

theorem giveBack_eq (hr : Room c s z) (hactive : z.isActive = true) :
    ((if z.isOpen then s.releaseZoneResource .openZone else s).releaseZoneResource
      .activeZone).releaseZrwa z.zrwav = s.giveBack z := by
  have ho : (if z.isOpen then s.releaseZoneResource .openZone else s) =
      s.setAcquired .openZone (s.acquired .openZone - z.isOpen.toNat) := by
    have h := hr.opened
    cases hz : z.isOpen with
    | true => rw [hz] at h; exact release_eq _ h (hr.lt _)
    | false => exact (ZnsFtl.setAcquired_eq_self rfl).symm
  rw [ho, ZnsFtl.giveBack, ZnsFtl.releaseZrwa, ZoneDescriptor.hasZrwa, hactive]
  have h : 0 < s.acquired .activeZone := by have := hr.active; rw [hactive] at this; exact this
  rw [release_eq .activeZone (by simpa using h) (by simpa using hr.lt _)]
  cases hw : z.zrwav with
  | true =>
    have h : 0 < s.acquired .zrwaZone := by
      have := hr.zrwa
      rw [ZoneDescriptor.hasZrwa, hactive, hw] at this
      exact this
    rw [if_pos rfl, release_eq .zrwaZone (by simpa using h) (by simpa using hr.lt _)]
    simp
  | false => exact (ZnsFtl.setAcquired_eq_self (by simp)).symm

theorem ZoneMove.congr {s'' : ZnsFtl} (h : ZoneMove c s zid z s') (hd : s''.zoneDescs = s'.zoneDescs)
    (hres : s''.resInfos = s'.resInfos) (hu : s''.underflows = s'.underflows) :
    ZoneMove c s zid z s'' := by
  obtain ⟨h₁, h₂, h₃, h₄, h₅, h₆, h₇, h₈⟩ := h
  constructor <;> simp only [ZnsFtl.acquired, hd, hres, hu] at * <;> assumption

theorem ExactMove.congr {s'' : ZnsFtl} (h : ExactMove c s zid z s') (hd : s''.zoneDescs = s'.zoneDescs)
    (hres : s''.resInfos = s'.resInfos) (hu : s''.underflows = s'.underflows) :
    ExactMove c s zid z s'' := by
  refine ⟨h.toZoneMove.congr hd hres hu, ?_⟩
  have hw := h.zrwaEq
  rwa [show s''.acquired .zrwaZone = s'.acquired .zrwaZone by rw [ZnsFtl.acquired, ZnsFtl.acquired, hres]]

theorem giveBack_move (hr : Room c s (s.zoneDescs zid)) (hz : z.isActive = false)
    (hempty : z.state = .empty → z.zrwav = false) :
    ExactMove c s zid z ((s.giveBack (s.zoneDescs zid)).setZone zid z) := by
  have hopen : z.isOpen = false := by
    simp only [ZoneDescriptor.isActive, Bool.or_eq_false_iff] at hz; exact hz.1
  have hzrwa : z.hasZrwa = false := by rw [ZoneDescriptor.hasZrwa, hz]; rfl
  have h₁ := hr.opened
  have h₂ := hr.active
  have h₃ := hr.zrwa
  have h₄ := hr.zrwaLe
  refine ⟨?_, ?_⟩
  · constructor
    · rfl
    · simp [ZnsFtl.giveBack, hopen]; omega
    · simp [ZnsFtl.giveBack, hz]; omega
    · simp [ZnsFtl.giveBack, hzrwa]; omega
    · simp [ZnsFtl.giveBack]; omega
    · intro type
      simp [ZnsFtl.giveBack]
    · exact hempty
    · rfl
  · simp [ZnsFtl.giveBack, hzrwa]; omega

/-! ## Zone management -/

/-- The zone a reset leaves. -/
def ZoneDescriptor.reset (z : ZoneDescriptor) : ZoneDescriptor :=
  { z with state := .empty, wp := z.zslba, zrwav := false }

/-- The action resets a zone. -/
def ZoneDescriptor.Resets (z : ZoneDescriptor) (action : BitVec 8) : Prop :=
  action = ZSA_RESET_ZONE ∧ z.state ≠ .readOnly ∧ z.state ≠ .offline

instance (z : ZoneDescriptor) (action : BitVec 8) : Decidable (z.Resets action) :=
  inferInstanceAs (Decidable (_ ∧ _ ∧ _))

/-- What any other management command does to the descriptor of its zone; `zrwa` if it
    may ask for a random write area. -/
inductive MgmtStep (zrwa : Bool) (z : ZoneDescriptor) : ZoneDescriptor → Prop where
  | keep : MgmtStep zrwa z z
  | close : z.isOpen = true → MgmtStep zrwa z { z with state := .closed }
  | finish : MgmtStep zrwa z { z with state := .full }
  | opened : z.state = .empty ∨ z.isActive = true → MgmtStep zrwa z { z with state := .openedExpl }
  | openedZrwa : zrwa = true → MgmtStep zrwa z { z with state := .openedExpl, zrwav := true }
  | offline : z.state = .readOnly → MgmtStep zrwa z { z with state := .offline }
  | flush (wp : ℕ) (state : ZoneState) : z.zrwav = true → MgmtStep zrwa z { z with wp, state }

theorem isOpen_eq (z : ZoneDescriptor) :
    z.isOpen = true ↔ z.state = .openedImpl ∨ z.state = .openedExpl := by
  simp [ZoneDescriptor.isOpen]

theorem ZoneDescriptor.isActive_of_isOpen (h : z.isOpen = true) : z.isActive = true := by
  simp [isActive, h]

/-- What a management command does to the descriptor of its zone. -/
def ZoneDescriptor.Managed (z : ZoneDescriptor) (action : BitVec 8) (option : Bool)
    (z' : ZoneDescriptor) : Prop :=
  (z.Resets action ∧ z' = z.reset) ∨
    (¬ z.Resets action ∧ MgmtStep (action = ZSA_OPEN_ZONE && option) z z')

theorem closeZone_move (hr : Room c s (s.zoneDescs zid)) (zrwa : Bool) :
    ∃ z, MgmtStep zrwa (s.zoneDescs zid) z ∧ ExactMove c s zid z (zmgmtSendCloseZone s zid).2 := by
  unfold zmgmtSendCloseZone
  cases hz : (s.zoneDescs zid).state with
  | openedImpl | openedExpl =>
    have hopen : (s.zoneDescs zid).isOpen = true := by simp [ZoneDescriptor.isOpen, hz]
    have ho := hr.opened
    have hlt := hr.lt
    have hle := hr.zrwaLe
    rw [hopen] at ho
    refine ⟨_, .close hopen, ?_⟩
    dsimp only
    rw [release_eq (s := s.changeZoneState zid .closed) _ ho (hlt _)]
    refine ⟨?_, ?_⟩
    · constructor <;> simp [hz, hle, ZoneDescriptor.isOpen, ZoneDescriptor.isActive, ZoneDescriptor.hasZrwa]
      exact Nat.sub_add_cancel ho
    · simp [hz, ZoneDescriptor.isOpen, ZoneDescriptor.isActive, ZoneDescriptor.hasZrwa]
  | closed => exact ⟨_, .keep, .refl hr⟩
  | _ => exact ⟨_, .keep, .refl hr⟩

theorem giveBack_of_not_active (hz : z.isActive = false) : s.giveBack z = s := by
  have hopen : z.isOpen = false := by
    simp only [ZoneDescriptor.isActive, Bool.or_eq_false_iff] at hz; exact hz.1
  have hzrwa : z.hasZrwa = false := by rw [ZoneDescriptor.hasZrwa, hz]; rfl
  simp [ZnsFtl.giveBack, hz, hopen, hzrwa, ZnsFtl.setAcquired_eq_self]

theorem finishZone_move (hr : Room c s (s.zoneDescs zid)) (zrwa : Bool) :
    ∃ z, MgmtStep zrwa (s.zoneDescs zid) z ∧ ExactMove c s zid z (zmgmtSendFinishZone s zid).2 := by
  have hfinish := giveBack_move (z := { s.zoneDescs zid with state := .full }) hr
    (by simp [ZoneDescriptor.isActive, ZoneDescriptor.isOpen]) (by simp)
  have hback := giveBack_eq hr
  unfold zmgmtSendFinishZone
  cases hz : (s.zoneDescs zid).state with
  | openedImpl | openedExpl =>
    have hopen : (s.zoneDescs zid).isOpen = true := by simp [ZoneDescriptor.isOpen, hz]
    have h := hback (ZoneDescriptor.isActive_of_isOpen hopen)
    rw [if_pos hopen] at h
    refine ⟨_, .finish, ?_⟩
    dsimp only
    rw [h]
    exact hfinish
  | closed =>
    have hopen : (s.zoneDescs zid).isOpen = false := by simp [ZoneDescriptor.isOpen, hz]
    have h := hback (by simp [ZoneDescriptor.isActive, hz])
    simp only [hopen, Bool.false_eq_true, if_false] at h
    refine ⟨_, .finish, ?_⟩
    dsimp only
    rw [h]
    exact hfinish
  | empty =>
    rw [giveBack_of_not_active (by simp [ZoneDescriptor.isActive, ZoneDescriptor.isOpen, hz])] at hfinish
    exact ⟨_, .finish, hfinish⟩
  | _ => exact ⟨_, .keep, .refl hr⟩

theorem resetZone_setZone (s : ZnsFtl) (zid : ℕ) :
    let s' := resetZone c (s.changeZoneState zid .empty) zid
    s'.zoneDescs = (s.setZone zid (s.zoneDescs zid).reset).zoneDescs ∧ s'.resInfos = s.resInfos ∧
      s'.underflows = s.underflows := by
  dsimp only
  unfold resetZone ZoneDescriptor.reset
  dsimp only
  split_ifs <;> simp [ZnsFtl.setBuffer, ZnsFtl.setZone, ZnsFtl.changeZoneState]

theorem resetZone_move (hr : Room c s (s.zoneDescs zid))
    (hread : (s.zoneDescs zid).state ≠ .readOnly) (hoff : (s.zoneDescs zid).state ≠ .offline) :
    ExactMove c s zid (s.zoneDescs zid).reset (zmgmtSendResetZone c s zid).2 := by
  have hreset := giveBack_move (z := (s.zoneDescs zid).reset) hr
    (by simp [ZoneDescriptor.reset, ZoneDescriptor.isActive, ZoneDescriptor.isOpen])
    (by simp [ZoneDescriptor.reset])
  have hs := resetZone_setZone (c := c) (s.giveBack (s.zoneDescs zid)) zid
  have hmove := hreset.congr hs.1 hs.2.1 hs.2.2
  have hback := giveBack_eq hr
  unfold zmgmtSendResetZone
  cases hz : (s.zoneDescs zid).state with
  | openedImpl | openedExpl =>
    have hopen : (s.zoneDescs zid).isOpen = true := by simp [ZoneDescriptor.isOpen, hz]
    have h := hback (ZoneDescriptor.isActive_of_isOpen hopen)
    rw [if_pos hopen] at h
    dsimp only
    rw [h]
    exact hmove
  | closed =>
    have hopen : (s.zoneDescs zid).isOpen = false := by simp [ZoneDescriptor.isOpen, hz]
    have h := hback (by simp [ZoneDescriptor.isActive, hz])
    simp only [hopen, Bool.false_eq_true, if_false] at h
    dsimp only
    rw [h]
    exact hmove
  | full | empty =>
    rw [giveBack_of_not_active (by simp [ZoneDescriptor.isActive, ZoneDescriptor.isOpen, hz])] at hmove
    exact hmove
  | readOnly => exact absurd hz hread
  | offline => exact absurd hz hoff

theorem offlineZone_move (hr : Room c s (s.zoneDescs zid)) (zrwa : Bool) :
    ∃ z, MgmtStep zrwa (s.zoneDescs zid) z ∧ ExactMove c s zid z (zmgmtSendOfflineZone s zid).2 := by
  unfold zmgmtSendOfflineZone
  cases hz : (s.zoneDescs zid).state with
  | readOnly =>
    refine ⟨_, .offline hz, ?_⟩
    have hmove := giveBack_move (z := { s.zoneDescs zid with state := .offline }) hr
      (by simp [ZoneDescriptor.isActive, ZoneDescriptor.isOpen]) (by simp)
    rw [giveBack_of_not_active (by simp [ZoneDescriptor.isActive, ZoneDescriptor.isOpen, hz])] at hmove
    exact hmove
  | _ => exact ⟨_, .keep, .refl hr⟩

/-! ### Opening a zone -/

theorem acquire_active (hr : Room c s z) (hz : z.isActive = false) :
    s.acquireZoneResource .activeZone =
      (true, s.setAcquired .activeZone (s.acquired .activeZone + 1)) := by
  have hle := hr.activeLe
  have hn := c.nrZones_lt
  rw [hz] at hle
  have htotal := hr.total .activeZone
  exact acquire_eq _ (by rw [htotal]; exact hle) (hle.trans_lt hn)

/-- What a zone needs to open; `zrwa` if it gets a random write area. -/
def ZnsFtl.take (s : ZnsFtl) (z : ZoneDescriptor) (zrwa : Bool) : ZnsFtl :=
  ((s.setAcquired .zrwaZone (s.acquired .zrwaZone + zrwa.toNat)).setAcquired .activeZone
    (s.acquired .activeZone + (!z.isActive).toNat)).setAcquired .openZone
      (s.acquired .openZone + (!z.isOpen).toNat)

/-- A zone with its resources is open. -/
theorem take_move (zid : ℕ) (zrwa : Bool) (hz : z.isOpen = true)
    (hzrwa : z.hasZrwa.toNat = (s.zoneDescs zid).hasZrwa.toNat + zrwa.toNat)
    (hle : s.acquired .zrwaZone + zrwa.toNat ≤ c.zp.nrZones) :
    ExactMove c s zid z ((s.take (s.zoneDescs zid) zrwa).setZone zid z) := by
  have hactive := ZoneDescriptor.isActive_of_isOpen hz
  have hnot (b : Bool) : (!b).toNat + b.toNat = 1 := by cases b <;> rfl
  have h₁ := hnot (s.zoneDescs zid).isOpen
  have h₂ := hnot (s.zoneDescs zid).isActive
  refine ⟨?_, ?_⟩
  · constructor
    · rfl
    · simp [ZnsFtl.take, hz]; omega
    · simp [ZnsFtl.take, hactive]; omega
    · simp [ZnsFtl.take]; omega
    · simpa [ZnsFtl.take] using hle
    · intro type
      simp [ZnsFtl.take]
    · intro hempty
      simp [ZoneDescriptor.isOpen, hempty] at hz
    · rfl
  · simp [ZnsFtl.take]; omega

/-- Without a random write area. -/
theorem take_eq (s : ZnsFtl) (z : ZoneDescriptor) :
    s.take z false = (s.setAcquired .activeZone (s.acquired .activeZone + (!z.isActive).toNat)).setAcquired
      .openZone (s.acquired .openZone + (!z.isOpen).toNat) := by
  rw [ZnsFtl.take, ZnsFtl.setAcquired_eq_self (n := s.acquired .zrwaZone + false.toNat) rfl]

theorem setAcquired_add_not_true (s : ZnsFtl) (type : ZoneResourceType) :
    s.setAcquired type (s.acquired type + (!true).toNat) = s := ZnsFtl.setAcquired_eq_self rfl

/-- A zone that is not open finds an open-zone resource. -/
theorem acquire_open_eq (hr : Room c s z) (hz : z.isOpen = false) (s₁ : ZnsFtl)
    (hopen : s₁.acquired .openZone = s.acquired .openZone)
    (htotal : (s₁.resInfos .openZone).totalCnt = (s.resInfos .openZone).totalCnt) :
    s₁.acquireZoneResource .openZone =
      (true, s₁.setAcquired .openZone (s.acquired .openZone + 1)) := by
  have hle := hr.openedLe
  have hn := c.nrZones_lt
  rw [hz] at hle
  rw [acquire_eq _ (by rw [hopen, htotal, hr.total]; exact hle)
    (by rw [hopen]; exact hle.trans_lt hn), hopen]

/-- The zone is opened: from `EMPTY` with an active-zone resource, then as from
    `CLOSED`. -/
theorem openClosedZone_eq (hr : Room c s z) (hz : z.isOpen = false) (s₁ : ZnsFtl)
    (hopen : s₁.acquired .openZone = s.acquired .openZone)
    (htotal : (s₁.resInfos .openZone).totalCnt = (s.resInfos .openZone).totalCnt) :
    openClosedZone s₁ zid = (.success, (s₁.setAcquired .openZone
      (s.acquired .openZone + 1)).changeZoneState zid .openedExpl) := by
  rw [openClosedZone, acquire_open_eq hr hz s₁ hopen htotal]

theorem openZone_move (hr : Room c s (s.zoneDescs zid)) (zrwa : Bool) :
    ∃ z, MgmtStep zrwa (s.zoneDescs zid) z ∧ ExactMove c s zid z (zmgmtSendOpenZone s zid zrwa).2 := by
  have hle := hr.openedLe
  have hale := hr.activeLe
  have hwle := hr.zrwaLe
  have htotal := hr.total
  unfold zmgmtSendOpenZone
  cases hz : (s.zoneDescs zid).state with
  | empty =>
    have hopen : (s.zoneDescs zid).isOpen = false := by simp [ZoneDescriptor.isOpen, hz]
    have hactive : (s.zoneDescs zid).isActive = false := by
      simp [ZoneDescriptor.isActive, hopen, hz]
    rw [hopen] at hle
    rw [hactive] at hale
    have hna : s.isZoneResourceFull .activeZone = false := not_full (by rw [htotal]; exact hale)
    have hno : s.isZoneResourceFull .openZone = false := not_full (by rw [htotal]; exact hle)
    simp only [hna, hno, Bool.false_eq_true, if_false]
    cases zrwa with
    | false =>
      have hmove := take_move zid false (z := { s.zoneDescs zid with state := .openedExpl })
        (by simp [ZoneDescriptor.isOpen]) (by simp [ZoneDescriptor.hasZrwa, hr.empty hz]) hwle
      refine ⟨_, .opened (.inl hz), ?_⟩
      rw [take_eq, hopen, hactive] at hmove
      rw [if_neg Bool.false_ne_true, acquire_active hr hactive,
        openClosedZone_eq hr hopen _ (by simp) (by simp)]
      exact hmove
    | true =>
      rw [if_pos rfl]
      by_cases hfull : s.isZoneResourceFull .zrwaZone = true
      · rw [if_pos hfull]
        exact ⟨_, .keep, .refl hr⟩
      · have hlt : s.acquired .zrwaZone < c.zp.nrZones := by
          refine lt_of_le_of_ne hwle fun h => hfull ?_
          rw [← htotal .zrwaZone] at h
          exact decide_eq_true h
        have hmove := take_move zid true
          (z := { s.zoneDescs zid with state := .openedExpl, zrwav := true })
          (by simp [ZoneDescriptor.isOpen])
          (by simp [ZoneDescriptor.hasZrwa, ZoneDescriptor.isActive, ZoneDescriptor.isOpen, hz]) hlt
        refine ⟨_, .openedZrwa rfl, ?_⟩
        have hn := c.nrZones_lt
        rw [if_neg hfull, acquire_eq .zrwaZone (by rw [htotal]; exact hlt) (by omega), acquire_eq .activeZone
          (by simpa [htotal] using Nat.lt_of_succ_le hale) (by simpa using hale.trans_lt hn),
          openClosedZone_eq hr hopen _ (by simp) (by simp)]
        refine hmove.congr ?_ ?_ rfl
        · simp [ZnsFtl.take]
        · rw [ZnsFtl.take, hopen, hactive]
          rfl
  | closed =>
    have hopen : (s.zoneDescs zid).isOpen = false := by simp [ZoneDescriptor.isOpen, hz]
    have hactive : (s.zoneDescs zid).isActive = true := by simp [ZoneDescriptor.isActive, hz]
    have hmove := take_move zid false (z := { s.zoneDescs zid with state := .openedExpl })
      (by simp [ZoneDescriptor.isOpen]) (by simp [ZoneDescriptor.hasZrwa, ZoneDescriptor.isActive,
        ZoneDescriptor.isOpen, hz]) hwle
    refine ⟨_, .opened (.inr hactive), ?_⟩
    rw [take_eq, hopen, hactive, setAcquired_add_not_true] at hmove
    rw [openClosedZone_eq hr hopen s rfl rfl]
    exact hmove
  | openedImpl =>
    have hopen : (s.zoneDescs zid).isOpen = true := by simp [ZoneDescriptor.isOpen, hz]
    have hactive := ZoneDescriptor.isActive_of_isOpen hopen
    have hmove := take_move zid false (z := { s.zoneDescs zid with state := .openedExpl })
      (by simp [ZoneDescriptor.isOpen]) (by simp [ZoneDescriptor.hasZrwa, ZoneDescriptor.isActive,
        ZoneDescriptor.isOpen, hz]) hwle
    refine ⟨_, .opened (.inr hactive), ?_⟩
    rw [take_eq, hopen, hactive, setAcquired_add_not_true, setAcquired_add_not_true] at hmove
    exact hmove
  | _ => exact ⟨_, .keep, .refl hr⟩

/-! ### The command -/

/-- A zone that is filled gives back the two resources every active zone has. -/
theorem fill_move (hr : Room c s (s.zoneDescs zid)) (hopen : (s.zoneDescs zid).isOpen = true) :
    ZoneMove c s zid { s.zoneDescs zid with state := .full } (s.fill zid) := by
  have hactive := ZoneDescriptor.isActive_of_isOpen hopen
  have ho : 0 < s.acquired .openZone := by have := hr.opened; rw [hopen] at this; exact this
  have ha : 0 < s.acquired .activeZone := by have := hr.active; rw [hactive] at this; exact this
  rw [ZnsFtl.fill, release_eq .openZone ho (hr.lt _),
    release_eq .activeZone (by simpa using ha) (by simpa using hr.lt _)]
  constructor
  · rfl
  · simp only [hopen]
    simpa [ZoneDescriptor.isOpen] using Nat.sub_add_cancel ho
  · simp only [hactive]
    simpa [ZoneDescriptor.isActive, ZoneDescriptor.isOpen] using Nat.sub_add_cancel ha
  · simp [ZoneDescriptor.hasZrwa, ZoneDescriptor.isActive, ZoneDescriptor.isOpen]
  · simpa using hr.zrwaLe
  · intro type
    simp
  · simp
  · rfl

theorem lbasPerZone_lt (c : ZnsCfg) : lbasPerZone c < 2 ^ 23 := by
  have hlt := c.zoneSize_lt
  rw [lbasPerZone, show LBA_SIZE = 512 from rfl]
  omega

theorem lpnToZone_lbaToLpn (c : ZnsCfg) (lba : ℕ) : lpnToZone c (lbaToLpn c lba) = lbaToZone c lba := by
  have hmod := c.zoneSize_mod
  rw [c.pgsz_eq] at hmod
  rw [lpnToZone, lbaToLpn, lbaToZone, lbasPerZone, Nat.div_div_eq_div_mul, c.pgsz_eq, c.secsPerPg_eq]
  congr 2
  rw [show LBA_SIZE = 512 from rfl] at *
  omega

theorem Room.wp (hr : Room c s (s.zoneDescs zid)) (wp : ℕ) :
    let s' := s.setZone zid { s.zoneDescs zid with wp }
    ExactMove c s zid { s.zoneDescs zid with wp } s' ∧ Room c s' (s'.zoneDescs zid) := by
  dsimp only
  rw [ZnsFtl.setZone_zoneDescs, update_self]
  obtain ⟨h₁, h₂, h₃, h₄, h₅, h₆, h₇, h₈⟩ := hr
  exact ⟨⟨⟨rfl, rfl, rfl, le_rfl, h₆, fun _ => rfl, h₈, rfl⟩, rfl⟩, ⟨h₁, h₂, h₃, h₄, h₅, h₆, h₇, h₈⟩⟩

theorem flushFull_move (hr : Room c s (s.zoneDescs zid)) (hactive : (s.zoneDescs zid).isActive = true)
    (hzrwa : (s.zoneDescs zid).zrwav = true) :
    ExactMove c s zid { s.zoneDescs zid with state := .full }
      (flushFull s zid (s.zoneDescs zid).state) := by
  have hback := giveBack_eq hr hactive
  have hopen : (s.zoneDescs zid).state ≠ .closed ↔ (s.zoneDescs zid).isOpen = true := by
    cases hz : (s.zoneDescs zid).state <;>
      simp [ZoneDescriptor.isActive, ZoneDescriptor.isOpen, hz] at hactive ⊢
  rw [hzrwa, ZnsFtl.releaseZrwa, if_pos rfl] at hback
  unfold flushFull
  dsimp only
  simp only [hopen]
  rw [hback]
  exact giveBack_move hr (by simp [ZoneDescriptor.isActive, ZoneDescriptor.isOpen]) (by simp)

/-- The checks of `__zmgmt_send_flush_explicit_zrwa` pass. -/
structure ExplicitFlush (c : ZnsCfg) (z : ZoneDescriptor) (zid slba : ℕ) : Prop where
  zrwa : z.hasZrwa = true
  ge : z.wp ≤ slba
  le : slba ≤ min (sub64 (u64 (z.wp + c.zp.lbasPerZrwa)) 1) (sub64 (u64 (zoneToSlba c zid + z.zoneCapacity)) 1)
  granule : u64 (sub64 slba z.wp + 1) % c.zp.lbasPerZrwafg = 0

/-- A zone whose write pointer moves behind `slba`. -/
def ZoneDescriptor.flushed (z : ZoneDescriptor) (slba : ℕ) : ZoneDescriptor := { z with wp := u64 (slba + 1) }

/-- **`__zmgmt_send_flush_explicit_zrwa`** changes nothing, or moves the write pointer. -/
theorem flushExplicitZrwa_cases {slba : ℕ} {r : ZnsStatus × ZnsFtl}
    (h : zmgmtSendFlushExplicitZrwa c s slba = .ok r) (hzid : lbaToZone c slba = zid) :
    r.2 = s ∨ ExplicitFlush c (s.zoneDescs zid) zid slba ∧
      r.2 = if u64 (slba + 1) = u64 (zoneToSlba c zid + (s.zoneDescs zid).zoneCapacity)
        then flushFull (s.setZone zid ((s.zoneDescs zid).flushed slba)) zid (s.zoneDescs zid).state
        else s.setZone zid ((s.zoneDescs zid).flushed slba) := by
  unfold zmgmtSendFlushExplicitZrwa at h
  dsimp only at h
  rw [hzid] at h
  by_cases hzrwa : (s.zoneDescs zid).zrwav = false
  · rw [if_pos hzrwa] at h; cases h; exact .inl rfl
  rw [if_neg hzrwa] at h
  by_cases hrange : ¬ ((s.zoneDescs zid).wp ≤ slba ∧
      slba ≤ min (sub64 (u64 ((s.zoneDescs zid).wp + c.zp.lbasPerZrwa)) 1)
        (sub64 (u64 (zoneToSlba c zid + (s.zoneDescs zid).zoneCapacity)) 1))
  · rw [if_pos hrange] at h; cases h; exact .inl rfl
  rw [if_neg hrange] at h
  rw [not_not] at hrange
  obtain ⟨-, -, h⟩ := bind_eq_ok h
  by_cases hgranule : u64 (sub64 slba (s.zoneDescs zid).wp + 1) % c.zp.lbasPerZrwafg ≠ 0
  · rw [if_pos hgranule] at h; cases h; exact .inl rfl
  rw [if_neg hgranule] at h
  have hflush (hz : (s.zoneDescs zid).isActive = true) : ExplicitFlush c (s.zoneDescs zid) zid slba :=
    ⟨by rw [ZoneDescriptor.hasZrwa, hz, Bool.eq_true_of_not_eq_false hzrwa]; rfl, hrange.1, hrange.2,
      not_not.1 hgranule⟩
  cases hz : (s.zoneDescs zid).state with
  | openedExpl | openedImpl | closed =>
    refine .inr ⟨hflush (by simp [ZoneDescriptor.isActive, ZoneDescriptor.isOpen, hz]), ?_⟩
    rw [hz] at h
    dsimp only at h
    rw [ZoneDescriptor.flushed]
    split_ifs at h ⊢
    · cases h
      rw [hz]
    · cases h
      rw [hz]
  | _ => rw [hz] at h; cases h; exact .inl rfl

theorem flushFull_state (s : ZnsFtl) (zid : ℕ) (state : ZoneState) :
    (flushFull s zid state).zoneDescs zid = { s.zoneDescs zid with state := .full } := by
  unfold flushFull
  rw [ZnsFtl.changeZoneState_zoneDescs, update_self]
  split_ifs <;> rfl

/-- `__zmgmt_send_flush_explicit_zrwa` moves its zone. -/
theorem flushExplicitZrwa_move {slba : ℕ} {r : ZnsStatus × ZnsFtl} (zrwa : Bool)
    (hr : Room c s (s.zoneDescs (lbaToZone c slba)))
    (h : zmgmtSendFlushExplicitZrwa c s slba = .ok r) :
    ∃ z, MgmtStep zrwa (s.zoneDescs (lbaToZone c slba)) z ∧
      ExactMove c s (lbaToZone c slba) z r.2 := by
  rcases flushExplicitZrwa_cases h rfl with hr₂ | ⟨hflush, hr₂⟩
  · rw [hr₂]
    exact ⟨_, .keep, .refl hr⟩
  · have hzrwa := hflush.zrwa
    rw [ZoneDescriptor.hasZrwa, Bool.and_eq_true] at hzrwa
    obtain ⟨hmove, hr'⟩ := hr.wp (u64 (slba + 1))
    have hfull := flushFull_move hr'
    rw [ZnsFtl.setZone_zoneDescs, update_self] at hfull
    rw [hr₂]
    split_ifs
    · exact ⟨_, .flush _ _ hzrwa.2, hmove.trans (hfull hzrwa.1 hzrwa.2)⟩
    · exact ⟨_, .flush _ _ hzrwa.2, hmove⟩

/-- **A management command moves its zone**, and that zone only. -/
theorem zmgmtSend_exact {slba : ℕ} {action : BitVec 8} {option : Bool} {r : ZnsStatus × ZnsFtl}
    (hr : Room c s (s.zoneDescs (lbaToZone c slba)))
    (h : zmgmtSend c s slba action option = .ok r) :
    ∃ z, (s.zoneDescs (lbaToZone c slba)).Managed action option z ∧
      ExactMove c s (lbaToZone c slba) z r.2 := by
  by_cases hreset : action = ZSA_RESET_ZONE
  · subst hreset
    cases h
    by_cases hstate : (s.zoneDescs (lbaToZone c slba)).Resets ZSA_RESET_ZONE
    · exact ⟨_, .inl ⟨hstate, rfl⟩, resetZone_move hr hstate.2.1 hstate.2.2⟩
    · refine ⟨_, .inr ⟨hstate, .keep⟩, ?_⟩
      unfold zmgmtSendResetZone
      cases hz : (s.zoneDescs (lbaToZone c slba)).state with
      | readOnly | offline => exact .refl hr
      | _ => exact absurd ⟨rfl, by simp [hz], by simp [hz]⟩ hstate
  · suffices hstep : ∃ z, MgmtStep (action = ZSA_OPEN_ZONE && option) (s.zoneDescs (lbaToZone c slba)) z ∧
        ExactMove c s (lbaToZone c slba) z r.2 by
      obtain ⟨z, hz, hmove⟩ := hstep
      exact ⟨z, .inr ⟨fun h => hreset h.1, hz⟩, hmove⟩
    unfold zmgmtSend at h
    dsimp only at h
    split_ifs at h with hclose hfinish hopen hoffline hflush
    · cases h; exact closeZone_move hr _
    · cases h; exact finishZone_move hr _
    · cases h
      rw [hopen, decide_eq_true rfl, Bool.true_and]
      exact openZone_move hr option
    · cases h; exact offlineZone_move hr _
    · exact flushExplicitZrwa_move _ hr h
    · cases h; exact ⟨_, .keep, .refl hr⟩

theorem zmgmtSend_move {slba : ℕ} {action : BitVec 8} {option : Bool} {r : ZnsStatus × ZnsFtl}
    (hr : Room c s (s.zoneDescs (lbaToZone c slba)))
    (h : zmgmtSend c s slba action option = .ok r) :
    ∃ z, (s.zoneDescs (lbaToZone c slba)).Managed action option z ∧
      ZoneMove c s (lbaToZone c slba) z r.2 := by
  obtain ⟨z, hz, hmove⟩ := zmgmtSend_exact hr h
  exact ⟨z, hz, hmove.toZoneMove⟩

end WaitGc

/-
  WAITGC verification — what a write does to its zone.

  `znsWriteSeq_cases`: a write outside a random write area is dropped, refused
  or done, and only in the last case a zone changes.  `znsProcNvmeIoCmd_move`:
  a command moves its zones; so the counters stay right.
-/
import WaitGc.Proof.Zones

namespace WaitGc

open Outcome Function

variable {c : ZnsCfg} {s s' : ZnsFtl} {zid : ℕ} {z z' : ZoneDescriptor}

/-! ## Admission -/

/-- What a write that is admitted finds: it starts at the write pointer, stays in one
    zone, and the zone is open or can be opened. -/
structure Admitted (c : ZnsCfg) (z : ZoneDescriptor) (slba nrLba : ℕ) : Prop where
  aligned : lbaToByte nrLba % c.writeUnitSize = 0
  boundary : checkBoundaryError c slba nrLba = true
  wp : slba = z.wp
  start : z.state = .empty → slba = z.zslba
  state : z.state = .empty ∨ z.isActive = true

/-- The zone an admitted write leaves before its write pointer moves. -/
def ZoneDescriptor.openImpl (z : ZoneDescriptor) : ZoneDescriptor :=
  { z with state := if z.isOpen then z.state else .openedImpl }

@[simp] theorem ZoneDescriptor.openImpl_wp (z : ZoneDescriptor) : z.openImpl.wp = z.wp := rfl

@[simp] theorem ZoneDescriptor.openImpl_zoneCapacity (z : ZoneDescriptor) :
    z.openImpl.zoneCapacity = z.zoneCapacity := rfl

theorem ZoneDescriptor.openImpl_of_open (h : z.isOpen = true) : z.openImpl = z := by
  rw [openImpl, if_pos h]

theorem ZoneDescriptor.openImpl_of_not_open (h : z.isOpen = false) :
    z.openImpl = { z with state := .openedImpl } := by
  rw [openImpl, h]
  rfl

theorem ZoneDescriptor.openImpl_isOpen (z : ZoneDescriptor) : z.openImpl.isOpen = true := by
  by_cases h : z.isOpen = true
  · rw [openImpl, if_pos h]; exact h
  · rw [openImpl, if_neg h]; rfl

/-- What opening a zone implicitly takes. -/
theorem openImpl_move (hr : Room c s (s.zoneDescs zid))
    (hz : (s.zoneDescs zid).state = .empty ∨ (s.zoneDescs zid).isActive = true) :
    ExactMove c s zid (s.zoneDescs zid).openImpl
      ((s.take (s.zoneDescs zid) false).setZone zid (s.zoneDescs zid).openImpl) := by
  have hopen := ZoneDescriptor.openImpl_isOpen (s.zoneDescs zid)
  refine take_move zid false hopen ?_ hr.zrwaLe
  rcases hz with hz | hz
  · have := hr.empty hz
    simp [ZoneDescriptor.hasZrwa, ZoneDescriptor.openImpl, this]
  · rw [ZoneDescriptor.hasZrwa, ZoneDescriptor.hasZrwa, hz, ZoneDescriptor.isActive_of_isOpen hopen]
    rfl

/-- A zone that is not open is opened implicitly. -/
theorem openImpl_eq (hr : Room c s z) (hz : z.isOpen = false) (s₁ : ZnsFtl)
    (hopen : s₁.acquired .openZone = s.acquired .openZone)
    (htotal : (s₁.resInfos .openZone).totalCnt = (s.resInfos .openZone).totalCnt) :
    znsWriteAdmit.openImpl s₁ zid = (.success, (s₁.setAcquired .openZone
      (s.acquired .openZone + 1)).changeZoneState zid .openedImpl) := by
  rw [znsWriteAdmit.openImpl, acquire_open_eq hr hz s₁ hopen htotal]

/-- **The checks of `__zns_write`**: either the write is admitted and the zone is open,
    or nothing changes. -/
theorem znsWriteAdmit_cases (hr : Room c s (s.zoneDescs zid)) (slba nrLba : ℕ) :
    (Admitted c (s.zoneDescs zid) slba nrLba ∧ (znsWriteAdmit c s zid slba nrLba).1 = .success ∧
      ExactMove c s zid (s.zoneDescs zid).openImpl (znsWriteAdmit c s zid slba nrLba).2) ∨
    ((znsWriteAdmit c s zid slba nrLba).1 ≠ .success ∧ (znsWriteAdmit c s zid slba nrLba).2 = s) := by
  have hle := hr.openedLe
  have hale := hr.activeLe
  have htotal := hr.total
  unfold znsWriteAdmit
  dsimp only
  by_cases halign : lbaToByte nrLba % c.writeUnitSize ≠ 0
  · rw [if_pos halign]; exact .inr ⟨by simp, rfl⟩
  rw [if_neg halign]
  by_cases hbound : checkBoundaryError c slba nrLba = false
  · rw [if_pos hbound]; exact .inr ⟨by simp, rfl⟩
  rw [if_neg hbound]
  by_cases hwp : slba ≠ (s.zoneDescs zid).wp
  · rw [if_pos hwp]; exact .inr ⟨by simp, rfl⟩
  rw [if_neg hwp]
  rw [not_not] at halign hwp
  rw [Bool.not_eq_false] at hbound
  cases hz : (s.zoneDescs zid).state with
  | empty =>
    have hopen : (s.zoneDescs zid).isOpen = false := by simp [ZoneDescriptor.isOpen, hz]
    have hactive : (s.zoneDescs zid).isActive = false := by
      simp [ZoneDescriptor.isActive, hopen, hz]
    rw [hopen] at hle
    rw [hactive] at hale
    dsimp only
    by_cases hstart : slba ≠ (s.zoneDescs zid).zslba
    · rw [if_pos hstart]; exact .inr ⟨by simp, rfl⟩
    rw [if_neg hstart]
    rw [not_not] at hstart
    have hna : s.isZoneResourceFull .activeZone = false := not_full (by rw [htotal]; exact hale)
    have hno : s.isZoneResourceFull .openZone = false := not_full (by rw [htotal]; exact hle)
    have hmove := openImpl_move hr (.inl hz)
    rw [take_eq, hopen, hactive, ZoneDescriptor.openImpl_of_not_open hopen] at hmove
    rw [hna, hno, if_neg Bool.false_ne_true, if_neg Bool.false_ne_true, acquire_active hr hactive]
    dsimp only
    rw [openImpl_eq hr hopen _ (by simp) (by simp), ZoneDescriptor.openImpl_of_not_open hopen]
    exact .inl ⟨⟨halign, hbound, hwp, fun _ => hstart, .inl hz⟩, rfl, hmove⟩
  | closed =>
    have hopen : (s.zoneDescs zid).isOpen = false := by simp [ZoneDescriptor.isOpen, hz]
    have hactive : (s.zoneDescs zid).isActive = true := by simp [ZoneDescriptor.isActive, hz]
    have hmove := openImpl_move hr (.inr hactive)
    rw [take_eq, hopen, hactive, setAcquired_add_not_true,
      ZoneDescriptor.openImpl_of_not_open hopen] at hmove
    dsimp only
    rw [openImpl_eq hr hopen s rfl rfl, ZoneDescriptor.openImpl_of_not_open hopen]
    exact .inl ⟨⟨halign, hbound, hwp, fun h => by simp [hz] at h, .inr hactive⟩, rfl, hmove⟩
  | openedImpl | openedExpl =>
    have hopen : (s.zoneDescs zid).isOpen = true := by simp [ZoneDescriptor.isOpen, hz]
    have hactive := ZoneDescriptor.isActive_of_isOpen hopen
    rw [ZoneDescriptor.openImpl_of_open hopen]
    exact .inl ⟨⟨halign, hbound, hwp, fun h => by simp [hz] at h, .inr hactive⟩, rfl, .refl hr⟩
  | _ => exact .inr ⟨by simp, rfl⟩

/-! ## The write pointer -/

/-- A zone whose write pointer moves on. -/
def ZoneDescriptor.advance (c : ZnsCfg) (zid nrLba : ℕ) (z : ZoneDescriptor) : ZoneDescriptor :=
  { z with
    wp := u64 (z.wp + u32 nrLba)
    state := if u64 (z.wp + u32 nrLba) = u64 (zoneToSlba c zid + z.zoneCapacity) then .full
      else z.state }

theorem increaseWritePtr_move (hr : Room c s (s.zoneDescs zid))
    (hopen : (s.zoneDescs zid).isOpen = true) (nrLba : ℕ) :
    ZoneMove c s zid ((s.zoneDescs zid).advance c zid nrLba) (increaseWritePtr c s zid nrLba) := by
  obtain ⟨hmove, hr'⟩ := hr.wp (u64 ((s.zoneDescs zid).wp + u32 nrLba))
  have hfull := fill_move hr'
  rw [ZnsFtl.setZone_zoneDescs, update_self] at hfull
  unfold increaseWritePtr ZoneDescriptor.advance
  dsimp only at hmove hfull ⊢
  split_ifs with hend hbound
  · exact hmove.toZoneMove.trans (hfull hopen)
  · exact hmove.toZoneMove.congr rfl rfl rfl
  · exact hmove.toZoneMove

/-- Whether the write pointer passed the end of the zone. -/
theorem increaseWritePtr_boundaryErrors (s : ZnsFtl) (zid nrLba : ℕ)
    (h : u64 ((s.zoneDescs zid).wp + u32 nrLba) ≤
      u64 (zoneToSlba c zid + (s.zoneDescs zid).zoneCapacity)) :
    (increaseWritePtr c s zid nrLba).boundaryErrors = s.boundaryErrors := by
  unfold increaseWritePtr
  dsimp only
  split_ifs
  · rfl
  · omega
  · rfl

/-! ## Writes outside a random write area -/

/-- Nothing about the zones changed. -/
structure SameZones (s s' : ZnsFtl) : Prop where
  descs : s'.zoneDescs = s.zoneDescs
  resInfos : s'.resInfos = s.resInfos
  underflows : s'.underflows = s.underflows
  boundaryErrors : s'.boundaryErrors = s.boundaryErrors

theorem Room.sameZones (hr : Room c s z) (h : SameZones s s') : Room c s' z := by
  obtain ⟨h₁, h₂, h₃, h₄, h₅, h₆, h₇, h₈⟩ := hr
  constructor <;> simp only [ZnsFtl.acquired, h.resInfos] at * <;> assumption

theorem SameZones.move {s'' : ZnsFtl} (h : SameZones s s') (hm : ZoneMove c s' zid z s'') :
    ZoneMove c s zid z s'' := by
  obtain ⟨h₁, h₂, h₃, h₄, h₅, h₆, h₇, h₈⟩ := hm
  constructor <;>
    simp only [ZnsFtl.acquired, h.descs, h.resInfos, h.underflows] at * <;> assumption

/-- The zone a done write leaves. -/
def ZoneDescriptor.written (c : ZnsCfg) (zid nrLba : ℕ) (z : ZoneDescriptor) : ZoneDescriptor :=
  z.openImpl.advance c zid nrLba

/-- The ways `__zns_write` ends: no result, a result with an error, and success. -/
inductive WriteStep (c : ZnsCfg) (s : ZnsFtl) (zid slba nrLba result : ℕ) (o : ZnsOutcome) : Prop where
  | dropped : o.ret = none → SameZones s o.ftl → WriteStep c s zid slba nrLba result o
  | refused (ret : ZnsResult) : o.ret = some ret → ret.status ≠ .success → SameZones s o.ftl →
      WriteStep c s zid slba nrLba result o
  | done (ret : ZnsResult) : o.ret = some ret → ret.status = .success → ret.result = result →
      Admitted c (s.zoneDescs zid) slba nrLba →
      ZoneMove c s zid ((s.zoneDescs zid).written c zid nrLba) o.ftl →
      (u64 ((s.zoneDescs zid).wp + u32 nrLba) ≤ u64 (zoneToSlba c zid + (s.zoneDescs zid).zoneCapacity) →
        o.ftl.boundaryErrors = s.boundaryErrors) →
      WriteStep c s zid slba nrLba result o

theorem acquireZoneResource_frame (s : ZnsFtl) (type : ZoneResourceType) :
    ∃ r, (s.acquireZoneResource type).2 = { s with resInfos := r } := by
  unfold ZnsFtl.acquireZoneResource
  split_ifs
  · exact ⟨_, rfl⟩
  · exact ⟨_, rfl⟩

theorem znsWriteAdmit_frame (s : ZnsFtl) (zid slba nrLba : ℕ) :
    ∃ d r, (znsWriteAdmit c s zid slba nrLba).2 = { s with zoneDescs := d, resInfos := r } := by
  have hopen (s : ZnsFtl) :
      ∃ d r, (znsWriteAdmit.openImpl s zid).2 = { s with zoneDescs := d, resInfos := r } := by
    unfold znsWriteAdmit.openImpl ZnsFtl.acquireZoneResource
    split_ifs
    · exact ⟨_, _, rfl⟩
    · exact ⟨_, _, rfl⟩
  unfold znsWriteAdmit
  dsimp only
  cases (s.zoneDescs zid).state with
  | empty =>
    dsimp only
    split_ifs
    · exact ⟨_, _, rfl⟩
    · exact ⟨_, _, rfl⟩
    · exact ⟨_, _, rfl⟩
    · exact ⟨_, _, rfl⟩
    · exact ⟨_, _, rfl⟩
    · exact ⟨_, _, rfl⟩
    · obtain ⟨r, hr⟩ := acquireZoneResource_frame s .activeZone
      rw [hr]
      exact hopen _
  | closed =>
    dsimp only
    split_ifs
    · exact ⟨_, _, rfl⟩
    · exact ⟨_, _, rfl⟩
    · exact ⟨_, _, rfl⟩
    · exact hopen s
  | _ =>
    dsimp only
    split_ifs <;> exact ⟨_, _, rfl⟩

/-- The clocks and the internal operations of a done write are no matter. -/
theorem WriteStep.of_move {slba nrLba result : ℕ} {ret : ZnsResult} (timing : Timing)
    (pending : List ZnsOp) (hst : ret.status = .success) (hres : ret.result = result)
    (hadm : Admitted c (s.zoneDescs zid) slba nrLba)
    (hmove : ZoneMove c s zid ((s.zoneDescs zid).written c zid nrLba) s')
    (herr : u64 ((s.zoneDescs zid).wp + u32 nrLba) ≤
      u64 (zoneToSlba c zid + (s.zoneDescs zid).zoneCapacity) → s'.boundaryErrors = s.boundaryErrors) :
    WriteStep c s zid slba nrLba result ⟨some ret, slba, { s' with timing, pending }⟩ :=
  .done ret rfl hst hres hadm (hmove.congr rfl rfl rfl) herr

/-- The block a write starts at, and the number its completion reports. -/
def writeSlba (c : ZnsCfg) (s : ZnsFtl) (append : Bool) (rw : RwCommand) : ℕ :=
  if append then (s.zoneDescs (lbaToZone c rw.slba.toNat)).wp else rw.slba.toNat

/-- **`__zns_write`**. -/
theorem znsWriteSeq_cases {sqid start : ℕ} {append : Bool} {rw : RwCommand} {o : ZnsOutcome}
    (hr : Room c s (s.zoneDescs (lbaToZone c rw.slba.toNat)))
    (h : znsWriteSeq c s sqid start append rw = .ok o) :
    WriteStep c s (lbaToZone c rw.slba.toNat) (writeSlba c s append rw) rw.nrLba
      (if append then writeSlba c s append rw else 0) o := by
  unfold znsWriteSeq at h
  dsimp only at h
  obtain ⟨⟨allocated, wbuf⟩, -, h⟩ := bind_eq_ok h
  dsimp only at h
  generalize (if c.zp.zoneWbSize ≠ 0 then ZnsBuffer.zone (lbaToZone c rw.slba.toNat)
    else ZnsBuffer.ssd) = buf at h
  generalize hslba : (if append = true then (s.zoneDescs (lbaToZone c rw.slba.toNat)).wp
    else rw.slba.toNat) = slba at h
  rw [show writeSlba c s append rw = slba from hslba]
  generalize lbaToZone c rw.slba.toNat = zid at h hr ⊢
  have hsame : SameZones s (s.setBuffer buf wbuf) := ⟨rfl, rfl, rfl, rfl⟩
  have hr' : Room c (s.setBuffer buf wbuf) ((s.setBuffer buf wbuf).zoneDescs zid) := hr.sameZones hsame
  by_cases hshort : allocated < lbaToByte rw.nrLba
  · rw [if_pos hshort] at h
    cases h
    exact .dropped rfl hsame
  rw [if_neg hshort] at h
  have hadm := znsWriteAdmit_cases hr' slba rw.nrLba
  rw [hsame.descs] at hadm
  obtain ⟨d, r, hframe⟩ := znsWriteAdmit_frame (c := c) (s.setBuffer buf wbuf) zid slba rw.nrLba
  have hframe := congrArg ZnsFtl.boundaryErrors hframe
  generalize znsWriteAdmit c (s.setBuffer buf wbuf) zid slba rw.nrLba = a at h hadm hframe
  rcases hadm with ⟨hadm, hst, hmove⟩ | ⟨hst, hkeep⟩
  · rw [if_pos hst] at h
    have hdescs := congrFun hmove.descs zid
    rw [update_self] at hdescs
    have hopen : (a.2.zoneDescs zid).isOpen = true := by
      rw [hdescs]; exact ZoneDescriptor.openImpl_isOpen _
    have hadvance := increaseWritePtr_move (hmove.toZoneMove.room hr') hopen rw.nrLba
    have herr := increaseWritePtr_boundaryErrors (c := c) a.2 zid rw.nrLba
    rw [hdescs] at hadvance herr
    rw [ZoneDescriptor.openImpl_wp, ZoneDescriptor.openImpl_zoneCapacity] at herr
    have hdone := hsame.move (hmove.toZoneMove.trans hadvance)
    cases h
    exact .of_move _ _ rfl rfl hadm hdone fun hle => (herr hle).trans hframe
  · rw [if_neg hst, hkeep] at h
    cases h
    refine .refused _ rfl ?_ ?_
    · exact hst
    · exact hsame

theorem znsWriteSeq_slba {sqid start : ℕ} {append : Bool} {rw : RwCommand} {o : ZnsOutcome}
    (h : znsWriteSeq c s sqid start append rw = .ok o) : o.slba = writeSlba c s append rw := by
  unfold znsWriteSeq at h
  dsimp only at h
  obtain ⟨⟨allocated, wbuf⟩, -, h⟩ := bind_eq_ok h
  dsimp only at h
  generalize (if c.zp.zoneWbSize ≠ 0 then ZnsBuffer.zone (lbaToZone c rw.slba.toNat)
    else ZnsBuffer.ssd) = buf at h
  by_cases hshort : allocated < lbaToByte rw.nrLba
  · rw [if_pos hshort] at h
    cases h
    rfl
  rw [if_neg hshort] at h
  generalize hslba : (if append = true then (s.zoneDescs (lbaToZone c rw.slba.toNat)).wp
    else rw.slba.toNat) = slba at h
  rw [show writeSlba c s append rw = slba from hslba]
  generalize znsWriteAdmit c (s.setBuffer buf wbuf) _ slba rw.nrLba = a at h
  by_cases hst : a.1 = .success
  · rw [if_pos hst] at h
    cases h
    rfl
  · rw [if_neg hst] at h
    cases h
    rfl

/-! ## Writes to a random write area -/

theorem zrwaAllocate_same {size allocated : ℕ} (h : zrwaAllocate c s zid size = .ok (allocated, s')) :
    SameZones s s' := by
  unfold zrwaAllocate at h
  obtain ⟨-, -, h⟩ := bind_eq_ok h
  obtain ⟨⟨a, buf⟩, -, h⟩ := bind_eq_ok h
  cases h
  exact ⟨rfl, rfl, rfl, rfl⟩

theorem ZoneMove.same {s'' : ZnsFtl} (hm : ZoneMove c s zid z s') (h : SameZones s' s'') :
    ZoneMove c s zid z s'' := hm.congr h.descs h.resInfos h.underflows

/-- How a write is admitted to a random write area. -/
inductive ZrwaAdmitStep (c : ZnsCfg) (s : ZnsFtl) (zid : ℕ) (a : ZnsStatus × ZnsFtl) : Prop where
  | refused : a.1 ≠ .success → a.2 = s → ZrwaAdmitStep c s zid a
  | opened : (s.zoneDescs zid).isOpen = true → a = (.success, s) → ZrwaAdmitStep c s zid a
  | opens (b : ℕ × ZnsFtl) : (s.zoneDescs zid).state = .closed ∨ (s.zoneDescs zid).state = .empty →
      zrwaAllocate c (s.acquireZoneResource .openZone).2 zid c.zp.zrwaSize = .ok b → b.1 ≠ 0 →
      a = (.success, b.2.changeZoneState zid .openedImpl) → ZrwaAdmitStep c s zid a

theorem zrwaAdmit_step {slba nrLba : ℕ} {a : ZnsStatus × ZnsFtl} (h : zrwaAdmit c s zid slba nrLba = .ok a) :
    ZrwaAdmitStep c s zid a := by
  unfold zrwaAdmit at h
  dsimp only at h
  by_cases halign : lbaToByte nrLba % c.writeUnitSize ≠ 0
  · rw [if_pos halign] at h; cases h; exact .refused (by simp) rfl
  rw [if_neg halign] at h
  by_cases hbound : checkBoundaryError c slba nrLba = false
  · rw [if_pos hbound] at h; cases h; exact .refused (by simp) rfl
  rw [if_neg hbound] at h
  split_ifs at h with hrange
  · cases h; exact .refused (by simp) rfl
  cases hz : (s.zoneDescs zid).state with
  | empty | closed =>
    have hopens := @ZrwaAdmitStep.opens c s zid a
    have hkeep : (s.acquireZoneResource .openZone).1 = false → (s.acquireZoneResource .openZone).2 = s := by
      unfold ZnsFtl.acquireZoneResource
      split_ifs
      · intro hfalse
        cases hfalse
      · exact fun _ => rfl
    rw [hz] at h
    dsimp only at h
    generalize s.acquireZoneResource .openZone = r at h hopens hkeep
    obtain ⟨ok, s₁⟩ := r
    cases ok with
    | false =>
      cases h
      exact .refused (by simp) (hkeep rfl)
    | true =>
      obtain ⟨b, halloc, h⟩ := bind_eq_ok h
      by_cases hb : b.1 = 0
      · rw [require_neg (not_not_intro hb)] at h
        cases h
      · rw [require_pos hb] at h
        cases h
        exact hopens b (by simp [hz]) halloc hb rfl
  | openedImpl | openedExpl =>
    rw [hz] at h
    cases h
    exact .opened (by simp [ZoneDescriptor.isOpen, hz]) rfl
  | _ => rw [hz] at h; cases h; exact .refused (by simp) rfl

/-- **The checks of `__zns_write_zrwa`**: either the zone is open, or nothing changes. -/
theorem zrwaAdmit_cases {slba nrLba : ℕ} {a : ZnsStatus × ZnsFtl}
    (hr : Room c s (s.zoneDescs zid)) (hzrwa : (s.zoneDescs zid).zrwav = true)
    (h : zrwaAdmit c s zid slba nrLba = .ok a) :
    (a.1 = .success ∧ ExactMove c s zid (s.zoneDescs zid).openImpl a.2) ∨
      (a.1 ≠ .success ∧ a.2 = s) := by
  rcases zrwaAdmit_step h with ⟨hst, hs⟩ | ⟨hopen, rfl⟩ | ⟨b, hz, halloc, -, rfl⟩
  · exact .inr ⟨hst, hs⟩
  · rw [ZoneDescriptor.openImpl_of_open hopen]
    exact .inl ⟨rfl, .refl hr⟩
  · -- a zone with a random write area is not empty
    have hz : (s.zoneDescs zid).state = .closed := hz.resolve_right fun hz => by
      rw [hr.empty hz] at hzrwa
      cases hzrwa
    have hopen : (s.zoneDescs zid).isOpen = false := by simp [ZoneDescriptor.isOpen, hz]
    have hactive : (s.zoneDescs zid).isActive = true := by simp [ZoneDescriptor.isActive, hz]
    have hmove := openImpl_move hr (.inr hactive)
    rw [take_eq, hopen, hactive, setAcquired_add_not_true,
      ZoneDescriptor.openImpl_of_not_open hopen] at hmove
    rw [acquire_open_eq hr hopen s rfl rfl] at halloc
    have hsame := zrwaAllocate_same halloc
    refine .inl ⟨rfl, ?_⟩
    rw [ZoneDescriptor.openImpl_of_not_open hopen]
    refine hmove.congr ?_ hsame.resInfos hsame.underflows
    simp [hsame.descs]

theorem ZoneMove.clocks (hm : ZoneMove c s zid z s') (timing : Timing) (pending : List ZnsOp) :
    ZoneMove c s zid z { s' with timing, pending } := hm.congr rfl rfl rfl

/-- The zone lies where it lay. -/
structure ZoneDescriptor.SameLayout (z z' : ZoneDescriptor) : Prop where
  zslba : z'.zslba = z.zslba
  zoneCapacity : z'.zoneCapacity = z.zoneCapacity

theorem ZoneDescriptor.openImpl_layout (z : ZoneDescriptor) : z.SameLayout z.openImpl := ⟨rfl, rfl⟩

theorem ZoneDescriptor.SameLayout.advance (h : z.SameLayout z') (zid nrLba : ℕ) :
    z.SameLayout (z'.advance c zid nrLba) := ⟨h.zslba, h.zoneCapacity⟩

/-- **`__zns_write_zrwa`** moves its zone. -/
theorem znsWriteZrwa_move {sqid start : ℕ} {rw : RwCommand} {o : ZnsOutcome}
    (hr : Room c s (s.zoneDescs (lbaToZone c rw.slba.toNat)))
    (hzrwa : (s.zoneDescs (lbaToZone c rw.slba.toNat)).zrwav = true)
    (h : znsWriteZrwa c s sqid start rw = .ok o) :
    ∃ z, (s.zoneDescs (lbaToZone c rw.slba.toNat)).SameLayout z ∧
      ZoneMove c s (lbaToZone c rw.slba.toNat) z o.ftl := by
  unfold znsWriteZrwa at h
  dsimp only at h
  generalize lbaToZone c rw.slba.toNat = zid at h hr hzrwa ⊢
  obtain ⟨a, hadm, h⟩ := bind_eq_ok h
  have hlayout := ZoneDescriptor.openImpl_layout (s.zoneDescs zid)
  rcases zrwaAdmit_cases hr hzrwa hadm with ⟨hst, hmove⟩ | ⟨hst, hkeep⟩
  · rw [if_pos hst] at h
    obtain ⟨flush, -, h⟩ := bind_eq_ok h
    by_cases hflush : 0 < flush
    · rw [if_pos hflush] at h
      obtain ⟨⟨allocated, s₁⟩, halloc, h⟩ := bind_eq_ok h
      have hmove₁ := hmove.toZoneMove.same (zrwaAllocate_same halloc)
      have hopen : (s₁.zoneDescs zid).isOpen = true := by
        rw [hmove₁.descs, update_self]; exact ZoneDescriptor.openImpl_isOpen _
      have hadvance := increaseWritePtr_move (hmove₁.room hr) hopen flush
      rw [hmove₁.descs, update_self] at hadvance
      dsimp only at h
      rw [if_pos hflush] at h
      split_ifs at h with hdrop
      · cases h; exact ⟨_, hlayout, hmove₁⟩
      · cases h; exact ⟨_, hlayout.advance zid flush, (hmove₁.trans hadvance).clocks _ _⟩
    · rw [if_neg hflush] at h
      obtain ⟨r, hr₁, h⟩ := bind_eq_ok h
      cases hr₁
      dsimp only at h
      rw [if_neg hflush, if_neg Nat.one_ne_zero] at h
      cases h
      exact ⟨_, hlayout, hmove.toZoneMove.clocks _ _⟩
  · rw [if_neg hst] at h
    cases h
    rw [hkeep]
    exact ⟨_, ⟨rfl, rfl⟩, .refl hr⟩

/-! ## Commands -/

/-- **A write keeps the counters right.** -/
theorem ZonesCounted.write {sqid start : ℕ} {append : Bool} {rw : RwCommand} {o : ZnsOutcome}
    (hc : ZonesCounted c s) (hzid : lbaToZone c rw.slba.toNat < c.zp.nrZones)
    (h : znsWrite c s sqid start append rw = .ok o) : ZonesCounted c o.ftl := by
  have hr := hc.room hzid
  unfold znsWrite at h
  dsimp only at h
  rw [lpnToZone_lbaToLpn] at h
  split_ifs at h with hw
  · rcases znsWriteSeq_cases hr h with ⟨-, hsame⟩ | ⟨-, -, -, hsame⟩ | ⟨-, -, -, -, -, hmove, -⟩
    · exact hc.congr hsame.descs hsame.resInfos hsame.underflows
    · exact hc.congr hsame.descs hsame.resInfos hsame.underflows
    · exact hc.move hzid hmove
  · rw [Bool.not_eq_false] at hw
    obtain ⟨z, -, hmove⟩ := znsWriteZrwa_move hr hw h
    exact hc.move hzid hmove

/-- Every zone of a zoned namespace has its first block in an existing zone, also where
    the 32-bit product has wrapped. -/
theorem lbaToZone_zoneToSlba_lt (c : ZnsCfg) (hzid : zid < c.zp.nrZones) :
    lbaToZone c (zoneToSlba c zid) < c.zp.nrZones := by
  unfold lbaToZone zoneToSlba u32
  refine lt_of_le_of_lt (Nat.mod_le _ _) (lt_of_le_of_lt (Nat.div_le_div_right (Nat.mod_le _ _)) ?_)
  rcases Nat.eq_zero_or_pos (lbasPerZone c) with h0 | hpos
  · rw [h0, Nat.div_zero]; omega
  · rwa [Nat.mul_div_cancel _ hpos]

/-- **A management command keeps the counters right.** -/
theorem ZonesCounted.mgmtSend {cmd : ZmgmtSendCommand} {r : ZnsStatus × ZnsFtl} (hc : ZonesCounted c s)
    (hzid : cmd.selectAll = true ∨ lbaToZone c cmd.slba.toNat < c.zp.nrZones)
    (h : znsZmgmtSend c s cmd = .ok r) : ZonesCounted c r.2 := by
  unfold znsZmgmtSend at h
  split_ifs at h with hall
  · have hloop : Yields (ZonesCounted c) (zmgmtSendAll c s cmd.zsa cmd.zsaso) := by
      refine sat_foldlM (fun _ => ZonesCounted c) _ ?_ hc
      intro pre zid post s₁ hl hc₁
      have hmem : zid ∈ List.range c.zp.nrZones := hl ▸ by simp
      have hlt := lbaToZone_zoneToSlba_lt c (List.mem_range.1 hmem)
      cases hsend : zmgmtSend c s₁ (zoneToSlba c zid) cmd.zsa cmd.zsaso with
      | error e => trivial
      | ok r =>
        obtain ⟨z, -, hmove⟩ := zmgmtSend_move (hc₁.room hlt) hsend
        exact hc₁.move hlt hmove
    cases hs : zmgmtSendAll c s cmd.zsa cmd.zsaso with
    | error e => rw [hs] at h; cases h
    | ok s₁ => rw [hs] at h; cases h; exact hloop.of_ok hs
  · have hlt := hzid.resolve_left hall
    obtain ⟨z, -, hmove⟩ := zmgmtSend_move (hc.room hlt) h
    exact hc.move hlt hmove

theorem SameZones.timing (s : ZnsFtl) (timing : Timing) : SameZones s { s with timing } :=
  ⟨rfl, rfl, rfl, rfl⟩

theorem znsRead_same (s : ZnsFtl) (start : ℕ) (rw : RwCommand) : SameZones s (znsRead c s start rw).2 :=
  .timing s _

theorem znsFlush_same (s : ZnsFtl) : SameZones s (znsFlush c s).2 := .timing s _

theorem ZonesCounted.same (hc : ZonesCounted c s) (h : SameZones s s') : ZonesCounted c s' :=
  hc.congr h.descs h.resInfos h.underflows

/-- **A command keeps the counters right.** -/
theorem ZonesCounted.command {req : ZnsRequest} {o : ZnsOutcome} (hc : ZonesCounted c s)
    (haddr : req.cmd.Addressed c) (h : znsProcNvmeIoCmd c s req = .ok o) : ZonesCounted c o.ftl := by
  unfold znsProcNvmeIoCmd at h
  dsimp only at h
  cases hcmd : req.cmd with
  | write rw => rw [hcmd] at h haddr; exact hc.write haddr h
  | append rw => rw [hcmd] at h haddr; exact hc.write haddr h
  | read rw => rw [hcmd] at h; cases h; exact hc.same (znsRead_same _ _ _)
  | flush => rw [hcmd] at h; cases h; exact hc.same (znsFlush_same _)
  | mgmtSend cmd =>
    rw [hcmd] at h haddr
    obtain ⟨r, hsend, h⟩ := bind_eq_ok h
    cases h
    exact hc.mgmtSend haddr hsend
  | other opcode => rw [hcmd] at h; cases h; exact hc

/-- An internal operation changes buffers only. -/
theorem ZnsFtl.fire_same (s : ZnsFtl) (i : ℕ) : SameZones s (s.fire i) := by
  unfold fire
  split
  · exact ⟨rfl, rfl, rfl, rfl⟩
  · exact ⟨rfl, rfl, rfl, rfl⟩

theorem zonesCounted_init (c : ZnsCfg) (clock storage : ℕ → ℕ) : ZonesCounted c (znsInitFtl c clock storage) := by
  have hzero (p : ZoneDescriptor → Bool) (hp : ∀ zid, p (initDescriptor c zid) = false) :
      (znsInitFtl c clock storage).numZones c.zp.nrZones p = 0 := by
    rw [numZones_eq_tally]
    exact Tally.tally_eq_zero fun zid _ => by rw [Function.comp_apply]; exact ne_true_of_eq_false (hp zid)
  exact {
    opened := (hzero _ fun _ => rfl).symm
    active := (hzero _ fun _ => rfl).symm
    zrwa := (hzero _ fun _ => rfl).le
    zrwaLe := Nat.zero_le _
    total := fun _ => rfl
    empty := fun _ _ => rfl
    underflows := rfl }

end WaitGc

/-
  WAITGC verification — the accounting of random write areas.

  The resource of a random write area is taken when a zone is opened with one,
  and given back by every way out of the active states but one:
  `__increase_write_ptr` fills a zone and has `ASSERT(0)`, which expands to
  nothing, where the resource would be released.  `zrwa_resources_counted`: the
  counter is the number of active zones with a random write area exactly if no
  write of the run filled such a zone.
-/
import WaitGc.Proof.ZoneData
import WaitGc.Theorems.ZoneResources
import Mathlib.Tactic.IntervalCases

namespace WaitGc

open Outcome Function

variable {c : ZnsCfg} {s s' : ZnsFtl} {zid slba nrLba : ℕ} {rw : RwCommand} {sqid start : ℕ}
  {o : ZnsOutcome} {clock storage : ℕ → ℕ} {es : List ZnsEvent}

/-! ## Writes that fill a zone -/

/-- The blocks a write pushes out of the random write area: `nr_lbas_flush`. -/
def zrwaFlush (c : ZnsCfg) (s : ZnsFtl) (rw : RwCommand) : ℕ :=
  let zid := lbaToZone c rw.slba.toNat
  match nrLbasFlush c zid (s.zoneDescs zid).wp (sub64 (u64 (rw.slba.toNat + rw.nrLba)) 1) with
  | .ok flush => flush
  | .error _ => 0

/-- The space of the random write area's buffer; a zone that is not open takes
    `zrwa_size` of it first. -/
def zrwaRoom (c : ZnsCfg) (s : ZnsFtl) (zid : ℕ) : ℕ :=
  (s.buffers (.zrwa zid)).remaining - if (s.zoneDescs zid).isOpen then 0 else c.zp.zrwaSize

/-- The write moves the write pointer: it is not refused, and what it pushes out finds
    buffer space. -/
structure ZrwaFlushes (c : ZnsCfg) (s : ZnsFtl) (rw : RwCommand) : Prop where
  admitted : ¬ ZrwaRefused c s (lbaToZone c rw.slba.toNat) rw.slba.toNat rw.nrLba
  pos : 0 < zrwaFlush c s rw
  bytes : u32 (lbaToByte (zrwaFlush c s rw)) ≠ 0
  room : lbaToByte (zrwaFlush c s rw) ≤ zrwaRoom c s (lbaToZone c rw.slba.toNat)

/-- The write moves the write pointer of a zone with a random write area to the end. -/
structure ZrwaFills (c : ZnsCfg) (s : ZnsFtl) (rw : RwCommand) : Prop extends ZrwaFlushes c s rw where
  zrwav : (s.zoneDescs (lbaToZone c rw.slba.toNat)).zrwav = true
  atEnd : u64 ((s.zoneDescs (lbaToZone c rw.slba.toNat)).wp + u32 (zrwaFlush c s rw)) =
    u64 (zoneToSlba c (lbaToZone c rw.slba.toNat) +
      (s.zoneDescs (lbaToZone c rw.slba.toNat)).zoneCapacity)

/-- A write of the run fills a zone with a random write area. -/
def ZnsEvent.FillsZrwa (c : ZnsCfg) (s : ZnsFtl) : ZnsEvent → Prop
  | .command ⟨.write rw, _, _⟩ | .command ⟨.append rw, _, _⟩ => ZrwaFills c s rw
  | _ => False

/-! ## The counter -/

@[simp] theorem acquire_zrwa {type : ZoneResourceType} (h : type ≠ .zrwaZone) (s : ZnsFtl) :
    (s.acquireZoneResource type).2.acquired .zrwaZone = s.acquired .zrwaZone := by
  unfold ZnsFtl.acquireZoneResource
  split_ifs
  · simp [ZnsFtl.acquired, ZnsFtl.setAcquired, update_of_ne h.symm]
  · rfl

theorem release_zrwa {type : ZoneResourceType} (h : type ≠ .zrwaZone) (s : ZnsFtl) :
    (s.releaseZoneResource type).acquired .zrwaZone = s.acquired .zrwaZone := by
  show (s.setAcquired type _).acquired .zrwaZone = _
  rw [ZnsFtl.setAcquired_acquired, if_neg h.symm]

theorem fill_zrwa (s : ZnsFtl) (zid : ℕ) : (s.fill zid).acquired .zrwaZone = s.acquired .zrwaZone := by
  rw [ZnsFtl.fill, ZnsFtl.changeZoneState_acquired, release_zrwa (by simp), release_zrwa (by simp)]

theorem clocks_acquired (s : ZnsFtl) (timing : Timing) (pending : List ZnsOp) (type : ZoneResourceType) :
    ({ s with timing, pending } : ZnsFtl).acquired type = s.acquired type := rfl

theorem increaseWritePtr_zrwa (s : ZnsFtl) (zid nrLba : ℕ) :
    (increaseWritePtr c s zid nrLba).acquired .zrwaZone = s.acquired .zrwaZone := by
  unfold increaseWritePtr
  dsimp only
  split_ifs
  · exact fill_zrwa _ zid
  · rfl
  · rfl

theorem znsWriteAdmit_zrwa (s : ZnsFtl) (zid slba nrLba : ℕ) :
    (znsWriteAdmit c s zid slba nrLba).2.acquired .zrwaZone = s.acquired .zrwaZone := by
  have hopen (s : ZnsFtl) :
      (znsWriteAdmit.openImpl s zid).2.acquired .zrwaZone = s.acquired .zrwaZone := by
    have h : (s.acquireZoneResource .openZone).2.acquired .zrwaZone = s.acquired .zrwaZone :=
      acquire_zrwa (by simp) s
    unfold znsWriteAdmit.openImpl
    generalize s.acquireZoneResource .openZone = r at h ⊢
    obtain ⟨ok, s₁⟩ := r
    cases ok with
    | false => exact h
    | true => exact h
  unfold znsWriteAdmit
  dsimp only
  cases (s.zoneDescs zid).state with
  | empty =>
    dsimp only
    split_ifs
    iterate 6 rfl
    exact (hopen _).trans (acquire_zrwa (by simp) s)
  | closed =>
    dsimp only
    split_ifs
    iterate 3 rfl
    exact hopen s
  | _ =>
    dsimp only
    split_ifs <;> rfl

/-- `__zns_write` takes no random write area, and gives none back. -/
theorem znsWriteSeq_zrwa {append : Bool} (h : znsWriteSeq c s sqid start append rw = .ok o) :
    o.ftl.acquired .zrwaZone = s.acquired .zrwaZone := by
  unfold znsWriteSeq at h
  dsimp only at h
  obtain ⟨⟨allocated, wbuf⟩, -, h⟩ := bind_eq_ok h
  dsimp only at h
  generalize (if c.zp.zoneWbSize ≠ 0 then ZnsBuffer.zone (lbaToZone c rw.slba.toNat)
    else ZnsBuffer.ssd) = buf at h
  generalize (if append = true then (s.zoneDescs (lbaToZone c rw.slba.toNat)).wp
    else rw.slba.toNat) = slba at h
  by_cases hshort : allocated < lbaToByte rw.nrLba
  · rw [if_pos hshort] at h
    cases h
    rfl
  rw [if_neg hshort] at h
  have hadm := znsWriteAdmit_zrwa (c := c) (s.setBuffer buf wbuf) (lbaToZone c rw.slba.toNat) slba rw.nrLba
  generalize znsWriteAdmit c (s.setBuffer buf wbuf) (lbaToZone c rw.slba.toNat) slba rw.nrLba = a at h hadm
  by_cases hst : a.1 = .success
  · rw [if_pos hst] at h
    have hdone := (increaseWritePtr_zrwa (c := c) a.2 (lbaToZone c rw.slba.toNat) rw.nrLba).trans hadm
    cases h
    exact (clocks_acquired _ _ _ _).trans hdone
  · rw [if_neg hst] at h
    cases h
    exact hadm

/-! ## Writes to a random write area -/

instance (s : ZnsFtl) (z : ZoneDescriptor) : Decidable (OpenRefused s z) :=
  match h : z.state with
  | .empty | .closed => decidable_of_iff (s.isZoneResourceAvail .openZone = false) (by simp [OpenRefused, h])
  | .openedImpl | .openedExpl => .isFalse (by simp [OpenRefused, h])
  | .full | .readOnly | .offline => .isTrue (by simp [OpenRefused, h])

instance (c : ZnsCfg) (s : ZnsFtl) (zid slba nrLba : ℕ) : Decidable (ZrwaRefused c s zid slba nrLba) :=
  inferInstanceAs (Decidable (_ ∨ _ ∨ _ ∨ _ ∨ _))

instance (c : ZnsCfg) (s : ZnsFtl) (rw : RwCommand) : Decidable (ZrwaFlushes c s rw) :=
  decidable_of_iff
    (¬ ZrwaRefused c s (lbaToZone c rw.slba.toNat) rw.slba.toNat rw.nrLba ∧ 0 < zrwaFlush c s rw ∧
      u32 (lbaToByte (zrwaFlush c s rw)) ≠ 0 ∧
      lbaToByte (zrwaFlush c s rw) ≤ zrwaRoom c s (lbaToZone c rw.slba.toNat))
    ⟨fun ⟨h₁, h₂, h₃, h₄⟩ => ⟨h₁, h₂, h₃, h₄⟩, fun ⟨h₁, h₂, h₃, h₄⟩ => ⟨h₁, h₂, h₃, h₄⟩⟩

instance (c : ZnsCfg) (s : ZnsFtl) (rw : RwCommand) : Decidable (ZrwaFills c s rw) :=
  decidable_of_iff
    (ZrwaFlushes c s rw ∧ (s.zoneDescs (lbaToZone c rw.slba.toNat)).zrwav = true ∧
      u64 ((s.zoneDescs (lbaToZone c rw.slba.toNat)).wp + u32 (zrwaFlush c s rw)) =
        u64 (zoneToSlba c (lbaToZone c rw.slba.toNat) +
          (s.zoneDescs (lbaToZone c rw.slba.toNat)).zoneCapacity))
    ⟨fun ⟨h₁, h₂, h₃⟩ => ⟨h₁, h₂, h₃⟩, fun ⟨h₁, h₂, h₃⟩ => ⟨h₁, h₂, h₃⟩⟩

instance (c : ZnsCfg) (s : ZnsFtl) : ∀ e : ZnsEvent, Decidable (e.FillsZrwa c s)
  | .command ⟨.write rw, _, _⟩ | .command ⟨.append rw, _, _⟩ => inferInstanceAs (Decidable (ZrwaFills c s rw))
  | .command ⟨.read _, _, _⟩ | .command ⟨.flush, _, _⟩ | .command ⟨.mgmtSend _, _, _⟩
  | .command ⟨.other _, _, _⟩ | .fire _ => .isFalse id

theorem zrwaAllocate_room {size : ℕ} {a : ℕ × ZnsFtl} (h : zrwaAllocate c s zid size = .ok a) :
    (a.1 ≠ 0 ↔ u32 size ≠ 0 ∧ size ≤ (s.buffers (.zrwa zid)).remaining) ∧
      (a.1 ≠ 0 → (a.2.buffers (.zrwa zid)).remaining = (s.buffers (.zrwa zid)).remaining - size) := by
  unfold zrwaAllocate at h
  obtain ⟨-, -, h⟩ := bind_eq_ok h
  obtain ⟨⟨allocated, buf⟩, halloc, h⟩ := bind_eq_ok h
  cases hb : bufferAllocate (s.buffers (.zrwa zid)) size with
  | error f => rw [hb] at halloc; cases halloc
  | ok b =>
    rw [hb] at halloc
    cases halloc
    cases h
    obtain ⟨-, -, hb⟩ := bind_eq_ok hb
    cases hb
    dsimp only [ZnsFtl.setBuffer]
    rw [update_self]
    split_ifs with hshort
    · exact ⟨iff_of_false (fun h => h rfl) fun h => absurd h.2 hshort.not_ge, fun h => absurd rfl h⟩
    · exact ⟨⟨fun h => ⟨h, Nat.le_of_not_lt hshort⟩, And.left⟩, fun _ => rfl⟩

theorem acquire_buffers (s : ZnsFtl) (type : ZoneResourceType) :
    (s.acquireZoneResource type).2.buffers = s.buffers := by
  unfold ZnsFtl.acquireZoneResource
  split_ifs
  · rfl
  · rfl

theorem zrwaAdmit_room {a : ZnsStatus × ZnsFtl} (h : zrwaAdmit c s zid slba nrLba = .ok a)
    (hst : a.1 = .success) : (a.2.buffers (.zrwa zid)).remaining = zrwaRoom c s zid := by
  unfold zrwaRoom
  rcases zrwaAdmit_step h with ⟨hne, -⟩ | ⟨hopen, rfl⟩ | ⟨b, hz, halloc, hb, rfl⟩
  · exact absurd hst hne
  · rw [if_pos hopen]
    rfl
  · have hclosed : ¬ (s.zoneDescs zid).isOpen = true := by
      rcases hz with hz | hz
      · simp [ZoneDescriptor.isOpen, hz]
      · simp [ZoneDescriptor.isOpen, hz]
    have hroom := (zrwaAllocate_room halloc).2 hb
    rw [acquire_buffers] at hroom
    rw [if_neg hclosed]
    exact hroom

theorem zrwaFlush_eq {flush : ℕ} (h : nrLbasFlush c (lbaToZone c rw.slba.toNat)
    (s.zoneDescs (lbaToZone c rw.slba.toNat)).wp (sub64 (u64 (rw.slba.toNat + rw.nrLba)) 1) = .ok flush) :
    zrwaFlush c s rw = flush := by
  unfold zrwaFlush
  dsimp only
  rw [h]

/-- One, if the write fills a zone with a random write area. -/
def fillWeight (c : ZnsCfg) (s : ZnsFtl) (rw : RwCommand) : ℕ := if ZrwaFills c s rw then 1 else 0

theorem fillWeight_of_not_flushes (h : ¬ ZrwaFlushes c s rw) : fillWeight c s rw = 0 :=
  if_neg fun hf => h hf.toZrwaFlushes

/-- Zone `zid` becomes `z`, and the resource of its random write area is kept `leak` times. -/
structure LeakyMove (c : ZnsCfg) (s : ZnsFtl) (zid : ℕ) (z : ZoneDescriptor) (leak : ℕ) (s' : ZnsFtl) :
    Prop extends ZoneMove c s zid z s' where
  zrwaEq : s'.acquired .zrwaZone + (s.zoneDescs zid).hasZrwa.toNat =
    s.acquired .zrwaZone + z.hasZrwa.toNat + leak

theorem ExactMove.leaky {z : ZoneDescriptor} (hm : ExactMove c s zid z s') : LeakyMove c s zid z 0 s' :=
  ⟨hm.toZoneMove, hm.zrwaEq⟩

theorem LeakyMove.clocks {z : ZoneDescriptor} {leak : ℕ} (hm : LeakyMove c s zid z leak s')
    (timing : Timing) (pending : List ZnsOp) : LeakyMove c s zid z leak { s' with timing, pending } :=
  ⟨hm.toZoneMove.clocks timing pending, hm.zrwaEq⟩

theorem ExactMove.same {s'' : ZnsFtl} {z : ZoneDescriptor} (hm : ExactMove c s zid z s')
    (h : SameZones s' s'') : ExactMove c s zid z s'' := hm.congr h.descs h.resInfos h.underflows

/-- **The write pointer moves**: the resource is kept if it reaches the end. -/
theorem increaseWritePtr_leaky {z : ZoneDescriptor} (hr : Room c s (s.zoneDescs zid))
    (hm : ExactMove c s zid z s') (hopen : z.isOpen = true) (hzrwa : z.zrwav = true) (nrLba : ℕ) :
    LeakyMove c s zid (z.advance c zid nrLba)
      (if u64 (z.wp + u32 nrLba) = u64 (zoneToSlba c zid + z.zoneCapacity) then 1 else 0)
      (increaseWritePtr c s' zid nrLba) := by
  have hz : s'.zoneDescs zid = z := by rw [hm.descs, update_self]
  have hadvance := increaseWritePtr_move (hm.toZoneMove.room hr) (hz ▸ hopen) nrLba
  rw [hz] at hadvance
  refine ⟨hm.toZoneMove.trans hadvance, ?_⟩
  rw [increaseWritePtr_zrwa, hm.zrwaEq, ZoneDescriptor.hasZrwa, ZoneDescriptor.hasZrwa, hzrwa,
    ZoneDescriptor.isActive_of_isOpen hopen, ZoneDescriptor.advance]
  split_ifs with hend
  · simp [ZoneDescriptor.isActive, ZoneDescriptor.isOpen]
  · have hactive := ZoneDescriptor.isActive_of_isOpen hopen
    simp only [ZoneDescriptor.isActive, ZoneDescriptor.isOpen] at hactive ⊢
    rw [hactive, hzrwa]
    rfl

/-- **`__zns_write_zrwa`** keeps the resource of a zone that it fills. -/
theorem znsWriteZrwa_leaky (hr : Room c s (s.zoneDescs (lbaToZone c rw.slba.toNat)))
    (hzrwa : (s.zoneDescs (lbaToZone c rw.slba.toNat)).zrwav = true)
    (h : znsWriteZrwa c s sqid start rw = .ok o) :
    ∃ z, LeakyMove c s (lbaToZone c rw.slba.toNat) z (fillWeight c s rw) o.ftl := by
  unfold znsWriteZrwa at h
  dsimp only at h
  obtain ⟨a, hadm, h⟩ := bind_eq_ok h
  have hrefused := zrwaAdmit_refused hadm
  rcases zrwaAdmit_cases hr hzrwa hadm with ⟨hst, hmove⟩ | ⟨hst, hkeep⟩
  · rw [if_pos hst] at h
    have hroom := zrwaAdmit_room hadm hst
    have hnot := mt hrefused.2 (not_not_intro hst)
    obtain ⟨flush, hflush, h⟩ := bind_eq_ok h
    have hflush := zrwaFlush_eq hflush
    by_cases hpos : 0 < flush
    · rw [if_pos hpos] at h
      obtain ⟨b, halloc, h⟩ := bind_eq_ok h
      have hmove₁ := hmove.same (zrwaAllocate_same halloc)
      have halloc := (zrwaAllocate_room halloc).1
      rw [hroom, ← hflush] at halloc
      rw [if_pos hpos] at h
      by_cases hdrop : b.1 = 0
      · -- the buffer is short: the request is tried again
        rw [if_pos hdrop] at h
        cases h
        rw [fillWeight_of_not_flushes fun hf => halloc.2 ⟨hf.bytes, hf.room⟩ hdrop]
        exact ⟨_, hmove₁.leaky⟩
      · rw [if_neg hdrop] at h
        have hflushes : ZrwaFlushes c s rw := ⟨hnot, hflush ▸ hpos, (halloc.1 hdrop).1, (halloc.1 hdrop).2⟩
        have hleaky := increaseWritePtr_leaky hr hmove₁ (ZoneDescriptor.openImpl_isOpen _) hzrwa flush
        have hweight : fillWeight c s rw = if u64 ((s.zoneDescs (lbaToZone c rw.slba.toNat)).wp + u32 flush) =
            u64 (zoneToSlba c (lbaToZone c rw.slba.toNat) +
              (s.zoneDescs (lbaToZone c rw.slba.toNat)).zoneCapacity) then 1 else 0 := by
          rw [fillWeight, ← hflush]
          exact if_congr ⟨fun hf => hf.atEnd, fun hend => ⟨hflushes, hzrwa, hend⟩⟩ rfl rfl
        rw [hweight]
        cases h
        exact ⟨_, hleaky.clocks _ _⟩
    · rw [if_neg hpos] at h
      obtain ⟨r, hr₁, h⟩ := bind_eq_ok h
      cases hr₁
      rw [if_neg hpos, if_neg Nat.one_ne_zero] at h
      cases h
      rw [fillWeight_of_not_flushes fun hf => hpos (hflush ▸ hf.pos)]
      exact ⟨_, hmove.leaky.clocks _ _⟩
  · rw [if_neg hst] at h
    cases h
    rw [hkeep, fillWeight_of_not_flushes fun hf => hf.admitted (hrefused.1 hst)]
    exact ⟨_, (ExactMove.refl hr).leaky⟩

/-! ## Runs -/

/-- The resources that are taken, and that no active zone has. -/
def lostZrwa (c : ZnsCfg) (s : ZnsFtl) : ℕ :=
  s.acquired .zrwaZone - s.numZones c.zp.nrZones (·.hasZrwa)

theorem LeakyMove.lost {z : ZoneDescriptor} {leak : ℕ} (hc : ZonesCounted c s)
    (hzid : zid < c.zp.nrZones) (hm : LeakyMove c s zid z leak s') :
    lostZrwa c s' = lostZrwa c s + leak := by
  have hcount := numZones_update (·.hasZrwa) hzid hm.descs
  have heq := hm.zrwaEq
  have hle := hc.zrwa
  unfold lostZrwa
  omega

theorem SameZones.lost (h : SameZones s s') : lostZrwa c s' = lostZrwa c s := by
  unfold lostZrwa ZnsFtl.acquired ZnsFtl.numZones
  rw [h.resInfos, h.descs]

theorem ZoneMove.lost {z : ZoneDescriptor} (hc : ZonesCounted c s) (hzid : zid < c.zp.nrZones)
    (hm : ZoneMove c s zid z s') (hzrwa : (s.zoneDescs zid).zrwav = false) (hz : z.zrwav = false)
    (hkeep : s'.acquired .zrwaZone = s.acquired .zrwaZone) : lostZrwa c s' = lostZrwa c s := by
  have hold : (s.zoneDescs zid).hasZrwa = false := by rw [ZoneDescriptor.hasZrwa, hzrwa, Bool.and_false]
  have hnew : z.hasZrwa = false := by rw [ZoneDescriptor.hasZrwa, hz, Bool.and_false]
  have hleaky : LeakyMove c s zid z 0 s' := ⟨hm, by rw [hkeep, hold, hnew, Nat.add_zero]⟩
  exact hleaky.lost hc hzid

theorem znsWrite_lost {append : Bool} (hc : ZonesCounted c s)
    (hzid : lbaToZone c rw.slba.toNat < c.zp.nrZones) (h : znsWrite c s sqid start append rw = .ok o) :
    lostZrwa c o.ftl = lostZrwa c s + fillWeight c s rw := by
  have hr := hc.room hzid
  unfold znsWrite at h
  dsimp only at h
  rw [lpnToZone_lbaToLpn] at h
  by_cases hw : (s.zoneDescs (lbaToZone c rw.slba.toNat)).zrwav = false
  · rw [if_pos hw] at h
    have hweight : fillWeight c s rw = 0 := if_neg fun hf => Bool.false_ne_true (hw.symm.trans hf.zrwav)
    rw [hweight, Nat.add_zero]
    rcases znsWriteSeq_cases hr h with ⟨-, hsame⟩ | ⟨-, -, -, hsame⟩ | ⟨-, -, -, -, -, hmove, -⟩
    · exact hsame.lost
    · exact hsame.lost
    · exact hmove.lost hc hzid hw hw (znsWriteSeq_zrwa h)
  · rw [if_neg hw] at h
    obtain ⟨z, hmove⟩ := znsWriteZrwa_leaky hr (Bool.not_eq_false _ ▸ hw) h
    exact hmove.lost hc hzid

theorem zmgmtSend_lost {action : BitVec 8} {option : Bool} {r : ZnsStatus × ZnsFtl} (hc : ZonesCounted c s)
    (hzid : lbaToZone c slba < c.zp.nrZones) (h : zmgmtSend c s slba action option = .ok r) :
    ZonesCounted c r.2 ∧ lostZrwa c r.2 = lostZrwa c s := by
  obtain ⟨z, -, hmove⟩ := zmgmtSend_exact (hc.room hzid) h
  exact ⟨hc.move hzid hmove.toZoneMove, hmove.leaky.lost hc hzid⟩

/-- **Zone management loses no resource.** -/
theorem znsZmgmtSend_lost {cmd : ZmgmtSendCommand} {r : ZnsStatus × ZnsFtl} (hc : ZonesCounted c s)
    (hzid : cmd.selectAll = true ∨ lbaToZone c cmd.slba.toNat < c.zp.nrZones)
    (h : znsZmgmtSend c s cmd = .ok r) : lostZrwa c r.2 = lostZrwa c s := by
  unfold znsZmgmtSend at h
  split_ifs at h with hall
  · have hloop : Yields (fun s₁ => ZonesCounted c s₁ ∧ lostZrwa c s₁ = lostZrwa c s)
        (zmgmtSendAll c s cmd.zsa cmd.zsaso) := by
      refine sat_foldlM (fun _ s₁ => ZonesCounted c s₁ ∧ lostZrwa c s₁ = lostZrwa c s) _ ?_ ⟨hc, rfl⟩
      rintro pre zid post s₁ hl ⟨hc₁, hlost⟩
      have hmem : zid ∈ List.range c.zp.nrZones := hl ▸ by simp
      cases hsend : zmgmtSend c s₁ (zoneToSlba c zid) cmd.zsa cmd.zsaso with
      | error e => trivial
      | ok r =>
        have hstep := zmgmtSend_lost hc₁ (lbaToZone_zoneToSlba_lt c (List.mem_range.1 hmem)) hsend
        exact ⟨hstep.1, hstep.2.trans hlost⟩
    cases hs : zmgmtSendAll c s cmd.zsa cmd.zsaso with
    | error e => rw [hs] at h; cases h
    | ok s₁ => rw [hs] at h; cases h; exact (hloop.of_ok hs).2
  · exact (zmgmtSend_lost hc (hzid.resolve_left hall) h).2

/-- One, if the event fills a zone with a random write area. -/
def ZnsEvent.fillWeight (c : ZnsCfg) (s : ZnsFtl) (e : ZnsEvent) : ℕ := if e.FillsZrwa c s then 1 else 0

/-- **An event** loses a resource if it fills a zone with a random write area, and only
    then. -/
theorem znsMachine_lost {e : ZnsEvent} (hc : ZonesCounted c s) (haddr : e.Addressed c)
    (h : (znsMachine c).step s e = .ok s') : lostZrwa c s' = lostZrwa c s + e.fillWeight c s := by
  cases e with
  | command req =>
    obtain ⟨cmd, sqId, nsecsStart⟩ := req
    cases ho : znsProcNvmeIoCmd c s ⟨cmd, sqId, nsecsStart⟩ with
    | error f => simp [znsMachine, ho, Except.map] at h
    | ok o =>
      simp only [znsMachine, ho, Except.map, Except.ok.injEq] at h
      subst h
      unfold znsProcNvmeIoCmd at ho
      dsimp only at ho
      cases cmd with
      | write rw => exact znsWrite_lost hc haddr ho
      | append rw => exact znsWrite_lost hc haddr ho
      | read rw => cases ho; exact (znsRead_same _ _ _).lost
      | flush => cases ho; exact (znsFlush_same _).lost
      | mgmtSend cmd =>
        obtain ⟨r, hsend, ho⟩ := bind_eq_ok ho
        cases ho
        exact znsZmgmtSend_lost hc haddr hsend
      | other opcode => cases ho; rfl
  | fire i =>
    simp only [znsMachine, Except.ok.injEq] at h
    subst h
    exact (s.fire_same i).lost

/-- The counter of random write areas is the number of active zones that have one. -/
def ZrwaCounted (c : ZnsCfg) (s : ZnsFtl) : Prop :=
  (s.resInfos .zrwaZone).acquiredCnt = ((Finset.range c.zp.nrZones).filter fun zid =>
    ((s.zoneDescs zid).state = .openedImpl ∨ (s.zoneDescs zid).state = .openedExpl ∨
      (s.zoneDescs zid).state = .closed) ∧ (s.zoneDescs zid).zrwav = true).card

theorem zrwaCounted_iff (hc : ZonesCounted c s) : ZrwaCounted c s ↔ lostZrwa c s = 0 := by
  have hle := hc.zrwa
  have hcount : s.numZones c.zp.nrZones (·.hasZrwa) = ((Finset.range c.zp.nrZones).filter fun zid =>
      ((s.zoneDescs zid).state = .openedImpl ∨ (s.zoneDescs zid).state = .openedExpl ∨
        (s.zoneDescs zid).state = .closed) ∧ (s.zoneDescs zid).zrwav = true).card := by
    simp [ZnsFtl.numZones, ZoneDescriptor.hasZrwa, ZoneDescriptor.isActive, ZoneDescriptor.isOpen, or_assoc]
  rw [ZrwaCounted, ← hcount, lostZrwa]
  show s.acquired .zrwaZone = _ ↔ _
  omega

/-- **The random write areas are accounted for** exactly if no write of the run filled a
    zone that has one. -/
theorem zrwa_resources_counted (haddr : ∀ e ∈ es, e.Addressed c)
    (hrun : (znsMachine c).run (znsInitFtl c clock storage) es = .ok s) :
    ZrwaCounted c s ↔ (znsMachine c).Along (fun s e => ¬ e.FillsZrwa c s) (znsInitFtl c clock storage) es := by
  have hinit := zonesCounted_init c clock storage
  have htotal := Machine.run_total (I := ZonesCounted c) (f := lostZrwa c) (w := ZnsEvent.fillWeight c)
    (fun s e s' hc haddr h => ⟨hc.step haddr h, znsMachine_lost hc haddr h⟩) hinit
    (Machine.along_of_forall haddr) hrun
  have hzero : lostZrwa c (znsInitFtl c clock storage) = 0 := Nat.zero_sub _
  rw [zrwaCounted_iff (hinit.run haddr hrun), htotal, hzero, Nat.zero_add, Machine.total_eq_zero hrun]
  have hiff (s : ZnsFtl) (e : ZnsEvent) : e.fillWeight c s = 0 ↔ ¬ e.FillsZrwa c s := by
    rw [ZnsEvent.fillWeight]
    split_ifs with h <;> simp [h]
  exact ⟨Machine.Along.mono fun s e => (hiff s e).1, Machine.Along.mono fun s e => (hiff s e).2⟩

/-- Two zones of two pages, and random write areas of one page. -/
def zrwaZones : ZnsCfg :=
  { zn540 with
    zp := { zn540.zp with
      zoneSize := 8192
      zoneWbSize := 8192
      zrwaSize := 4096
      zrwaBufferSize := 8192
      lbasPerZrwafg := 8
      lbasPerZrwa := 8 }
    zoneSize_pos := by decide
    zoneSize_mod := by decide
    zoneSize_lt := by decide }

/-- The first zone is opened with a random write area, and its first page is written. -/
def openZrwaWrite : List ZnsEvent :=
  [.command ⟨.mgmtSend ⟨0, ZSA_OPEN_ZONE, false, true⟩, 1, 0⟩, .command ⟨.write ⟨0, 7, 0⟩, 1, 0⟩]

theorem openZrwaWrite_addressed (es : List ZnsEvent)
    (h : ∀ e ∈ es, e.Addressed zrwaZones) : ∀ e ∈ openZrwaWrite ++ es, e.Addressed zrwaZones := by
  simp only [openZrwaWrite, List.cons_append, List.nil_append, List.forall_mem_cons]
  refine ⟨.inr (by decide), ?_, h⟩
  show lbaToZone zrwaZones _ < 2
  decide

/-- The zone is finished. -/
def finishZrwa : List ZnsEvent := [.command ⟨.mgmtSend ⟨0, ZSA_FINISH_ZONE, false, false⟩, 1, 0⟩]

theorem zrwa_resources_counted_finish :
    ∃ s, (znsMachine zrwaZones).run (znsInitFtl zrwaZones (fun _ => 0) fun _ => 0)
        (openZrwaWrite ++ finishZrwa) = .ok s ∧
      (s.zoneDescs 0).state = .full ∧ ZrwaCounted zrwaZones s := by
  have haddr := openZrwaWrite_addressed finishZrwa (by
    simp only [finishZrwa, List.forall_mem_cons]
    exact ⟨.inr (by decide), List.forall_mem_nil _⟩)
  have hmap : ((znsMachine zrwaZones).run (znsInitFtl zrwaZones (fun _ => 0) fun _ => 0)
      (openZrwaWrite ++ finishZrwa)).map (fun s => (s.zoneDescs 0).state) = .ok .full := by decide +kernel
  obtain ⟨s, hrun, hfull⟩ := exists_ok_of_map hmap
  exact ⟨s, hrun, hfull, (zrwa_resources_counted haddr hrun).2 (by decide +kernel)⟩

/-- The second page is written, twice over. -/
def fillZrwa : List ZnsEvent := [.command ⟨.write ⟨0, 15, 0⟩, 1, 0⟩, .command ⟨.write ⟨8, 7, 0⟩, 1, 0⟩]

/-- The writes fill the first zone, and the resource of its random write area stays taken. -/
theorem zrwa_resources_counted_fill :
    ∃ s, (znsMachine zrwaZones).run (znsInitFtl zrwaZones (fun _ => 0) fun _ => 0)
        (openZrwaWrite ++ fillZrwa) = .ok s ∧
      (s.zoneDescs 0).state = .full ∧ (s.zoneDescs 1).state = .empty ∧
      (s.resInfos .zrwaZone).acquiredCnt = 1 ∧ ¬ ZrwaCounted zrwaZones s := by
  have hmap : ((znsMachine zrwaZones).run (znsInitFtl zrwaZones (fun _ => 0) fun _ => 0)
      (openZrwaWrite ++ fillZrwa)).map (fun s => ((s.zoneDescs 0).state, (s.zoneDescs 1).state,
        (s.resInfos .zrwaZone).acquiredCnt)) = .ok (.full, .empty, 1) := by decide +kernel
  obtain ⟨s, hrun, hx⟩ := exists_ok_of_map hmap
  simp only [Prod.mk.injEq] at hx
  refine ⟨s, hrun, hx.1, hx.2.1, hx.2.2, fun h => ?_⟩
  have hcount := hx.2.2.symm.trans h
  have hnone : ((Finset.range zrwaZones.zp.nrZones).filter fun zid =>
      ((s.zoneDescs zid).state = .openedImpl ∨ (s.zoneDescs zid).state = .openedExpl ∨
        (s.zoneDescs zid).state = .closed) ∧ (s.zoneDescs zid).zrwav = true).card = 0 := by
    rw [Finset.card_eq_zero, Finset.filter_eq_empty_iff]
    intro zid hzid
    have hlt : zid < 2 := Finset.mem_range.1 hzid
    interval_cases zid
    · simp [hx.1]
    · simp [hx.2.1]
  omega

end WaitGc

/-
  WAITGC verification — the buffers of random write areas.

  A write that reopens a closed zone takes `zrwa_size` bytes of the buffer,
  which `__zmgmt_send_close_zone` never gives back, and asserts that it gets
  them.  A flush takes the bytes that it pushes out, and a one-shot page is
  given back when it is complete: also the part of it that an explicit flush
  skipped without taking anything, and also after a reset refilled the buffer.

  `zrwa_buffers_kept`: in a run without such steps the assertion holds, and no
  buffer has more left than it is large.
-/
import WaitGc.Proof.ZoneDevices
import WaitGc.Proof.ZrwaSpace
import WaitGc.Theorems.SequentialWrites
import WaitGc.Theorems.ZrwaResources

namespace WaitGc

open Outcome Function

variable {c : ZnsCfg} {s s' : ZnsFtl} {zid slba nrLba wp n due : ℕ} {rw : RwCommand} {sqid start : ℕ}
  {o : ZnsOutcome} {z : ZoneDescriptor} {b b' : Buffer} {clock storage : ℕ → ℕ} {es : List ZnsEvent}

/-! ## The condition -/

/-- The random write area is one of whole one-shot pages and of whole flush granules, and
    its buffer holds it twice. -/
structure ZrwaParams (c : ZnsCfg) : Prop where
  granule : 1 ≤ c.zp.lbasPerZrwafg
  granules : c.zp.lbasPerZrwafg ∣ c.zp.lbasPerZrwa
  oneshots : oneshotBytes c ∣ c.zp.zrwaSize
  buffer : 2 * c.zp.zrwaSize ≤ c.zp.zrwaBufferSize
  -- as `zns_init_params` sets them; the fields have 32 bits
  lbas : c.zp.lbasPerZrwa = c.zp.zrwaSize / LBA_SIZE
  zrwaSize_lt : c.zp.zrwaSize < 2 ^ 32

/-- The bytes between the start of the one-shot page that `wp` lies in, and `wp`. -/
def zrwaCut (c : ZnsCfg) (zid wp : ℕ) : ℕ :=
  (wp - zoneStart c zid) % (c.sp.pgsPerOneshotpg * c.sp.secsPerPg) * LBA_SIZE

/-- What the buffer has lent, and no scheduled release gives back, covers the part of a
    one-shot page below `wp`. -/
def Covered (c : ZnsCfg) (zid : ℕ) (b : Buffer) (due wp : ℕ) : Prop :=
  b.remaining + due + zrwaCut c zid wp ≤ b.size

/-- What a write to a random write area needs: to reopen a closed zone, `zrwa_size` bytes
    of the buffer; to flush, a random write area and a zone that is aligned. -/
structure ZrwaWriteFits (c : ZnsCfg) (s : ZnsFtl) (rw : RwCommand) : Prop where
  reopen : (s.zoneDescs (lbaToZone c rw.slba.toNat)).state = .closed →
    0 < c.zp.zrwaSize ∧ c.zp.zrwaSize ≤ (s.buffers (.zrwa (lbaToZone c rw.slba.toNat))).remaining
  flush : 0 < zrwaFlush c s rw → 0 < c.zp.zrwaSize ∧ ZoneAligned c (lbaToZone c rw.slba.toNat)

/-- A write that is not refused fits. -/
def ZrwaWriteKeeps (c : ZnsCfg) (s : ZnsFtl) (rw : RwCommand) : Prop :=
  (s.zoneDescs (lbaToZone c rw.slba.toNat)).zrwav = true →
    ¬ ZrwaRefused c s (lbaToZone c rw.slba.toNat) rw.slba.toNat rw.nrLba → ZrwaWriteFits c s rw

/-- `__zmgmt_send_flush_explicit_zrwa` moves the write pointer behind `slba`, and not to the
    end of the zone. -/
structure ZrwaStops (c : ZnsCfg) (z : ZoneDescriptor) (zid slba : ℕ) : Prop extends
    ExplicitFlush c z zid slba where
  notEnd : u64 (slba + 1) ≠ u64 (zoneToSlba c zid + z.zoneCapacity)

/-- What a management command needs: a reset, that no release is scheduled; an explicit
    flush, that the one-shot page it stops in is covered. -/
structure SendKeeps (c : ZnsCfg) (s : ZnsFtl) (action : BitVec 8) (slba : ℕ) : Prop where
  reset : (s.zoneDescs (lbaToZone c slba)).Resets action → dueTo (.zrwa (lbaToZone c slba)) s.pending = 0
  flush : action = ZSA_FLUSH_EXPL_ZRWA →
    ZrwaStops c (s.zoneDescs (lbaToZone c slba)) (lbaToZone c slba) slba →
      Covered c (lbaToZone c slba) (s.buffers (.zrwa (lbaToZone c slba)))
        (dueTo (.zrwa (lbaToZone c slba)) s.pending) (slba + 1)

/-- The calls of `__zmgmt_send`, one for each zone. -/
def zmgmtCalls (c : ZnsCfg) (action : BitVec 8) (option : Bool) : Machine ZnsFtl ℕ ZnsFault where
  step s slba := (zmgmtSend c s slba action option).map Prod.snd

/-- The zones that a management command goes over. -/
def ZmgmtSendCommand.slbas (c : ZnsCfg) (cmd : ZmgmtSendCommand) : List ℕ :=
  if cmd.selectAll then (List.range c.zp.nrZones).map (zoneToSlba c) else [cmd.slba.toNat]

/-- The event keeps the buffers of random write areas. -/
def ZnsEvent.KeepsZrwa (c : ZnsCfg) (s : ZnsFtl) : ZnsEvent → Prop
  | .command ⟨.write rw, _, _⟩ | .command ⟨.append rw, _, _⟩ => ZrwaWriteKeeps c s rw
  | .command ⟨.mgmtSend cmd, _, _⟩ =>
    (zmgmtCalls c cmd.zsa cmd.zsaso).Along (fun s slba => SendKeeps c s cmd.zsa slba) s (cmd.slbas c)
  | _ => True

instance (zid wp : ℕ) (b : Buffer) (due : ℕ) : Decidable (Covered c zid b due wp) := Nat.decLe _ _

instance (s : ZnsFtl) (rw : RwCommand) : Decidable (ZrwaWriteFits c s rw) :=
  decidable_of_iff
    (((s.zoneDescs (lbaToZone c rw.slba.toNat)).state = .closed →
        0 < c.zp.zrwaSize ∧ c.zp.zrwaSize ≤ (s.buffers (.zrwa (lbaToZone c rw.slba.toNat))).remaining) ∧
      (0 < zrwaFlush c s rw → 0 < c.zp.zrwaSize ∧ ZoneAligned c (lbaToZone c rw.slba.toNat)))
    ⟨fun ⟨h₁, h₂⟩ => ⟨h₁, h₂⟩, fun ⟨h₁, h₂⟩ => ⟨h₁, h₂⟩⟩

instance (s : ZnsFtl) (rw : RwCommand) : Decidable (ZrwaWriteKeeps c s rw) :=
  inferInstanceAs (Decidable (_ → _ → _))

instance (z : ZoneDescriptor) (zid slba : ℕ) : Decidable (ZrwaStops c z zid slba) :=
  decidable_of_iff
    ((z.hasZrwa = true ∧ z.wp ≤ slba ∧ slba ≤ min (sub64 (u64 (z.wp + c.zp.lbasPerZrwa)) 1)
        (sub64 (u64 (zoneToSlba c zid + z.zoneCapacity)) 1) ∧
        u64 (sub64 slba z.wp + 1) % c.zp.lbasPerZrwafg = 0) ∧
      u64 (slba + 1) ≠ u64 (zoneToSlba c zid + z.zoneCapacity))
    ⟨fun ⟨⟨h₁, h₂, h₃, h₄⟩, h₅⟩ => ⟨⟨h₁, h₂, h₃, h₄⟩, h₅⟩,
      fun ⟨⟨h₁, h₂, h₃, h₄⟩, h₅⟩ => ⟨⟨h₁, h₂, h₃, h₄⟩, h₅⟩⟩

instance (s : ZnsFtl) (action : BitVec 8) (slba : ℕ) : Decidable (SendKeeps c s action slba) :=
  decidable_of_iff
    (((s.zoneDescs (lbaToZone c slba)).Resets action → dueTo (.zrwa (lbaToZone c slba)) s.pending = 0) ∧
      (action = ZSA_FLUSH_EXPL_ZRWA →
        ZrwaStops c (s.zoneDescs (lbaToZone c slba)) (lbaToZone c slba) slba →
          Covered c (lbaToZone c slba) (s.buffers (.zrwa (lbaToZone c slba)))
            (dueTo (.zrwa (lbaToZone c slba)) s.pending) (slba + 1)))
    ⟨fun ⟨h₁, h₂⟩ => ⟨h₁, h₂⟩, fun ⟨h₁, h₂⟩ => ⟨h₁, h₂⟩⟩

instance (s : ZnsFtl) : ∀ e : ZnsEvent, Decidable (e.KeepsZrwa c s)
  | .command ⟨.write rw, _, _⟩ | .command ⟨.append rw, _, _⟩ => inferInstanceAs (Decidable (ZrwaWriteKeeps c s rw))
  | .command ⟨.mgmtSend cmd, _, _⟩ => inferInstanceAs (Decidable (Machine.Along _ _ s (cmd.slbas c)))
  | .command ⟨.read _, _, _⟩ | .command ⟨.flush, _, _⟩ | .command ⟨.other _, _, _⟩ | .fire _ => .isTrue trivial

/-! ## Zones -/

/-- A zone obeys the law: where it lies, and what its buffer has left. -/
structure ZrwaLaw (c : ZnsCfg) (zid : ℕ) (z : ZoneDescriptor) (b : Buffer) (due : ℕ) : Prop where
  zslba : z.zslba = zoneStart c zid
  capacity : z.zoneCapacity = lbasPerZone c
  free : b.remaining + due ≤ b.size
  empty : z.state = .empty → z.wp = z.zslba ∧ z.zrwav = false
  ge : z.hasZrwa = true → zoneStart c zid ≤ z.wp
  le : z.hasZrwa = true → z.wp ≤ zoneStart c zid + lbasPerZone c
  covered : z.hasZrwa = true → Covered c zid b due z.wp

theorem zoneStart_lt (c : ZnsCfg) (hzid : zid < c.zp.nrZones) : zoneStart c zid + lbasPerZone c < 2 ^ 56 := by
  have hn := c.nrZones_lt
  have hlt := lbasPerZone_lt c
  have hle : zid * lbasPerZone c ≤ 2 ^ 32 * 2 ^ 23 := Nat.mul_le_mul (by omega) hlt.le
  unfold zoneStart
  omega

theorem ZrwaLaw.settle {due' : ℕ} (h : ZrwaLaw c zid z b due) (hsize : b'.size = b.size)
    (hle : b'.remaining + due' ≤ b.remaining + due) : ZrwaLaw c zid z b' due' where
  zslba := h.zslba
  capacity := h.capacity
  free := hsize ▸ hle.trans h.free
  empty := h.empty
  ge := h.ge
  le := h.le
  covered hz := (Nat.add_le_add_right hle _).trans (hsize ▸ h.covered hz)

theorem ZrwaLaw.spend (h : ZrwaLaw c zid z b due) (hsize : b'.size = b.size) (hle : b'.remaining ≤ b.remaining) :
    ZrwaLaw c zid z b' due := h.settle hsize (Nat.add_le_add_right hle _)

theorem ZrwaLaw.setState (h : ZrwaLaw c zid z b due) {state : ZoneState} (hempty : state ≠ .empty)
    (hactive : ({ z with state } : ZoneDescriptor).hasZrwa = true → z.isActive = true) :
    ZrwaLaw c zid { z with state } b due := by
  have hzrwa (hz : ({ z with state } : ZoneDescriptor).hasZrwa = true) : z.hasZrwa = true := by
    have hzrwav : z.zrwav = true := by
      rw [ZoneDescriptor.hasZrwa, Bool.and_eq_true] at hz
      exact hz.2
    rw [ZoneDescriptor.hasZrwa, hactive hz, hzrwav]
    rfl
  exact ⟨h.zslba, h.capacity, h.free, fun hz => absurd hz hempty, fun hz => h.ge (hzrwa hz),
    fun hz => h.le (hzrwa hz), fun hz => h.covered (hzrwa hz)⟩

/-- A flush that schedules the release of no more one-shot pages than it completes. -/
theorem Covered.flush {due' pages : ℕ} (h : Covered c zid b due wp) (hge : zoneStart c zid ≤ wp)
    (hpages : pages ≤ (wp - zoneStart c zid + n) / 8) (hsize : b'.size = b.size)
    (hspent : b'.remaining + n * 512 ≤ b.remaining)
    (hdue : due' + oneshotBytes c * ((wp - zoneStart c zid) / 8 / c.sp.pgsPerOneshotpg) ≤
      due + oneshotBytes c * (pages / c.sp.pgsPerOneshotpg)) :
    Covered c zid b' due' (wp + n) := by
  unfold Covered zrwaCut at h ⊢
  rw [show wp + n - zoneStart c zid = wp - zoneStart c zid + n by omega, c.secsPerPg_eq,
    show LBA_SIZE = 512 from rfl]
  rw [c.secsPerPg_eq, show LBA_SIZE = 512 from rfl] at h
  generalize wp - zoneStart c zid = x at *
  have hbytes : oneshotBytes c = c.sp.pgsPerOneshotpg * 8 * 512 := by
    rw [oneshotBytes, c.pgsz_eq, show LBA_SIZE = 512 from rfl]
    omega
  have hle : pages / c.sp.pgsPerOneshotpg ≤ (x + n) / (c.sp.pgsPerOneshotpg * 8) := by
    rw [Nat.mul_comm c.sp.pgsPerOneshotpg, ← Nat.div_div_eq_div_mul]
    exact Nat.div_le_div_right hpages
  have hmul := Nat.mul_le_mul_left (oneshotBytes c) hle
  rw [Nat.div_div_eq_div_mul, Nat.mul_comm 8] at hdue
  rw [hbytes] at hdue hmul
  have hx := Nat.div_add_mod x (c.sp.pgsPerOneshotpg * 8)
  have hx' := Nat.div_add_mod (x + n) (c.sp.pgsPerOneshotpg * 8)
  generalize c.sp.pgsPerOneshotpg * 8 = lbas at *
  rw [Nat.mul_right_comm] at hdue hmul
  rw [Nat.mul_right_comm lbas 512] at hdue hmul
  omega

/-! ## How far a write flushes -/

theorem ZrwaParams.lbasPerZrwa_lt (hp : ZrwaParams c) : c.zp.lbasPerZrwa < 2 ^ 23 := by
  have hlt := hp.zrwaSize_lt
  rw [hp.lbas, show LBA_SIZE = 512 from rfl]
  omega

/-- The last block of a write that is not refused lies in its zone. -/
theorem zrwaRefused_elba (hp : ZrwaParams c) (hlbas : 0 < c.zp.lbasPerZrwa) (hzid : zid < c.zp.nrZones)
    (hnr : nrLba ≤ 2 ^ 16) (haddr : lbaToZone c slba = zid)
    (hwp : (s.zoneDescs zid).wp ≤ zoneStart c zid + lbasPerZone c)
    (h : ¬ ZrwaRefused c s zid slba nrLba) :
    zoneStart c zid ≤ sub64 (u64 (slba + nrLba)) 1 ∧
      sub64 (u64 (slba + nrLba)) 1 < zoneStart c zid + lbasPerZone c := by
  obtain ⟨-, hbound, -, hend, -⟩ : _ ∧ _ ∧ _ ∧ _ ∧ _ := by simpa only [ZrwaRefused, not_or] using h
  have hzone : lbaToZone c (sub64 (u64 (slba + nrLba)) 1) = zid := by
    simp only [checkBoundaryError, decide_eq_false_iff_not, not_not] at hbound
    rw [show u32 nrLba = nrLba from Nat.mod_eq_of_lt (by omega)] at hbound
    rw [← hbound, haddr]
  generalize sub64 (u64 (slba + nrLba)) 1 = elba at *
  have hstart := zoneStart_lt c hzid
  have hn := c.nrZones_lt
  have hlba := lbasPerZone_pos c
  have hlba' := lbasPerZone_lt c
  have hpages := lbasPerZone_eq c
  have hlimit := hp.lbasPerZrwa_lt
  have hle : elba ≤ zoneStart c zid + lbasPerZone c + 2 ^ 24 := by
    rw [not_lt, zrwaImplEnd] at hend
    unfold sub64 u64 u32 at hend
    omega
  have hquot : elba / lbasPerZone c = zid := by
    have hmod := Nat.mod_add_div (elba / lbasPerZone c) (2 ^ 32)
    rw [lbaToZone, u32] at hzone
    rw [hzone] at hmod
    have hmul := Nat.div_mul_le_self elba (lbasPerZone c)
    rcases Nat.eq_zero_or_pos (elba / lbasPerZone c / 2 ^ 32) with h0 | hpos
    · omega
    · -- the next zone of that number lies too far away
      have hfar : (zid + 2 ^ 32) * lbasPerZone c ≤ elba / lbasPerZone c * lbasPerZone c :=
        Nat.mul_le_mul_right _ (by omega)
      rw [Nat.add_mul] at hfar
      unfold zoneStart at hle
      omega
  have hdiv := Nat.div_add_mod elba (lbasPerZone c)
  have hmod := Nat.mod_lt elba hlba
  rw [hquot, Nat.mul_comm] at hdiv
  unfold zoneStart
  omega

/-- **A flush** stays in the zone. -/
theorem nrLbasFlush_le (hp : ZrwaParams c) (hlbas : 0 < c.zp.lbasPerZrwa) (hzid : zid < c.zp.nrZones) {elba : ℕ}
    (hge : zoneStart c zid ≤ wp) (hle : wp ≤ zoneStart c zid + lbasPerZone c)
    (helba : zoneStart c zid ≤ elba ∧ elba < zoneStart c zid + lbasPerZone c)
    (h : nrLbasFlush c zid wp elba = .ok n) : wp + n ≤ zoneStart c zid + lbasPerZone c := by
  have hstart := zoneStart_lt c hzid
  have hn := c.nrZones_lt
  have hlba := lbasPerZone_lt c
  have hlimit := hp.lbasPerZrwa_lt
  unfold nrLbasFlush at h
  split_ifs at h with himpl hend
  · -- whole granules, and no more than the random write area holds
    obtain ⟨-, -, h⟩ := bind_eq_ok h
    cases h
    have hgranule := Nat.le_of_dvd hlbas hp.granules
    have himpl' : zrwaImplStart c wp = wp + c.zp.lbasPerZrwa := Nat.mod_eq_of_lt (by omega)
    rw [himpl'] at himpl ⊢
    have hsub : sub64 elba (wp + c.zp.lbasPerZrwa) = elba - (wp + c.zp.lbasPerZrwa) := by
      unfold sub64 u64
      omega
    rw [hsub, divRoundUp, u64, u64, Nat.mod_eq_of_lt (a := elba - _ + 1 + _ - 1) (by omega)]
    have hmul := Nat.div_mul_le_self (elba - (wp + c.zp.lbasPerZrwa) + 1 + c.zp.lbasPerZrwafg - 1)
      c.zp.lbasPerZrwafg
    have hmod := Nat.mod_le ((elba - (wp + c.zp.lbasPerZrwa) + 1 + c.zp.lbasPerZrwafg - 1) /
      c.zp.lbasPerZrwafg * c.zp.lbasPerZrwafg) (2 ^ 64)
    omega
  · -- the rest of the zone
    cases h
    have hlast : elba + 1 = zoneStart c zid + lbasPerZone c := by
      have hsucc : u32 (zid + 1) = zid + 1 := Nat.mod_eq_of_lt (by omega)
      have hmul : (zid + 1) * lbasPerZone c = zoneStart c zid + lbasPerZone c := Nat.succ_mul _ _
      rw [zoneToElba, hsucc, zoneToSlba, hmul] at hend
      unfold sub64 u64 u32 at hend
      omega
    unfold sub64 u64
    omega
  · cases h
    exact hle

theorem ZrwaParams.lbasPerZrwa_pos (hp : ZrwaParams c) (hsize : 0 < c.zp.zrwaSize) : 0 < c.zp.lbasPerZrwa := by
  have hle := Nat.le_of_dvd hsize hp.oneshots
  have hpos : 0 < oneshotBytes c := Nat.pos_of_dvd_of_pos hp.oneshots hsize
  have hone : 0 < c.sp.pgsPerOneshotpg := Nat.pos_of_mul_pos_right hpos
  rw [oneshotBytes, c.pgsz_eq, show LBA_SIZE = 512 from rfl] at hle
  rw [hp.lbas, show LBA_SIZE = 512 from rfl]
  omega

/-! ## The assertion -/

theorem pure_ne_error {α : Type} {a : α} {f : ZnsFault} : (pure a : Except ZnsFault α) ≠ .error f :=
  fun h => nomatch h

theorem liftZns_ne {α : Type} (x : Except Fault α) : liftZns x ≠ .error .zrwaAssert := by
  cases x with
  | ok a => intro h; cases h
  | error f => intro h; cases h

theorem zrwaAllocate_ne (s : ZnsFtl) (zid size : ℕ) : zrwaAllocate c s zid size ≠ .error .zrwaAssert := by
  unfold zrwaAllocate
  by_cases hnull : c.zp.zrwaBufferSize ≠ 0
  · rw [require_pos hnull, Ne, bind_eq_error_iff]
    rintro (h | ⟨_, -, h⟩)
    · cases h
    · rw [bind_eq_error_iff] at h
      rcases h with h | ⟨_, -, h⟩
      · exact liftZns_ne _ h
      · cases h
  · rw [require_neg hnull]
    intro h
    cases h

theorem nrLbasFlush_ne (zid wp elba : ℕ) : nrLbasFlush c zid wp elba ≠ .error .zrwaAssert := by
  unfold nrLbasFlush
  split_ifs
  · by_cases hgranule : c.zp.lbasPerZrwafg ≠ 0
    · rw [require_pos hgranule]
      intro h
      cases h
    · rw [require_neg hgranule]
      intro h
      cases h
  · intro h
    cases h
  · intro h
    cases h

/-- **The assertion holds** if a closed zone finds `zrwa_size` bytes of its buffer. -/
theorem zrwaAdmit_ne (hempty : (s.zoneDescs zid).state ≠ .empty) (hsize : c.zp.zrwaSize < 2 ^ 32)
    (h : ¬ ZrwaRefused c s zid slba nrLba → (s.zoneDescs zid).state = .closed →
      0 < c.zp.zrwaSize ∧ c.zp.zrwaSize ≤ (s.buffers (.zrwa zid)).remaining) :
    zrwaAdmit c s zid slba nrLba ≠ .error .zrwaAssert := by
  unfold zrwaAdmit
  unfold ZrwaRefused OpenRefused at h
  dsimp only
  by_cases halign : lbaToByte nrLba % c.writeUnitSize ≠ 0
  · rw [if_pos halign]
    intro h
    cases h
  rw [if_neg halign]
  by_cases hbound : checkBoundaryError c slba nrLba = false
  · rw [if_pos hbound]
    intro h
    cases h
  rw [if_neg hbound]
  by_cases hrange : slba < (s.zoneDescs zid).wp ∨
      zrwaImplEnd c (s.zoneDescs zid).wp < sub64 (u64 (slba + nrLba)) 1
  · rw [if_pos hrange]
    intro h
    cases h
  rw [if_neg hrange]
  cases hz : (s.zoneDescs zid).state with
  | empty => exact absurd hz hempty
  | closed =>
    have havail := acquire_fst s .openZone
    have hbuf := acquire_buffers s .openZone
    rw [hz] at h
    generalize s.acquireZoneResource .openZone = r at havail hbuf
    obtain ⟨ok, s₁⟩ := r
    cases ok with
    | false =>
      intro h
      cases h
    | true =>
      have havail : true = s.isZoneResourceAvail .openZone := havail
      rw [not_or] at hrange
      have hroom := h (by simp [halign, hbound, hrange, ← havail]) rfl
      rw [Ne, bind_eq_error_iff]
      rintro (herr | ⟨a, halloc, herr⟩)
      · exact zrwaAllocate_ne _ _ _ herr
      · have hgiven := (zrwaAllocate_room halloc).1.2 ⟨by
          rw [u32, Nat.mod_eq_of_lt hsize]
          exact hroom.1.ne', by
          rw [show s₁.buffers = s.buffers from hbuf]
          exact hroom.2⟩
        rw [require_pos hgiven] at herr
        cases herr
  | _ =>
    intro h
    cases h

/-! ## Writes -/

/-- The law holds of every zone. -/
structure SpaceLaw (c : ZnsCfg) (s : ZnsFtl) : Prop where
  counted : ZonesCounted c s
  zones : ∀ zid < c.zp.nrZones,
    ZrwaLaw c zid (s.zoneDescs zid) (s.buffers (.zrwa zid)) (dueTo (.zrwa zid) s.pending)

/-- A command that changes one zone, spends space of its buffer and schedules releases to
    it. -/
theorem SpaceLaw.spend {timing : Timing} {pending : List ZnsOp} (h : SpaceLaw c s) (hspent : Spent zid n s s')
    (hdescs : s'.zoneDescs = update s.zoneDescs zid z)
    (hdue : ∀ i, i ≠ zid → dueTo (.zrwa i) pending = dueTo (.zrwa i) s.pending)
    (hzone : ZrwaLaw c zid z (s'.buffers (.zrwa zid)) (dueTo (.zrwa zid) pending))
    (hc : ZonesCounted c { s' with timing, pending }) : SpaceLaw c { s' with timing, pending } where
  counted := hc
  zones i hi := by
    dsimp only
    by_cases hzid : i = zid
    · rw [hzid, hdescs, update_self]
      exact hzone
    · rw [hdescs, update_of_ne hzid, hdue i hzid]
      exact (h.zones i hi).spend (hspent.size i) (hspent.le i)

theorem ZoneDescriptor.openImpl_not_empty (z : ZoneDescriptor) : z.openImpl.state ≠ .empty := by
  intro hempty
  have hopen := z.openImpl_isOpen
  rw [isOpen_eq, hempty] at hopen
  simp at hopen

theorem ZoneDescriptor.written_not_empty (z : ZoneDescriptor) (zid n : ℕ) : (z.written c zid n).state ≠ .empty := by
  rw [written, advance]
  dsimp only
  split_ifs
  · simp
  · exact z.openImpl_not_empty

theorem ZrwaLaw.openImpl (h : ZrwaLaw c zid z b due) (hactive : z.isActive = true) :
    ZrwaLaw c zid z.openImpl b due := h.setState z.openImpl_not_empty fun _ => hactive

theorem lbaToLpn_wp (hge : zoneStart c zid ≤ wp) :
    lbaToLpn c wp = zid * pgsPerZone c + (wp - zoneStart c zid) / 8 := by
  have hstart : zoneStart c zid = zid * pgsPerZone c * 8 := by
    rw [zoneStart, lbasPerZone_eq, Nat.mul_assoc]
  rw [lbaToLpn, c.secsPerPg_eq]
  omega

/-- **A flush** of a random write area takes the bytes that it pushes out. -/
theorem ZrwaLaw.flush {pending : List ZnsOp} {j : FlashJob} {xfer : ℕ}
    (h : ZrwaLaw c zid z b (dueTo (.zrwa zid) pending)) (hz : z.hasZrwa = true) (hzid : zid < c.zp.nrZones)
    (halign : ZoneAligned c zid) (hle : z.wp + n ≤ zoneStart c zid + lbasPerZone c) (hsize : b'.size = b.size)
    (hspent : b'.remaining + lbaToByte n ≤ b.remaining) (hj : j.pending = pending) :
    ZrwaLaw c zid (z.openImpl.advance c zid n) b' (dueTo (.zrwa zid) (flushFlashPages c sqid xfer (.zrwa zid)
      (n / c.sp.secsPerPg) (lbaToLpn c z.wp) (n / c.sp.secsPerPg) j).pending) := by
  have hge := h.ge hz
  have hstart := zoneStart_lt c hzid
  have hlba := lbasPerZone_lt c
  have hpages := lbasPerZone_eq c
  have hwp : (z.openImpl.advance c zid n).wp = z.wp + n := by
    show u64 (z.wp + u32 n) = z.wp + n
    rw [u32, Nat.mod_eq_of_lt (by omega), u64, Nat.mod_eq_of_lt (by omega)]
  have hbytes : lbaToByte n = n * 512 := by
    rw [lbaToByte, Nat.shiftLeft_eq, u64, show LBA_BITS = 9 from rfl]
    omega
  have hdue := @flushFlashPages_due c zid sqid halign xfer (.zrwa zid) (n / 8)
    ((z.wp - zoneStart c zid) / 8) (n / 8) j (by omega)
  rw [hj, ← lbaToLpn_wp hge] at hdue
  rw [c.secsPerPg_eq]
  have hcovered := (h.covered hz).flush hge (by omega) hsize (hbytes ▸ hspent) hdue
  rw [← hwp] at hcovered
  refine ⟨h.zslba, h.capacity, (Nat.le_add_right _ _).trans hcovered,
    fun hempty => absurd hempty (z.written_not_empty zid n), fun _ => ?_, fun _ => ?_, fun _ => hcovered⟩
  · rw [hwp]
    omega
  · rw [hwp]
    exact hle

theorem isActive_of_not_refused (hempty : (s.zoneDescs zid).state ≠ .empty)
    (h : ¬ ZrwaRefused c s zid slba nrLba) : (s.zoneDescs zid).isActive = true := by
  obtain ⟨-, -, -, -, hopen⟩ : _ ∧ _ ∧ _ ∧ _ ∧ _ := by simpa only [ZrwaRefused, not_or] using h
  unfold OpenRefused at hopen
  cases hz : (s.zoneDescs zid).state with
  | empty => exact absurd hz hempty
  | closed | openedImpl | openedExpl => simp [ZoneDescriptor.isActive, ZoneDescriptor.isOpen, hz]
  | full | readOnly | offline => simp [hz] at hopen

/-- **`__zns_write_zrwa`** keeps the law. -/
theorem SpaceLaw.writeZrwa (hp : ZrwaParams c) (h : SpaceLaw c s)
    (hzid : lbaToZone c rw.slba.toNat < c.zp.nrZones)
    (hzrwa : (s.zoneDescs (lbaToZone c rw.slba.toNat)).zrwav = true) (hkeeps : ZrwaWriteKeeps c s rw)
    (hc : ZonesCounted c o.ftl) (ho : znsWriteZrwa c s sqid start rw = .ok o) : SpaceLaw c o.ftl := by
  have hr := h.counted.room hzid
  have hlaw := h.zones _ hzid
  have hnr := rw.nrLba_le
  have hkeeps := hkeeps hzrwa
  have hempty : (s.zoneDescs (lbaToZone c rw.slba.toNat)).state ≠ .empty := fun hz => by
    rw [(hlaw.empty hz).2] at hzrwa
    cases hzrwa
  unfold znsWriteZrwa at ho
  dsimp only at ho
  obtain ⟨a, hadm, ho⟩ := bind_eq_ok ho
  have hrefused := zrwaAdmit_refused hadm
  have hspent := zrwaAdmit_spent hadm
  rcases zrwaAdmit_cases hr hzrwa hadm with ⟨hst, hmove⟩ | ⟨hst, hkeep⟩
  · rw [if_pos hst] at ho
    have hnot := mt hrefused.2 (not_not_intro hst)
    have hactive := isActive_of_not_refused hempty hnot
    have hz : (s.zoneDescs (lbaToZone c rw.slba.toNat)).hasZrwa = true := by
      rw [ZoneDescriptor.hasZrwa, hactive, hzrwa]
      rfl
    obtain ⟨flush, hflush, ho⟩ := bind_eq_ok ho
    by_cases hpos : 0 < flush
    · rw [if_pos hpos] at ho
      obtain ⟨b, halloc, ho⟩ := bind_eq_ok ho
      have hmove₁ := hmove.same (zrwaAllocate_same halloc)
      have hspent₁ := hspent.trans (zrwaAllocate_spent halloc)
      rw [if_pos hpos] at ho
      by_cases hdrop : b.1 = 0
      · -- the buffer is short: the request is tried again
        rw [if_pos hdrop] at ho
        cases ho
        refine h.spend hspent₁ hmove₁.descs (fun i _ => by rw [hspent₁.pending]) ?_ hc
        rw [hspent₁.pending]
        exact (hlaw.openImpl hactive).spend (hspent₁.size _) (hspent₁.le _)
      · rw [if_neg hdrop] at ho
        rw [if_neg hdrop, Nat.zero_add] at hspent₁
        have hfits := (hkeeps hnot).flush (by rwa [zrwaFlush_eq hflush])
        have hlbas := hp.lbasPerZrwa_pos hfits.1
        have hle := nrLbasFlush_le hp hlbas hzid (hlaw.ge hz) (hlaw.le hz)
          (zrwaRefused_elba hp hlbas hzid hnr rfl (hlaw.le hz) hnot) hflush
        have hopen : (b.2.zoneDescs (lbaToZone c rw.slba.toNat)).isOpen = true := by
          rw [hmove₁.descs, update_self]
          exact ZoneDescriptor.openImpl_isOpen _
        have hadvance := increaseWritePtr_move (hmove₁.toZoneMove.room hr) hopen flush
        rw [hmove₁.descs, update_self] at hadvance
        have hspent₂ := hspent₁.trans (increaseWritePtr_buffers (c := c) b.2 (lbaToZone c rw.slba.toNat) flush).spent
        have hdescs := (hmove₁.toZoneMove.trans hadvance).descs
        have hpending := hspent₂.pending
        have hbuf := hspent₂.remaining (lbaToZone c rw.slba.toNat)
        rw [if_pos rfl, Nat.add_zero] at hbuf
        cases ho
        refine h.spend hspent₂ hdescs (fun i hi => ?_) ?_ hc
        · rw [flushFlashPages_other (fun heq => hi (ZnsBuffer.zrwa.inj heq).symm), hpending]
        · exact hlaw.flush hz hzid hfits.2 hle (hspent₂.size _) hbuf hpending
    · rw [if_neg hpos] at ho
      obtain ⟨r, hr₁, ho⟩ := bind_eq_ok ho
      cases hr₁
      rw [if_neg hpos, if_neg Nat.one_ne_zero] at ho
      have hzero : flush = 0 := Nat.eq_zero_of_not_pos hpos
      subst hzero
      cases ho
      refine h.spend hspent hmove.descs (fun i _ => ?_) ?_ hc
      · rw [Nat.zero_div, flushFlashPages]
        exact congrArg _ hspent.pending
      · rw [Nat.zero_div, flushFlashPages]
        dsimp only
        rw [hspent.pending]
        exact (hlaw.openImpl hactive).spend (hspent.size _) (hspent.le _)
  · rw [if_neg hst] at ho
    cases ho
    rw [hkeep]
    exact h

/-- **`__zns_write`** keeps the law. -/
theorem SpaceLaw.writeSeq {append : Bool} (h : SpaceLaw c s) (hzid : lbaToZone c rw.slba.toNat < c.zp.nrZones)
    (hzrwa : (s.zoneDescs (lbaToZone c rw.slba.toNat)).zrwav = false) (hc : ZonesCounted c o.ftl)
    (ho : znsWriteSeq c s sqid start append rw = .ok o) : SpaceLaw c o.ftl := by
  have hspace := znsWriteSeq_space ho
  have hsame (hs : SameZones s o.ftl) : SpaceLaw c o.ftl := by
    refine ⟨hc, fun i hi => ?_⟩
    rw [hs.descs, (hspace i).1, (hspace i).2]
    exact h.zones i hi
  rcases znsWriteSeq_cases (h.counted.room hzid) ho with ⟨-, hs⟩ | ⟨-, -, -, hs⟩ | ⟨-, -, -, -, -, hmove, -⟩
  · exact hsame hs
  · exact hsame hs
  · refine ⟨hc, fun i hi => ?_⟩
    rw [hmove.descs, (hspace i).1, (hspace i).2]
    by_cases hzid' : i = lbaToZone c rw.slba.toNat
    · rw [hzid', update_self]
      have hlaw := h.zones _ hzid
      have hnone : ¬ ((s.zoneDescs (lbaToZone c rw.slba.toNat)).written c (lbaToZone c rw.slba.toNat)
          rw.nrLba).hasZrwa = true := by
        intro hz
        rw [ZoneDescriptor.hasZrwa, Bool.and_eq_true] at hz
        exact Bool.false_ne_true (hzrwa.symm.trans hz.2)
      exact ⟨hlaw.zslba, hlaw.capacity, hlaw.free,
        fun hempty => absurd hempty (ZoneDescriptor.written_not_empty _ _ _), fun hz => absurd hz hnone,
        fun hz => absurd hz hnone, fun hz => absurd hz hnone⟩
    · rw [update_of_ne hzid']
      exact h.zones i hi

theorem znsWriteZrwa_ne (h : SpaceLaw c s) (hp : ZrwaParams c) (hzid : lbaToZone c rw.slba.toNat < c.zp.nrZones)
    (hzrwa : (s.zoneDescs (lbaToZone c rw.slba.toNat)).zrwav = true) (hkeeps : ZrwaWriteKeeps c s rw) :
    znsWriteZrwa c s sqid start rw ≠ .error .zrwaAssert := by
  have hempty : (s.zoneDescs (lbaToZone c rw.slba.toNat)).state ≠ .empty := fun hz => by
    rw [((h.zones _ hzid).empty hz).2] at hzrwa
    cases hzrwa
  unfold znsWriteZrwa
  dsimp only
  rw [Ne, bind_eq_error_iff]
  rintro (herr | ⟨a, -, herr⟩)
  · exact zrwaAdmit_ne hempty hp.zrwaSize_lt (fun hnot => (hkeeps hzrwa hnot).reopen) herr
  · by_cases hst : a.1 = .success
    · rw [if_pos hst, bind_eq_error_iff] at herr
      rcases herr with herr | ⟨flush, -, herr⟩
      · exact nrLbasFlush_ne _ _ _ herr
      · by_cases hpos : 0 < flush
        · rw [if_pos hpos, bind_eq_error_iff] at herr
          rcases herr with herr | ⟨b, -, herr⟩
          · exact zrwaAllocate_ne _ _ _ herr
          · split at herr
            · exact pure_ne_error herr
            · exact pure_ne_error herr
        · rw [if_neg hpos] at herr
          exact pure_ne_error herr
    · rw [if_neg hst] at herr
      cases herr

/-! ## Management -/

theorem hasZrwa_of_full (z : ZoneDescriptor) : ({ z with state := .full } : ZoneDescriptor).hasZrwa = false := rfl

theorem ZrwaLaw.finish (h : ZrwaLaw c zid z b due) : ZrwaLaw c zid { z with state := .full } b due :=
  h.setState (by simp) fun hz => by
    rw [hasZrwa_of_full] at hz
    cases hz

theorem closeZone_law (h : ZrwaLaw c zid (s.zoneDescs zid) b due) :
    ZrwaLaw c zid ((zmgmtSendCloseZone s zid).2.zoneDescs zid) b due := by
  unfold zmgmtSendCloseZone
  cases hz : (s.zoneDescs zid).state with
  | openedImpl | openedExpl =>
    show ZrwaLaw c zid (update s.zoneDescs zid _ zid) b due
    rw [update_self]
    exact h.setState (by simp) fun _ => by simp [ZoneDescriptor.isActive, ZoneDescriptor.isOpen, hz]
  | _ => exact h

theorem releaseZrwa_zoneDescs (s : ZnsFtl) (zrwa : Bool) : (s.releaseZrwa zrwa).zoneDescs = s.zoneDescs := by
  cases zrwa with
  | true => rfl
  | false => rfl

theorem finishZone_law (h : ZrwaLaw c zid (s.zoneDescs zid) b due) :
    ZrwaLaw c zid ((zmgmtSendFinishZone s zid).2.zoneDescs zid) b due := by
  have hfull (s' : ZnsFtl) (hs : s'.zoneDescs = s.zoneDescs) :
      ZrwaLaw c zid ((s'.changeZoneState zid .full).zoneDescs zid) b due := by
    rw [ZnsFtl.changeZoneState_zoneDescs, update_self, hs]
    exact h.finish
  unfold zmgmtSendFinishZone
  cases (s.zoneDescs zid).state with
  | openedImpl | openedExpl | closed => exact hfull _ (releaseZrwa_zoneDescs _ _)
  | empty => exact hfull s rfl
  | _ => exact h

theorem offlineZone_law (h : ZrwaLaw c zid (s.zoneDescs zid) b due) :
    ZrwaLaw c zid ((zmgmtSendOfflineZone s zid).2.zoneDescs zid) b due := by
  unfold zmgmtSendOfflineZone
  cases (s.zoneDescs zid).state with
  | readOnly =>
    show ZrwaLaw c zid (update s.zoneDescs zid _ zid) b due
    rw [update_self]
    refine h.setState (by simp) fun hz => ?_
    simp [ZoneDescriptor.hasZrwa, ZoneDescriptor.isActive, ZoneDescriptor.isOpen] at hz
  | _ => exact h

theorem acquire_zoneDescs (s : ZnsFtl) (type : ZoneResourceType) :
    (s.acquireZoneResource type).2.zoneDescs = s.zoneDescs := by
  obtain ⟨r, hr⟩ := acquireZoneResource_frame s type
  rw [hr]

theorem openClosedZone_descs (hdescs : s'.zoneDescs zid = z) :
    (openClosedZone s' zid).2.zoneDescs zid = z ∨
      (openClosedZone s' zid).2.zoneDescs zid = { z with state := .openedExpl } := by
  have hacquire := acquire_zoneDescs s' .openZone
  unfold openClosedZone
  generalize s'.acquireZoneResource .openZone = a at hacquire ⊢
  obtain ⟨ok, s₁⟩ := a
  have hz : s₁.zoneDescs zid = z := (congrFun hacquire zid).trans hdescs
  cases ok with
  | false => exact .inl hz
  | true =>
    refine .inr ?_
    show update s₁.zoneDescs zid _ zid = _
    rw [update_self, hz]

theorem openZone_law {zrwa : Bool} (h : ZrwaLaw c zid (s.zoneDescs zid) b due)
    (hempty : ((zmgmtSendOpenZone s zid zrwa).2.zoneDescs zid).state = .empty →
      ((zmgmtSendOpenZone s zid zrwa).2.zoneDescs zid).zrwav = false) :
    ZrwaLaw c zid ((zmgmtSendOpenZone s zid zrwa).2.zoneDescs zid) b due := by
  have hopen (hz : (s.zoneDescs zid).hasZrwa = true ∨ (s.zoneDescs zid).zrwav = false) :
      ZrwaLaw c zid { s.zoneDescs zid with state := .openedExpl } b due := by
    refine h.setState (by simp) fun hzrwa => ?_
    rw [ZoneDescriptor.hasZrwa, Bool.and_eq_true] at hzrwa
    rcases hz with hz | hz
    · rw [ZoneDescriptor.hasZrwa, Bool.and_eq_true] at hz
      exact hz.1
    · exact absurd (hz.symm.trans hzrwa.2) Bool.false_ne_true
  have hclosed (hz : (s.zoneDescs zid).isActive = true) :
      (s.zoneDescs zid).hasZrwa = true ∨ (s.zoneDescs zid).zrwav = false := by
    rw [ZoneDescriptor.hasZrwa, hz, Bool.true_and]
    exact (Bool.eq_false_or_eq_true _)
  unfold zmgmtSendOpenZone at hempty ⊢
  cases hz : (s.zoneDescs zid).state with
  | empty =>
    obtain ⟨hwp, hzrwav⟩ := h.empty hz
    rw [hz] at hempty
    dsimp only at hempty ⊢
    split_ifs at hempty ⊢
    iterate 3 exact h
    · -- the random write area starts with the zone
      have hdescs : ((((s.acquireZoneResource .zrwaZone).2.setZone zid
          { (s.acquireZoneResource .zrwaZone).2.zoneDescs zid with zrwav := true }).acquireZoneResource
            .activeZone).2.zoneDescs zid) = { s.zoneDescs zid with zrwav := true } := by
        rw [acquire_zoneDescs, ZnsFtl.setZone_zoneDescs, update_self, acquire_zoneDescs]
      rcases openClosedZone_descs hdescs with hr | hr
      · rw [hr] at hempty
        exact absurd (hempty hz) (by simp)
      · rw [hr]
        have hcut : zrwaCut c zid (s.zoneDescs zid).wp = 0 := by
          rw [zrwaCut, hwp, h.zslba, Nat.sub_self, Nat.zero_mod, Nat.zero_mul]
        refine ⟨h.zslba, h.capacity, h.free, fun hempty => (by cases hempty), fun _ => ?_, fun _ => ?_, fun _ => ?_⟩
        · exact (hwp.trans h.zslba).ge
        · exact (hwp.trans h.zslba).le.trans (Nat.le_add_right _ _)
        · rw [Covered, hcut]
          exact h.free
    · rcases openClosedZone_descs (congrFun (acquire_zoneDescs s .activeZone) zid) with hr | hr
      · rw [hr]
        exact h
      · rw [hr]
        exact hopen (.inr hzrwav)
  | closed =>
    dsimp only
    have hdescs : s.zoneDescs zid = s.zoneDescs zid := rfl
    rcases openClosedZone_descs hdescs with hr | hr
    · rw [hr]
      exact h
    · rw [hr]
      exact hopen (hclosed (by simp [ZoneDescriptor.isActive, ZoneDescriptor.isOpen, hz]))
  | openedImpl =>
    dsimp only
    rw [ZnsFtl.changeZoneState_zoneDescs, update_self]
    exact hopen (hclosed (by simp [ZoneDescriptor.isActive, ZoneDescriptor.isOpen, hz]))
  | _ => exact h

/-- An explicit flush that stops in a one-shot page leaves it covered. -/
theorem flushExplicitZrwa_law {r : ZnsStatus × ZnsFtl} (h : ZrwaLaw c zid (s.zoneDescs zid) b due)
    (hzid : zid < c.zp.nrZones) (haddr : lbaToZone c slba = zid)
    (hstops : ZrwaStops c (s.zoneDescs zid) zid slba → Covered c zid b due (slba + 1))
    (hr : zmgmtSendFlushExplicitZrwa c s slba = .ok r) : ZrwaLaw c zid (r.2.zoneDescs zid) b due := by
  have hstart := zoneStart_lt c hzid
  have hlba := lbasPerZone_pos c
  rcases flushExplicitZrwa_cases hr haddr with hr | ⟨hflush, hr⟩
  · rw [hr]
    exact h
  · rw [hr]
    by_cases hend : u64 (slba + 1) = u64 (zoneToSlba c zid + (s.zoneDescs zid).zoneCapacity)
    · rw [if_pos hend]
      have hnone : ¬ ({ (s.zoneDescs zid).flushed slba with state := .full } : ZoneDescriptor).hasZrwa = true := by
        rw [hasZrwa_of_full]
        exact Bool.false_ne_true
      rw [flushFull_state, ZnsFtl.setZone_zoneDescs, update_self]
      exact ⟨h.zslba, h.capacity, h.free, nofun, fun hz => absurd hz hnone, fun hz => absurd hz hnone,
        fun hz => absurd hz hnone⟩
    · rw [if_neg hend, ZnsFtl.setZone_zoneDescs, update_self]
      have hge := (h.ge hflush.zrwa).trans hflush.ge
      have hle : slba < zoneStart c zid + lbasPerZone c := by
        have hle := hflush.le.trans (Nat.min_le_right _ _)
        have hslba : zoneToSlba c zid ≤ zoneStart c zid := Nat.mod_le _ _
        rw [h.capacity] at hle
        unfold sub64 u64 at hle
        omega
      have hwp : ((s.zoneDescs zid).flushed slba).wp = slba + 1 := Nat.mod_eq_of_lt (by omega)
      have hactive : (s.zoneDescs zid).state ≠ .empty := fun hz => by
        have hzrwa := hflush.zrwa
        simp [ZoneDescriptor.hasZrwa, ZoneDescriptor.isActive, ZoneDescriptor.isOpen, hz] at hzrwa
      refine ⟨h.zslba, h.capacity, h.free, fun hz => absurd hz hactive, fun _ => ?_, fun _ => ?_, fun _ => ?_⟩
      · rw [hwp]
        exact hge.trans (Nat.le_succ _)
      · rw [hwp]
        exact hle
      · rw [hwp]
        exact hstops ⟨hflush, hend⟩

theorem ZrwaLaw.reset (h : ZrwaLaw c zid z b due)
    (hb : b' = b ∨ due = 0 ∧ b' = bufferRefill b) : ZrwaLaw c zid z.reset b' due := by
  have hnone : ¬ z.reset.hasZrwa = true := by
    show ¬ (false = true)
    exact Bool.false_ne_true
  refine ⟨h.zslba, h.capacity, ?_, fun _ => ⟨rfl, rfl⟩, fun hz => absurd hz hnone, fun hz => absurd hz hnone,
    fun hz => absurd hz hnone⟩
  rcases hb with rfl | ⟨hdue, rfl⟩
  · exact h.free
  · rw [hdue]
    exact le_rfl

/-- What a management command does to its zone, and to the buffers. -/
theorem zmgmtSend_law {action : BitVec 8} {option : Bool} {r : ZnsStatus × ZnsFtl}
    (hne : action ≠ ZSA_RESET_ZONE) (hzid : zid < c.zp.nrZones) (haddr : lbaToZone c slba = zid)
    (h : ZrwaLaw c zid (s.zoneDescs zid) b due)
    (hstops : action = ZSA_FLUSH_EXPL_ZRWA → ZrwaStops c (s.zoneDescs zid) zid slba → Covered c zid b due (slba + 1))
    (hempty : (r.2.zoneDescs zid).state = .empty → (r.2.zoneDescs zid).zrwav = false)
    (hsend : zmgmtSend c s slba action option = .ok r) :
    Spent zid 0 s r.2 ∧ ZrwaLaw c zid (r.2.zoneDescs zid) b due := by
  unfold zmgmtSend at hsend
  dsimp only at hsend
  rw [haddr] at hsend
  split_ifs at hsend with hclose hfinish hopen hoffline hflush
  · cases hsend
    exact ⟨(closeZone_buffers s zid).spent, closeZone_law h⟩
  · cases hsend
    exact ⟨(finishZone_buffers s zid).spent, finishZone_law h⟩
  · cases hsend
    exact ⟨(openZone_buffers s zid option).spent, openZone_law h hempty⟩
  · cases hsend
    exact ⟨(offlineZone_buffers s zid).spent, offlineZone_law h⟩
  · exact ⟨(flushExplicitZrwa_buffers hsend).spent, flushExplicitZrwa_law h hzid haddr (hstops hflush) hsend⟩
  · cases hsend
    exact ⟨.refl s, h⟩

theorem resetZone_of_not_resets (h : ¬ (s.zoneDescs zid).Resets ZSA_RESET_ZONE) :
    (zmgmtSendResetZone c s zid).2 = s := by
  unfold zmgmtSendResetZone
  cases hz : (s.zoneDescs zid).state with
  | readOnly | offline => rfl
  | _ => exact absurd ⟨rfl, by simp [hz], by simp [hz]⟩ h

/-- **A management command** keeps the law. -/
theorem SpaceLaw.send {action : BitVec 8} {option : Bool} {r : ZnsStatus × ZnsFtl} (h : SpaceLaw c s)
    (hzid : lbaToZone c slba < c.zp.nrZones) (hkeeps : SendKeeps c s action slba)
    (hsend : zmgmtSend c s slba action option = .ok r) : SpaceLaw c r.2 := by
  have hlaw := h.zones _ hzid
  obtain ⟨z, hmanaged, hmove⟩ := zmgmtSend_exact (h.counted.room hzid) hsend
  have hc := h.counted.move hzid hmove.toZoneMove
  have hz : r.2.zoneDescs (lbaToZone c slba) = z := by rw [hmove.descs, update_self]
  by_cases hreset : action = ZSA_RESET_ZONE
  · have hr : r = zmgmtSendResetZone c s (lbaToZone c slba) := by
      rw [hreset] at hsend
      exact (Except.ok.inj hsend).symm
    rcases hmanaged with ⟨hresets, rfl⟩ | ⟨hnot, -⟩
    · have hspace := resetZone_space (c := c) s (lbaToZone c slba)
      rw [← hr] at hspace
      refine ⟨hc, fun i hi => ?_⟩
      rw [hspace.1, hmove.descs]
      by_cases hi' : i = lbaToZone c slba
      · subst hi'
        rw [update_self]
        exact hlaw.reset ((hspace.2 _).imp_right fun hb => ⟨hkeeps.reset hresets, hb.2.2⟩)
      · rw [update_of_ne hi', (hspace.2 _).resolve_right fun hb => hi' (ZnsBuffer.zrwa.inj hb.1)]
        exact h.zones i hi
    · rw [hr, resetZone_of_not_resets (hreset ▸ hnot)]
      exact h
  · obtain ⟨hspent, hzone⟩ := zmgmtSend_law hreset hzid rfl hlaw hkeeps.flush
      (by rw [hz]; exact hmove.empty) hsend
    rw [hz] at hzone
    refine h.spend hspent hmove.descs (fun i _ => by rw [hspent.pending]) ?_ hc
    rw [hspent.pending]
    exact hzone.spend (hspent.size _) (hspent.le _)

/-- The calls of `__zmgmt_send` keep the law. -/
theorem SpaceLaw.calls {action : BitVec 8} {option : Bool} {slbas : List ℕ} (h : SpaceLaw c s)
    (haddr : ∀ slba ∈ slbas, lbaToZone c slba < c.zp.nrZones)
    (hkeeps : (zmgmtCalls c action option).Along (fun s slba => SendKeeps c s action slba) s slbas) :
    Sat (· ≠ .zrwaAssert) (SpaceLaw c) ((zmgmtCalls c action option).run s slbas) := by
  refine Machine.run_sat ?_ h ((Machine.along_of_forall haddr).and hkeeps)
  rintro s slba h ⟨hzid, hkeeps⟩
  cases hsend : zmgmtSend c s slba action option with
  | error f =>
    simp only [zmgmtCalls, hsend, Except.map, sat_error]
    rw [zmgmtSend_fault hsend]
    simp
  | ok r =>
    simp only [zmgmtCalls, hsend, Except.map, sat_ok]
    exact h.send hzid hkeeps hsend

theorem znsZmgmtSend_calls (s : ZnsFtl) (cmd : ZmgmtSendCommand) :
    (znsZmgmtSend c s cmd).map Prod.snd = (zmgmtCalls c cmd.zsa cmd.zsaso).run s (cmd.slbas c) := by
  unfold znsZmgmtSend ZmgmtSendCommand.slbas
  split_ifs
  · rw [Machine.run, List.foldlM_map]
    show (Except.map _ (zmgmtSendAll c s cmd.zsa cmd.zsaso)).map Prod.snd = zmgmtSendAll c s cmd.zsa cmd.zsaso
    cases zmgmtSendAll c s cmd.zsa cmd.zsaso with
    | error f => rfl
    | ok s' => rfl
  · rw [Machine.run_cons]
    show _ = (zmgmtSend c s cmd.slba.toNat cmd.zsa cmd.zsaso).map Prod.snd >>= _
    cases zmgmtSend c s cmd.slba.toNat cmd.zsa cmd.zsaso with
    | error f => rfl
    | ok r => rfl

theorem ZmgmtSendCommand.slbas_addressed {cmd : ZmgmtSendCommand} (h : (ZnsCommand.mgmtSend cmd).Addressed c) :
    ∀ slba ∈ cmd.slbas c, lbaToZone c slba < c.zp.nrZones := by
  unfold slbas
  intro slba hslba
  split_ifs at hslba with hall
  · obtain ⟨zid, hzid, rfl⟩ := List.mem_map.1 hslba
    exact lbaToZone_zoneToSlba_lt c (List.mem_range.1 hzid)
  · rw [List.mem_singleton.1 hslba]
    exact h.resolve_left hall

/-! ## Runs -/

theorem spaceLaw_init (c : ZnsCfg) (clock storage : ℕ → ℕ) : SpaceLaw c (znsInitFtl c clock storage) where
  counted := zonesCounted_init c clock storage
  zones zid hzid := by
    have hlt := zoneStart_lt c hzid
    have hstart : u64 (zid * lbasPerZone c) = zoneStart c zid :=
      Nat.mod_eq_of_lt (by unfold zoneStart at hlt; omega)
    have hnone : ¬ (initDescriptor c zid).hasZrwa = true := by
      show ¬ (false = true)
      exact Bool.false_ne_true
    exact ⟨hstart, rfl, le_rfl, fun _ => ⟨rfl, rfl⟩, fun hz => absurd hz hnone, fun hz => absurd hz hnone,
      fun hz => absurd hz hnone⟩

theorem SpaceLaw.fire (h : SpaceLaw c s) (i : ℕ) : SpaceLaw c (s.fire i) := by
  refine ⟨h.counted.same (s.fire_same i), fun zid hzid => ?_⟩
  have hlaw := h.zones zid hzid
  rw [(s.fire_same i).descs]
  unfold ZnsFtl.fire
  cases hop : s.pending[i]? with
  | none => exact hlaw
  | some op =>
    have hdue := dueTo_eraseIdx (.zrwa zid) hop
    dsimp only [ZnsFtl.setBuffer]
    by_cases hb : op.writeBuffer = .zrwa zid
    · rw [if_pos hb] at hdue
      rw [hb, update_self]
      have hle : u64 ((s.buffers (.zrwa zid)).remaining + op.buffsToRelease) ≤
          (s.buffers (.zrwa zid)).remaining + op.buffsToRelease := Nat.mod_le _ _
      refine hlaw.settle rfl ?_
      dsimp only [bufferRelease]
      omega
    · rw [if_neg hb, Nat.zero_add] at hdue
      rw [update_of_ne (Ne.symm hb), ← hdue]
      exact hlaw

/-- **A write** keeps the law, and its assertion holds. -/
theorem SpaceLaw.write {append : Bool} (hp : ZrwaParams c) (h : SpaceLaw c s)
    (hzid : lbaToZone c rw.slba.toNat < c.zp.nrZones) (hkeeps : ZrwaWriteKeeps c s rw) :
    Sat (· ≠ .zrwaAssert) (fun o => SpaceLaw c o.ftl) (znsWrite c s sqid start append rw) := by
  cases ho : znsWrite c s sqid start append rw with
  | error f =>
    unfold znsWrite at ho
    dsimp only at ho
    rw [lpnToZone_lbaToLpn] at ho
    rw [sat_error]
    rintro rfl
    split_ifs at ho with hzrwa
    · obtain ⟨f, hf⟩ := znsWriteSeq_fault ho
      cases hf
    · exact znsWriteZrwa_ne h hp hzid (Bool.eq_true_of_not_eq_false hzrwa) hkeeps ho
  | ok o =>
    have hc := h.counted.write hzid ho
    unfold znsWrite at ho
    dsimp only at ho
    rw [lpnToZone_lbaToLpn] at ho
    rw [sat_ok]
    split_ifs at ho with hzrwa
    · exact h.writeSeq hzid hzrwa hc ho
    · exact h.writeZrwa hp hzid (Bool.eq_true_of_not_eq_false hzrwa) hkeeps hc ho

theorem SpaceLaw.timing (h : SpaceLaw c s) (timing : Timing) : SpaceLaw c { s with timing } :=
  ⟨h.counted.same (.timing s timing), h.zones⟩

/-- **An event** keeps the law, and the assertion holds. -/
theorem SpaceLaw.step {e : ZnsEvent} (hp : ZrwaParams c) (h : SpaceLaw c s) (haddr : e.Addressed c)
    (hkeeps : e.KeepsZrwa c s) : Sat (· ≠ .zrwaAssert) (SpaceLaw c) ((znsMachine c).step s e) := by
  cases e with
  | fire i => exact h.fire i
  | command req =>
    obtain ⟨cmd, sqId, nsecsStart⟩ := req
    show Sat _ _ ((znsProcNvmeIoCmd c s ⟨cmd, sqId, nsecsStart⟩).map ZnsOutcome.ftl)
    unfold znsProcNvmeIoCmd
    dsimp only
    cases cmd with
    | write rw => exact (h.write hp haddr hkeeps).map_ok fun _ => id
    | append rw => exact (h.write hp haddr hkeeps).map_ok fun _ => id
    | read rw => exact h.timing _
    | flush => exact h.timing _
    | other opcode => exact h
    | mgmtSend cmd =>
      have hrun := h.calls (ZmgmtSendCommand.slbas_addressed haddr) hkeeps
      rw [← znsZmgmtSend_calls] at hrun
      dsimp only
      cases hsend : znsZmgmtSend c s cmd with
      | error f =>
        rw [hsend] at hrun
        exact hrun
      | ok r =>
        rw [hsend] at hrun
        exact hrun

/-- **The buffers of random write areas** are kept in every run whose steps all fit: no
    write hits the assertion, and no buffer has more left than it is large. -/
theorem zrwa_buffers_kept (hp : ZrwaParams c) (haddr : ∀ e ∈ es, e.Addressed c)
    (hkeeps : (znsMachine c).Along (fun s e => e.KeepsZrwa c s) (znsInitFtl c clock storage) es) :
    (znsMachine c).run (znsInitFtl c clock storage) es ≠ .error .zrwaAssert ∧
      ∀ pre, pre <+: es → ∀ s, (znsMachine c).run (znsInitFtl c clock storage) pre = .ok s →
        ∀ zid < c.zp.nrZones, (s.buffers (.zrwa zid)).remaining ≤ (s.buffers (.zrwa zid)).size := by
  have hrun {es : List ZnsEvent} (haddr : ∀ e ∈ es, e.Addressed c)
      (hkeeps : (znsMachine c).Along (fun s e => e.KeepsZrwa c s) (znsInitFtl c clock storage) es) :
      Sat (· ≠ .zrwaAssert) (SpaceLaw c) ((znsMachine c).run (znsInitFtl c clock storage) es) :=
    Machine.run_sat (fun s e h hC => h.step hp hC.1 hC.2) (spaceLaw_init c clock storage)
      ((Machine.along_of_forall haddr).and hkeeps)
  constructor
  · intro herr
    have h := hrun haddr hkeeps
    rw [herr] at h
    exact h rfl
  · rintro pre ⟨post, rfl⟩ s hs zid hzid
    have hlaw := (hrun (fun e he => haddr e (List.mem_append_left _ he))
      ((Machine.along_append hs).1 hkeeps).1).of_ok hs
    exact (Nat.le_add_right _ _).trans (hlaw.zones zid hzid).free

/-- Two zones of four one-shot pages, and random write areas of one. -/
def oneshotZones : ZnsCfg :=
  { zn540 with
    zp := { zn540.zp with
      zoneSize := 4 * 98304
      zoneWbSize := 0
      zrwaSize := 98304
      zrwaBufferSize := 2 * 98304
      lbasPerZrwafg := 8
      lbasPerZrwa := 192 }
    zoneSize_pos := by decide
    zoneSize_mod := by decide
    zoneSize_lt := by decide }

theorem oneshotZones_params : ZrwaParams oneshotZones where
  granule := by decide
  granules := by decide
  oneshots := by decide
  buffer := by decide
  lbas := by decide
  zrwaSize_lt := by decide

/-- A management command for the first zone, and a write of one page. -/
def zrwaSend (slba : BitVec 64) (zsa : BitVec 8) (zsaso : Bool) : ZnsEvent :=
  .command ⟨.mgmtSend ⟨slba, zsa, false, zsaso⟩, 1, 0⟩

def zrwaWrite (slba : BitVec 64) : ZnsEvent := .command ⟨.write ⟨slba, 7, 0⟩, 1, 0⟩

instance : ∀ e : ZnsEvent, Decidable (e.Addressed c)
  | .command ⟨.write rw, _, _⟩ | .command ⟨.append rw, _, _⟩ | .command ⟨.read rw, _, _⟩ =>
    inferInstanceAs (Decidable (lbaToZone c rw.slba.toNat < c.zp.nrZones))
  | .command ⟨.mgmtSend _, _, _⟩ => inferInstanceAs (Decidable (_ ∨ _))
  | .command ⟨.flush, _, _⟩ | .command ⟨.other _, _, _⟩ | .fire _ => .isTrue trivial

/-- The zone is closed and reopened, and its first one-shot page is flushed and given back;
    then the zone is reset. -/
def zrwaCycle : List ZnsEvent :=
  [zrwaSend 0 ZSA_OPEN_ZONE true, zrwaSend 0 ZSA_CLOSE_ZONE false, zrwaWrite 0, zrwaWrite 376, .fire 0,
    zrwaSend 0 ZSA_RESET_ZONE false]

theorem zrwa_buffers_kept_cycle :
    ∃ s, (znsMachine oneshotZones).run (znsInitFtl oneshotZones (fun _ => 0) fun _ => 0) zrwaCycle = .ok s ∧
      (s.buffers (.zrwa 0)).remaining ≤ (s.buffers (.zrwa 0)).size := by
  have hmap : ((znsMachine oneshotZones).run (znsInitFtl oneshotZones (fun _ => 0) fun _ => 0) zrwaCycle).map
      (fun s => (s.zoneDescs 0).wp) = .ok 0 := by decide +kernel
  obtain ⟨s, hrun, -⟩ := exists_ok_of_map hmap
  have haddr : ∀ e ∈ zrwaCycle, e.Addressed oneshotZones := by decide
  have hkept := zrwa_buffers_kept oneshotZones_params haddr (show Machine.Along _ _
    (znsInitFtl oneshotZones (fun _ => 0) fun _ => 0) zrwaCycle by decide +kernel)
  exact ⟨s, hrun, hkept.2 zrwaCycle List.prefix_rfl s hrun 0 (by decide)⟩

/-- The zone is closed and reopened, three times over. -/
def zrwaReopen : List ZnsEvent :=
  [zrwaSend 0 ZSA_OPEN_ZONE true, zrwaSend 0 ZSA_CLOSE_ZONE false, zrwaWrite 0, zrwaSend 0 ZSA_CLOSE_ZONE false,
    zrwaWrite 0, zrwaSend 0 ZSA_CLOSE_ZONE false, zrwaWrite 0]

/-- 184 blocks are flushed explicitly, and the rest of their one-shot page by a write. -/
def zrwaSkip : List ZnsEvent :=
  [zrwaSend 0 ZSA_OPEN_ZONE true, zrwaSend 183 ZSA_FLUSH_EXPL_ZRWA false, zrwaWrite 376, .fire 0]

/-- A zone that is closed and reopened again and again hits the assertion, and a flush that
    skips blocks gives back more than was taken. -/
theorem zrwa_buffers_not_kept :
    ZrwaParams oneshotZones ∧ (∀ e ∈ zrwaReopen ++ zrwaSkip, e.Addressed oneshotZones) ∧
      (znsMachine oneshotZones).run (znsInitFtl oneshotZones (fun _ => 0) fun _ => 0) zrwaReopen =
        .error .zrwaAssert ∧
      ∃ s, (znsMachine oneshotZones).run (znsInitFtl oneshotZones (fun _ => 0) fun _ => 0) zrwaSkip = .ok s ∧
        (s.buffers (.zrwa 0)).size < (s.buffers (.zrwa 0)).remaining := by
  have herr : ((znsMachine oneshotZones).run (znsInitFtl oneshotZones (fun _ => 0) fun _ => 0)
      zrwaReopen).map (fun _ => ()) = .error .zrwaAssert := by decide +kernel
  have hmap : ((znsMachine oneshotZones).run (znsInitFtl oneshotZones (fun _ => 0) fun _ => 0) zrwaSkip).map
      (fun s => s.buffers (.zrwa 0)) = .ok ⟨196608, 290816⟩ := by decide +kernel
  obtain ⟨s, hrun, hbuf⟩ := exists_ok_of_map hmap
  refine ⟨oneshotZones_params, by decide, ?_, s, hrun, by rw [hbuf]; decide⟩
  cases hreopen : (znsMachine oneshotZones).run (znsInitFtl oneshotZones (fun _ => 0) fun _ => 0) zrwaReopen with
  | ok s => rw [hreopen] at herr; cases herr
  | error f => rw [hreopen] at herr; cases herr; rfl

end WaitGc

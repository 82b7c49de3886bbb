/-
  WAITGC verification — what zone management leaves stored.

  `zmgmtSend_store`: a reset clears its zone, and no other action changes a
  stored byte.  This holds in any state; the counters are no matter.
-/
import WaitGc.Proof.Zones

namespace WaitGc

open Outcome Function

variable {c : ZnsCfg} {s s' : ZnsFtl}

/-- Zones and counters may change, what is stored does not. -/
structure SameStore (s s' : ZnsFtl) : Prop where
  storage : s'.storage = s.storage
  boundaryErrors : s'.boundaryErrors = s.boundaryErrors

theorem SameStore.refl (s : ZnsFtl) : SameStore s s := ⟨rfl, rfl⟩

theorem SameStore.trans {s'' : ZnsFtl} (h : SameStore s s') (h' : SameStore s' s'') : SameStore s s'' :=
  ⟨h'.storage.trans h.storage, h'.boundaryErrors.trans h.boundaryErrors⟩

theorem SameStore.setZone (s : ZnsFtl) (zid : ℕ) (z : ZoneDescriptor) : SameStore s (s.setZone zid z) :=
  ⟨rfl, rfl⟩

theorem SameStore.changeZoneState (s : ZnsFtl) (zid : ℕ) (state : ZoneState) :
    SameStore s (s.changeZoneState zid state) := ⟨rfl, rfl⟩

theorem SameStore.release (s : ZnsFtl) (type : ZoneResourceType) :
    SameStore s (s.releaseZoneResource type) := ⟨rfl, rfl⟩

theorem SameStore.releaseZrwa (s : ZnsFtl) (zrwa : Bool) : SameStore s (s.releaseZrwa zrwa) := by
  cases zrwa with
  | true => exact .release s _
  | false => exact .refl s

theorem SameStore.acquire (s : ZnsFtl) (type : ZoneResourceType) :
    SameStore s (s.acquireZoneResource type).2 := by
  unfold ZnsFtl.acquireZoneResource
  split_ifs
  · exact ⟨rfl, rfl⟩
  · exact .refl s

theorem SameStore.openClosedZone (s : ZnsFtl) (zid : ℕ) : SameStore s (openClosedZone s zid).2 := by
  have h := SameStore.acquire s .openZone
  unfold WaitGc.openClosedZone
  generalize s.acquireZoneResource .openZone = a at h ⊢
  obtain ⟨ok, s₁⟩ := a
  cases ok with
  | true => exact h.trans (.changeZoneState _ _ _)
  | false => exact h

/-! ## Zone management -/

theorem closeZone_store (s : ZnsFtl) (zid : ℕ) : SameStore s (zmgmtSendCloseZone s zid).2 := by
  unfold zmgmtSendCloseZone
  cases (s.zoneDescs zid).state with
  | openedImpl | openedExpl => exact (SameStore.changeZoneState s zid .closed).trans (.release _ _)
  | _ => exact .refl s

theorem finishZone_store (s : ZnsFtl) (zid : ℕ) : SameStore s (zmgmtSendFinishZone s zid).2 := by
  have hclosed (s : ZnsFtl) (zrwa : Bool) :
      SameStore s (((s.releaseZoneResource .activeZone).releaseZrwa zrwa).changeZoneState zid .full) :=
    ((SameStore.release s .activeZone).trans (.releaseZrwa _ _)).trans (.changeZoneState _ _ _)
  unfold zmgmtSendFinishZone
  cases (s.zoneDescs zid).state with
  | openedImpl | openedExpl => exact (SameStore.release s .openZone).trans (hclosed _ _)
  | closed => exact hclosed _ _
  | empty => exact .changeZoneState _ _ _
  | _ => exact .refl s

theorem openZone_store (s : ZnsFtl) (zid : ℕ) (zrwa : Bool) :
    SameStore s (zmgmtSendOpenZone s zid zrwa).2 := by
  unfold zmgmtSendOpenZone
  cases (s.zoneDescs zid).state with
  | empty =>
    dsimp only
    split_ifs
    · exact .refl s
    · exact .refl s
    · exact .refl s
    · have hzrwa := SameStore.acquire s .zrwaZone
      generalize (s.acquireZoneResource .zrwaZone).2 = s₁ at hzrwa ⊢
      have harea := hzrwa.trans (.setZone s₁ zid { s₁.zoneDescs zid with zrwav := true })
      exact (harea.trans (.acquire _ .activeZone)).trans (.openClosedZone _ zid)
    · exact (SameStore.acquire s .activeZone).trans (.openClosedZone _ zid)
  | closed => exact .openClosedZone s zid
  | openedImpl => exact .changeZoneState _ _ _
  | _ => exact .refl s

theorem offlineZone_store (s : ZnsFtl) (zid : ℕ) : SameStore s (zmgmtSendOfflineZone s zid).2 := by
  unfold zmgmtSendOfflineZone
  cases (s.zoneDescs zid).state with
  | readOnly => exact .changeZoneState _ _ _
  | _ => exact .refl s

theorem flushExplicitZrwa_store {slba : ℕ} {r : ZnsStatus × ZnsFtl}
    (h : zmgmtSendFlushExplicitZrwa c s slba = .ok r) : SameStore s r.2 := by
  have hfull (s : ZnsFtl) (zid : ℕ) (state : ZoneState) : SameStore s (flushFull s zid state) := by
    unfold flushFull
    dsimp only
    split_ifs <;> exact ⟨rfl, rfl⟩
  rcases flushExplicitZrwa_cases h rfl with hr | ⟨-, hr⟩
  · rw [hr]
    exact .refl s
  · rw [hr]
    split_ifs
    · exact (SameStore.setZone s _ _).trans (hfull _ _ _)
    · exact .setZone _ _ _

/-- What a management command on one zone leaves stored. -/
def mgmtStorage (c : ZnsCfg) (s : ZnsFtl) (zid : ℕ) (action : BitVec 8) : ℕ → ℕ :=
  if (s.zoneDescs zid).Resets action then memset s.storage (u64 (zid * c.zp.zoneSize)) c.zp.zoneSize 0
  else s.storage

theorem resetZone_store (s : ZnsFtl) (zid : ℕ) :
    SameStore { s with storage := mgmtStorage c s zid ZSA_RESET_ZONE } (zmgmtSendResetZone c s zid).2 := by
  have hreset (s' : ZnsFtl) (h : SameStore s s') (hz : (s.zoneDescs zid).Resets ZSA_RESET_ZONE) :
      SameStore { s with storage := mgmtStorage c s zid ZSA_RESET_ZONE }
        (resetZone c (s'.changeZoneState zid .empty) zid) := by
    have hmem : mgmtStorage c s zid ZSA_RESET_ZONE =
        memset s'.storage (u64 (zid * c.zp.zoneSize)) c.zp.zoneSize 0 := by
      rw [mgmtStorage, if_pos hz, h.storage]
    unfold resetZone
    dsimp only
    rw [hmem]
    split_ifs
    · exact ⟨rfl, h.boundaryErrors⟩
    · exact ⟨rfl, h.boundaryErrors⟩
  have hkeep (hz : ¬ (s.zoneDescs zid).Resets ZSA_RESET_ZONE) :
      SameStore { s with storage := mgmtStorage c s zid ZSA_RESET_ZONE } s := by
    rw [mgmtStorage, if_neg hz]
    exact .refl s
  have hclosed (s : ZnsFtl) (zrwa : Bool) :
      SameStore s ((s.releaseZoneResource .activeZone).releaseZrwa zrwa) :=
    (SameStore.release s .activeZone).trans (.releaseZrwa _ _)
  unfold zmgmtSendResetZone
  cases hz : (s.zoneDescs zid).state with
  | openedImpl | openedExpl =>
    exact hreset _ ((SameStore.release s .openZone).trans (hclosed _ _)) (by simp [ZoneDescriptor.Resets, hz])
  | closed => exact hreset _ (hclosed _ _) (by simp [ZoneDescriptor.Resets, hz])
  | full | empty => exact hreset s (.refl s) (by simp [ZoneDescriptor.Resets, hz])
  | _ => exact hkeep (by simp [ZoneDescriptor.Resets, hz])

/-- **A management command on one zone**: a reset clears the zone, and nothing else is
    stored. -/
theorem zmgmtSend_store {slba : ℕ} {action : BitVec 8} {option : Bool} {r : ZnsStatus × ZnsFtl}
    (h : zmgmtSend c s slba action option = .ok r) :
    SameStore { s with storage := mgmtStorage c s (lbaToZone c slba) action } r.2 := by
  by_cases hreset : action = ZSA_RESET_ZONE
  · subst hreset
    cases h
    exact resetZone_store s _
  · rw [mgmtStorage, if_neg fun hz => hreset hz.1]
    unfold zmgmtSend at h
    dsimp only at h
    split_ifs at h
    · cases h; exact closeZone_store s _
    · cases h; exact finishZone_store s _
    · cases h; exact openZone_store s _ _
    · cases h; exact offlineZone_store s _
    · exact flushExplicitZrwa_store h
    · cases h; exact .refl s

/-- No management command prints `Write Boundary error`. -/
theorem zmgmtSend_boundaryErrors {slba : ℕ} {action : BitVec 8} {option : Bool}
    {r : ZnsStatus × ZnsFtl} (h : zmgmtSend c s slba action option = .ok r) :
    r.2.boundaryErrors = s.boundaryErrors := (zmgmtSend_store h).boundaryErrors

/-! ## All zones -/

/-- A reset leaves every zone as ready for a reset as it was. -/
theorem zmgmtSend_resets {slba zid : ℕ} {action : BitVec 8} {option : Bool} {r : ZnsStatus × ZnsFtl}
    (h : zmgmtSend c s slba action option = .ok r) :
    (r.2.zoneDescs zid).Resets action ↔ (s.zoneDescs zid).Resets action := by
  by_cases hreset : action = ZSA_RESET_ZONE
  · subst hreset
    cases h
    show ((zmgmtSendResetZone c s (lbaToZone c slba)).2.zoneDescs zid).Resets _ ↔ _
    generalize lbaToZone c slba = zid'
    have hrelease (s : ZnsFtl) (zrwa : Bool) : (s.releaseZrwa zrwa).zoneDescs = s.zoneDescs := by
      cases zrwa <;> rfl
    have hdone (s' : ZnsFtl) (hd : s'.zoneDescs = s.zoneDescs)
        (hz : (s.zoneDescs zid').Resets ZSA_RESET_ZONE) :
        ((resetZone c (s'.changeZoneState zid' .empty) zid').zoneDescs zid).Resets ZSA_RESET_ZONE ↔
          (s.zoneDescs zid).Resets ZSA_RESET_ZONE := by
      have hdescs : (resetZone c (s'.changeZoneState zid' .empty) zid').zoneDescs =
          update s.zoneDescs zid' (s.zoneDescs zid').reset := by
        unfold resetZone
        dsimp only
        split_ifs
        all_goals
          show update (update s'.zoneDescs zid' _) zid' _ = _
          rw [update_idem, hd]
          simp [hd, ZoneDescriptor.reset]
      rw [hdescs]
      rcases eq_or_ne zid zid' with rfl | hne
      · rw [update_self]
        exact iff_of_true ⟨rfl, by simp [ZoneDescriptor.reset], by simp [ZoneDescriptor.reset]⟩ hz
      · rw [update_of_ne hne]
    unfold zmgmtSendResetZone
    cases hz : (s.zoneDescs zid').state with
    | openedImpl | openedExpl | closed => exact hdone _ (hrelease _ _) (by simp [ZoneDescriptor.Resets, hz])
    | full | empty => exact hdone _ rfl (by simp [ZoneDescriptor.Resets, hz])
    | _ => exact Iff.rfl
  · exact iff_of_false (fun hz => hreset hz.1) fun hz => hreset hz.1

/-- The command is for the zone: for all of them, as the loop finds them, or for the
    one of its block. -/
def ZmgmtSendCommand.For (c : ZnsCfg) (cmd : ZmgmtSendCommand) (zid : ℕ) : Prop :=
  if cmd.selectAll then ∃ i < c.zp.nrZones, lbaToZone c (zoneToSlba c i) = zid
  else lbaToZone c cmd.slba.toNat = zid

instance (cmd : ZmgmtSendCommand) (zid : ℕ) : Decidable (cmd.For c zid) := by
  unfold ZmgmtSendCommand.For
  infer_instance

/-- The command resets the zone that the byte `a` of the storage lies in. -/
def ZmgmtSendCommand.Clears (c : ZnsCfg) (s : ZnsFtl) (cmd : ZmgmtSendCommand) (a : ℕ) : Prop :=
  cmd.For c (a / c.zp.zoneSize) ∧ (s.zoneDescs (a / c.zp.zoneSize)).Resets cmd.zsa

instance (cmd : ZmgmtSendCommand) (a : ℕ) : Decidable (cmd.Clears c s a) :=
  inferInstanceAs (Decidable (_ ∧ _))

theorem memset_of_ne {zid a : ℕ} (storage : ℕ → ℕ) (hzid : zid < 2 ^ 32) (ha : a / c.zp.zoneSize ≠ zid) :
    memset storage (u64 (zid * c.zp.zoneSize)) c.zp.zoneSize 0 a = storage a := by
  have hlt : zid * c.zp.zoneSize < 2 ^ 64 :=
    lt_of_lt_of_le (Nat.mul_lt_mul'' hzid c.zoneSize_lt) (by decide)
  rw [u64, Nat.mod_eq_of_lt hlt, memset, if_neg]
  rintro ⟨hle, hlt⟩
  exact ha (Nat.div_eq_of_lt_le hle (by rw [Nat.succ_mul]; exact hlt))

theorem mgmtStorage_of_ne {zid a : ℕ} {action : BitVec 8} (hzid : zid < 2 ^ 32)
    (ha : a / c.zp.zoneSize = zid → ¬ (s.zoneDescs zid).Resets action) :
    mgmtStorage c s zid action a = s.storage a := by
  unfold mgmtStorage
  split_ifs with hz
  · exact memset_of_ne _ hzid fun h => ha h hz
  · rfl

theorem zmgmtSend_stored {slba a : ℕ} {action : BitVec 8} {option : Bool} {r : ZnsStatus × ZnsFtl}
    (h : zmgmtSend c s slba action option = .ok r)
    (ha : a / c.zp.zoneSize = lbaToZone c slba → ¬ (s.zoneDescs (lbaToZone c slba)).Resets action) :
    r.2.storage a = s.storage a := by
  rw [(zmgmtSend_store h).storage]
  exact mgmtStorage_of_ne (Nat.mod_lt _ (by decide)) ha

/-- **A management command leaves stored** what it does not clear. -/
theorem znsZmgmtSend_stored {cmd : ZmgmtSendCommand} {r : ZnsStatus × ZnsFtl} {a : ℕ}
    (h : znsZmgmtSend c s cmd = .ok r) (ha : ¬ cmd.Clears c s a) : r.2.storage a = s.storage a := by
  unfold znsZmgmtSend at h
  unfold ZmgmtSendCommand.Clears ZmgmtSendCommand.For at ha
  split_ifs at h ha with hall
  · let I (pre : List ℕ) (s₁ : ZnsFtl) : Prop :=
      ((∀ i ∈ pre, lbaToZone c (zoneToSlba c i) = a / c.zp.zoneSize →
        ¬ (s.zoneDescs (a / c.zp.zoneSize)).Resets cmd.zsa) → s₁.storage a = s.storage a) ∧
      ∀ zid, (s₁.zoneDescs zid).Resets cmd.zsa ↔ (s.zoneDescs zid).Resets cmd.zsa
    have hloop : Yields (I (List.range c.zp.nrZones)) (zmgmtSendAll c s cmd.zsa cmd.zsaso) := by
      refine sat_foldlM I _ ?_ ⟨fun _ => rfl, fun _ => Iff.rfl⟩
      intro pre i post s₁ hl ⟨hstore, hresets⟩
      cases hs : zmgmtSend c s₁ (zoneToSlba c i) cmd.zsa cmd.zsaso with
      | error e => trivial
      | ok r =>
        refine ⟨fun hpre => ?_, fun zid => (zmgmtSend_resets hs).trans (hresets zid)⟩
        have hi := hpre i (by simp)
        rw [zmgmtSend_stored hs fun heq hz => hi heq.symm (heq ▸ (hresets _).1 hz)]
        exact hstore fun j hj => hpre j (by simp [hj])
    cases hs : zmgmtSendAll c s cmd.zsa cmd.zsaso with
    | error e => rw [hs] at h; cases h
    | ok s₁ =>
      rw [hs] at h
      cases h
      exact (hloop.of_ok hs).1 fun i hi heq hz => ha ⟨⟨i, List.mem_range.1 hi, heq⟩, hz⟩
  · exact zmgmtSend_stored h fun heq hz => ha ⟨heq.symm, heq ▸ hz⟩

end WaitGc

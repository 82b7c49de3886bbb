/-
  WAITGC verification — what the commands of a zoned namespace do to the
  buffers of its random write areas.

  Space is spent by `buffer_allocate` and given back by scheduled operations;
  `dueTo` adds up what these return.  A flush schedules the release of one
  one-shot page for each one-shot page that it completes
  (`flushFlashPages_due`), wherever the space came from.
-/
import WaitGc.Proof.ZoneData

namespace WaitGc

open Outcome Function

variable {c : ZnsCfg} {s s' s'' : ZnsFtl} {zid slba nrLba n m : ℕ} {rw : RwCommand} {sqid start : ℕ}

/-! ## Scheduled releases -/

/-- The bytes that the operations give back to `b`. -/
def dueTo (b : ZnsBuffer) (ops : List ZnsOp) : ℕ :=
  ((ops.filter fun op => op.writeBuffer = b).map ZnsOp.buffsToRelease).sum

theorem dueTo_cons (b : ZnsBuffer) (op : ZnsOp) (ops : List ZnsOp) :
    dueTo b (op :: ops) = (if op.writeBuffer = b then op.buffsToRelease else 0) + dueTo b ops := by
  by_cases h : op.writeBuffer = b
  · simp [dueTo, h]
  · simp [dueTo, h]

theorem dueTo_append (b : ZnsBuffer) (ops ops' : List ZnsOp) :
    dueTo b (ops ++ ops') = dueTo b ops + dueTo b ops' := by
  simp [dueTo]

theorem dueTo_eraseIdx {ops : List ZnsOp} {i : ℕ} {op : ZnsOp} (b : ZnsBuffer) (h : ops[i]? = some op) :
    dueTo b ops = (if op.writeBuffer = b then op.buffsToRelease else 0) + dueTo b (ops.eraseIdx i) := by
  obtain ⟨hi, rfl⟩ := List.getElem?_eq_some_iff.1 h
  have hperm := ((List.getElem_cons_eraseIdx_perm hi).filter fun op => op.writeBuffer = b).map
    ZnsOp.buffsToRelease
  rw [← dueTo_cons, dueTo, dueTo, hperm.sum_eq]

theorem programFlashPage_due (b buf : ZnsBuffer) (xfer bufs : ℕ) (ppa : Ppa) (j : FlashJob) :
    dueTo b (programFlashPage c sqid xfer bufs buf ppa j).pending =
      dueTo b j.pending + if buf = b then bufs else 0 := by
  show dueTo b (j.pending ++ [_]) = _
  rw [dueTo_append, dueTo_cons]
  rfl

/-- The loop of `__zns_write` schedules releases of its buffer only. -/
theorem writeFlashPages_due {b buf : ZnsBuffer} (hb : buf ≠ b) (xfer elpn zoneElpn : ℕ) :
    ∀ (fuel lpn : ℕ) (j : FlashJob),
      dueTo b (writeFlashPages c sqid xfer elpn zoneElpn buf fuel lpn j).pending = dueTo b j.pending
  | 0, _, _ => rfl
  | fuel + 1, lpn, j => by
    rw [writeFlashPages]
    split_ifs with hlpn
    · dsimp only
      rw [writeFlashPages_due hb]
      split_ifs
      · rw [programFlashPage_due, if_neg hb, Nat.add_zero]
      · rw [programFlashPage_due, if_neg hb, Nat.add_zero]
      · rfl
    · rfl

theorem znsWriteTiming_due {b buf : ZnsBuffer} (hb : buf ≠ b) (s : ZnsFtl) (sqid start zid slba nrLba : ℕ) :
    dueTo b (znsWriteTiming c s sqid start zid slba nrLba buf).2.pending = dueTo b s.pending := by
  unfold znsWriteTiming
  dsimp only
  rw [writeFlashPages_due hb]

theorem flushFlashPages_other {b buf : ZnsBuffer} (hb : buf ≠ b) (xfer : ℕ) :
    ∀ (fuel lpn remaining : ℕ) (j : FlashJob),
      dueTo b (flushFlashPages c sqid xfer buf fuel lpn remaining j).pending = dueTo b j.pending
  | 0, _, _, _ => rfl
  | fuel + 1, lpn, remaining, j => by
    rw [flushFlashPages]
    split_ifs with hpos
    · dsimp only
      rw [flushFlashPages_other hb]
      split_ifs
      · rw [programFlashPage_due, if_neg hb, Nat.add_zero]
      · rfl
    · rfl

/-! ## One-shot pages -/

/-- The pages of a zone. -/
def pgsPerZone (c : ZnsCfg) : ℕ := c.zp.zoneSize / c.sp.pgsz

theorem lbasPerZone_eq (c : ZnsCfg) : lbasPerZone c = pgsPerZone c * 8 := by
  have hmod := c.zoneSize_mod
  rw [c.pgsz_eq, show LBA_SIZE = 512 from rfl] at hmod
  rw [lbasPerZone, pgsPerZone, c.pgsz_eq, show LBA_SIZE = 512 from rfl]
  omega

/-- The bytes of a one-shot page. -/
def oneshotBytes (c : ZnsCfg) : ℕ := c.sp.pgsPerOneshotpg * c.sp.pgsz

/-- `__lpn_to_ppa` numbers the pages of the zone from its start. -/
def ZoneAligned (c : ZnsCfg) (zid : ℕ) : Prop :=
  ∀ p < pgsPerZone c, (lpnToPpa c (zid * pgsPerZone c + p)).pg.toNat % c.sp.pgsPerOneshotpg =
    p % c.sp.pgsPerOneshotpg

instance (zid : ℕ) : Decidable (ZoneAligned c zid) := inferInstanceAs (Decidable (∀ p < _, _))

/-- The zones of a namespace of at most 2^32 pages are aligned, if the page number fits
    its field. -/
theorem zoneAligned_of_le (hpages : c.zp.nrZones * pgsPerZone c ≤ 2 ^ 32)
    (honeshot : c.sp.pgsPerOneshotpg ≤ 2 ^ 16) (hpos : 0 < c.sp.pgsPerOneshotpg) (hzid : zid < c.zp.nrZones) :
    ZoneAligned c zid := by
  intro p hp
  have hend : (zid + 1) * pgsPerZone c ≤ c.zp.nrZones * pgsPerZone c := Nat.mul_le_mul_right _ hzid
  rw [Nat.succ_mul] at hend
  have hn := c.nrZones_lt
  have hzone : lpnToZone c (zid * pgsPerZone c + p) = zid := by
    have hdiv : (zid * pgsPerZone c + p) / pgsPerZone c = zid :=
      Nat.div_eq_of_lt_le (Nat.le_add_right _ _) (by rw [Nat.succ_mul]; omega)
    unfold lpnToZone
    rw [← pgsPerZone, hdiv, u32, Nat.mod_eq_of_lt (hzid.trans hn)]
  have hstart : zoneToSlpn c zid = zid * pgsPerZone c := Nat.mod_eq_of_lt (by rw [← pgsPerZone]; omega)
  have hoff : sub64 (zid * pgsPerZone c + p) (zid * pgsPerZone c) = p := by
    unfold sub64 u64
    omega
  have hlt := Nat.mod_lt p hpos
  unfold lpnToPpa
  dsimp only
  rw [hzone, hstart, hoff, Ppa.store, BitVec.toNat_ofNat, Nat.mod_eq_of_lt (b := 2 ^ 16) (by omega), Nat.mod_mod]

/-- **The flush loop** schedules the release of the one-shot pages that it completes. -/
theorem flushFlashPages_due (halign : ZoneAligned c zid) (xfer : ℕ) (b : ZnsBuffer) :
    ∀ (fuel p remaining : ℕ) (j : FlashJob), p + remaining ≤ pgsPerZone c →
      dueTo b (flushFlashPages c sqid xfer b fuel (zid * pgsPerZone c + p) remaining j).pending +
          oneshotBytes c * (p / c.sp.pgsPerOneshotpg) ≤
        dueTo b j.pending + oneshotBytes c * ((p + remaining) / c.sp.pgsPerOneshotpg)
  | 0, p, remaining, j, _ =>
    Nat.add_le_add_left (Nat.mul_le_mul_left _ (Nat.div_le_div_right (Nat.le_add_right _ _))) _
  | fuel + 1, p, remaining, j, hle => by
    rw [flushFlashPages]
    by_cases hpos : 0 < remaining
    · rw [if_pos hpos]
      dsimp only
      rw [halign p (by omega)]
      generalize hpgs : min remaining (c.sp.pgsPerOneshotpg - p % c.sp.pgsPerOneshotpg) = pgs
      have hpgs_le : pgs ≤ remaining := hpgs ▸ Nat.min_le_left _ _
      have ih := fun j => flushFlashPages_due halign xfer b fuel (p + pgs) (remaining - pgs) j (by omega)
      rw [show p + pgs + (remaining - pgs) = p + remaining by omega] at ih
      rw [Nat.add_assoc]
      by_cases hfull : p % c.sp.pgsPerOneshotpg + pgs = c.sp.pgsPerOneshotpg
      · -- the one-shot page that `p` lies in is complete
        rw [if_pos hfull]
        have hih := ih (programFlashPage c sqid xfer (c.sp.pgsPerOneshotpg * c.sp.pgsz) b
          (lpnToPpa c (zid * pgsPerZone c + p)) j)
        rw [programFlashPage_due, if_pos rfl, ← oneshotBytes] at hih
        have hnext : oneshotBytes c * ((p + pgs) / c.sp.pgsPerOneshotpg) =
            oneshotBytes c * (p / c.sp.pgsPerOneshotpg) + oneshotBytes c := by
          rcases Nat.eq_zero_or_pos c.sp.pgsPerOneshotpg with h0 | hone
          · rw [oneshotBytes, h0]
            simp
          · have hdiv := Nat.div_add_mod p c.sp.pgsPerOneshotpg
            rw [show p + pgs = p / c.sp.pgsPerOneshotpg * c.sp.pgsPerOneshotpg + c.sp.pgsPerOneshotpg by
                rw [Nat.mul_comm]; omega, ← Nat.succ_mul, Nat.mul_div_cancel _ hone, Nat.mul_succ]
        rw [← oneshotBytes]
        omega
      · rw [if_neg hfull]
        have hih := ih j
        have hmono : oneshotBytes c * (p / c.sp.pgsPerOneshotpg) ≤
            oneshotBytes c * ((p + pgs) / c.sp.pgsPerOneshotpg) :=
          Nat.mul_le_mul_left _ (Nat.div_le_div_right (Nat.le_add_right _ _))
        omega
    · rw [if_neg hpos]
      exact Nat.add_le_add_left (Nat.mul_le_mul_left _ (Nat.div_le_div_right (Nat.le_add_right _ _))) _

/-! ## Spending -/

/-- At least `n` bytes of the buffer of zone `zid` are spent, and nothing is scheduled. -/
structure Spent (zid n : ℕ) (s s' : ZnsFtl) : Prop where
  size : ∀ i, (s'.buffers (.zrwa i)).size = (s.buffers (.zrwa i)).size
  remaining : ∀ i, (s'.buffers (.zrwa i)).remaining + (if i = zid then n else 0) ≤
    (s.buffers (.zrwa i)).remaining
  pending : s'.pending = s.pending

theorem Spent.of_eq (hb : ∀ i, s'.buffers (.zrwa i) = s.buffers (.zrwa i)) (hp : s'.pending = s.pending) :
    Spent zid 0 s s' where
  size i := by rw [hb]
  remaining i := by rw [hb, ite_self, Nat.add_zero]
  pending := hp

theorem Spent.refl (s : ZnsFtl) : Spent zid 0 s s := .of_eq (fun _ => rfl) rfl

theorem Spent.trans (h : Spent zid n s s') (h' : Spent zid m s' s'') : Spent zid (n + m) s s'' where
  size i := (h'.size i).trans (h.size i)
  remaining i := by
    have h₁ := h.remaining i
    have h₂ := h'.remaining i
    split_ifs at h₁ h₂ ⊢ <;> omega
  pending := h'.pending.trans h.pending

theorem Spent.weaken (h : Spent zid n s s') : Spent zid 0 s s' where
  size := h.size
  remaining i := by
    have := h.remaining i
    split_ifs at this ⊢ <;> omega
  pending := h.pending

theorem Spent.le (h : Spent zid n s s') (i : ℕ) :
    (s'.buffers (.zrwa i)).remaining ≤ (s.buffers (.zrwa i)).remaining :=
  (Nat.le_add_right _ _).trans (h.remaining i)

/-- The buffers and the scheduled releases are the same. -/
structure SameBuffers (s s' : ZnsFtl) : Prop where
  buffers : s'.buffers = s.buffers
  pending : s'.pending = s.pending

namespace SameBuffers

theorem refl (s : ZnsFtl) : SameBuffers s s := ⟨rfl, rfl⟩

theorem trans (h : SameBuffers s s') (h' : SameBuffers s' s'') : SameBuffers s s'' :=
  ⟨h'.buffers.trans h.buffers, h'.pending.trans h.pending⟩

theorem spent (h : SameBuffers s s') : Spent zid 0 s s' := .of_eq (fun _ => congrFun h.buffers _) h.pending

theorem acquire (s : ZnsFtl) (type : ZoneResourceType) : SameBuffers s (s.acquireZoneResource type).2 := by
  obtain ⟨r, hr⟩ := acquireZoneResource_frame s type
  rw [hr]
  exact ⟨rfl, rfl⟩

theorem setZone (s : ZnsFtl) (i : ℕ) (z : ZoneDescriptor) : SameBuffers s (s.setZone i z) := ⟨rfl, rfl⟩

theorem changeZoneState (s : ZnsFtl) (i : ℕ) (state : ZoneState) : SameBuffers s (s.changeZoneState i state) :=
  .setZone s i _

theorem release (s : ZnsFtl) (type : ZoneResourceType) : SameBuffers s (s.releaseZoneResource type) := ⟨rfl, rfl⟩

theorem releaseZrwa (s : ZnsFtl) (zrwa : Bool) : SameBuffers s (s.releaseZrwa zrwa) := by
  cases zrwa with
  | true => exact .release s _
  | false => exact .refl s

theorem openClosedZone (s : ZnsFtl) (i : ℕ) : SameBuffers s (openClosedZone s i).2 := by
  have h : SameBuffers s (s.acquireZoneResource .openZone).2 := .acquire s .openZone
  unfold WaitGc.openClosedZone
  generalize s.acquireZoneResource .openZone = a at h ⊢
  obtain ⟨ok, s₁⟩ := a
  cases ok with
  | false => exact h
  | true => exact h.trans (.changeZoneState _ _ _)

end SameBuffers

/-- **`buffer_allocate`** spends what it gives. -/
theorem zrwaAllocate_spent {size : ℕ} {a : ℕ × ZnsFtl} (h : zrwaAllocate c s zid size = .ok a) :
    Spent zid (if a.1 = 0 then 0 else size) s a.2 := by
  unfold zrwaAllocate at h
  obtain ⟨-, -, h⟩ := bind_eq_ok h
  obtain ⟨⟨allocated, buf⟩, halloc, h⟩ := bind_eq_ok h
  cases h
  cases hb : bufferAllocate (s.buffers (.zrwa zid)) size with
  | error f => rw [hb] at halloc; cases halloc
  | ok b =>
    rw [hb] at halloc
    cases halloc
    obtain ⟨-, -, hb⟩ := bind_eq_ok hb
    cases hb
    constructor
    · intro i
      dsimp only [ZnsFtl.setBuffer]
      by_cases hi : i = zid
      · rw [hi, update_self]
      · rw [update_of_ne (by simpa using hi)]
    · intro i
      dsimp only [ZnsFtl.setBuffer]
      by_cases hi : i = zid
      · rw [hi, update_self, if_pos rfl]
        by_cases hshort : (s.buffers (.zrwa zid)).remaining < size
        · simp [hshort, u32]
        · rw [if_neg hshort]
          dsimp only
          split_ifs <;> omega
      · rw [update_of_ne (by simpa using hi), if_neg hi, Nat.add_zero]
    · rfl

theorem zrwaAdmit_spent {a : ZnsStatus × ZnsFtl} (h : zrwaAdmit c s zid slba nrLba = .ok a) :
    Spent zid 0 s a.2 := by
  rcases zrwaAdmit_step h with ⟨-, hs⟩ | ⟨-, rfl⟩ | ⟨b, -, halloc, -, rfl⟩
  · rw [hs]
    exact .refl s
  · exact .refl s
  · have hspent := ((SameBuffers.acquire s .openZone).spent.trans (zrwaAllocate_spent halloc)).weaken
    exact hspent.trans (SameBuffers.changeZoneState b.2 zid .openedImpl).spent

theorem increaseWritePtr_buffers (s : ZnsFtl) (zid nrLba : ℕ) : SameBuffers s (increaseWritePtr c s zid nrLba) := by
  unfold increaseWritePtr
  dsimp only
  split_ifs
  · exact ⟨rfl, rfl⟩
  · exact ⟨rfl, rfl⟩
  · exact ⟨rfl, rfl⟩

theorem clocks_space {b : ZnsBuffer} {j : FlashJob} (s : ZnsFtl) (h : dueTo b j.pending = dueTo b s.pending) :
    ({ s with timing := j.timing, pending := j.pending } : ZnsFtl).buffers b = s.buffers b ∧
      dueTo b ({ s with timing := j.timing, pending := j.pending } : ZnsFtl).pending = dueTo b s.pending :=
  ⟨rfl, h⟩

/-- **`__zns_write`** spends nothing of a random write area. -/
theorem znsWriteSeq_space {append : Bool} {o : ZnsOutcome} (h : znsWriteSeq c s sqid start append rw = .ok o)
    (i : ℕ) : o.ftl.buffers (.zrwa i) = s.buffers (.zrwa i) ∧
      dueTo (.zrwa i) o.ftl.pending = dueTo (.zrwa i) s.pending := by
  unfold znsWriteSeq at h
  dsimp only at h
  obtain ⟨⟨allocated, wbuf⟩, -, h⟩ := bind_eq_ok h
  dsimp only at h
  have hbuf : (if c.zp.zoneWbSize ≠ 0 then ZnsBuffer.zone (lbaToZone c rw.slba.toNat) else ZnsBuffer.ssd) ≠
      .zrwa i := by
    split_ifs <;> simp
  generalize (if c.zp.zoneWbSize ≠ 0 then ZnsBuffer.zone (lbaToZone c rw.slba.toNat)
    else ZnsBuffer.ssd) = buf at h hbuf
  generalize (if append = true then (s.zoneDescs (lbaToZone c rw.slba.toNat)).wp
    else rw.slba.toNat) = slba at h
  have hset : (s.setBuffer buf wbuf).buffers (.zrwa i) = s.buffers (.zrwa i) := update_of_ne hbuf.symm _ _
  by_cases hshort : allocated < lbaToByte rw.nrLba
  · rw [if_pos hshort] at h
    cases h
    exact ⟨hset, rfl⟩
  rw [if_neg hshort] at h
  obtain ⟨d, r, hadm⟩ := znsWriteAdmit_frame (c := c) (s.setBuffer buf wbuf)
    (lbaToZone c rw.slba.toNat) slba rw.nrLba
  generalize znsWriteAdmit c (s.setBuffer buf wbuf) (lbaToZone c rw.slba.toNat) slba rw.nrLba = a at h hadm
  have hbufs : a.2.buffers (.zrwa i) = s.buffers (.zrwa i) := by rw [hadm]; exact hset
  have hpending : a.2.pending = s.pending := by rw [hadm]; rfl
  by_cases hst : a.1 = .success
  · rw [if_pos hst] at h
    have hinc := increaseWritePtr_buffers (c := c) a.2 (lbaToZone c rw.slba.toNat) rw.nrLba
    have hdue := znsWriteTiming_due (c := c) hbuf
      (increaseWritePtr c a.2 (lbaToZone c rw.slba.toNat) rw.nrLba) sqid start (lbaToZone c rw.slba.toNat)
      slba rw.nrLba
    have hdone := clocks_space (increaseWritePtr c a.2 (lbaToZone c rw.slba.toNat) rw.nrLba) hdue
    cases h
    exact ⟨hdone.1.trans (hbufs ▸ congrFun hinc.buffers _), hdone.2.trans (by rw [hinc.pending, hpending])⟩
  · rw [if_neg hst] at h
    cases h
    exact ⟨hbufs, by rw [hpending]⟩

/-! ## Management -/

theorem closeZone_buffers (s : ZnsFtl) (i : ℕ) : SameBuffers s (zmgmtSendCloseZone s i).2 := by
  unfold zmgmtSendCloseZone
  cases (s.zoneDescs i).state with
  | openedImpl | openedExpl => exact (SameBuffers.changeZoneState s i .closed).trans (.release _ _)
  | _ => exact .refl s

theorem finishZone_buffers (s : ZnsFtl) (i : ℕ) : SameBuffers s (zmgmtSendFinishZone s i).2 := by
  have hclosed (s : ZnsFtl) (zrwa : Bool) :
      SameBuffers s (((s.releaseZoneResource .activeZone).releaseZrwa zrwa).changeZoneState i .full) :=
    ((SameBuffers.release s .activeZone).trans (.releaseZrwa _ _)).trans (.changeZoneState _ _ _)
  unfold zmgmtSendFinishZone
  cases (s.zoneDescs i).state with
  | openedImpl | openedExpl => exact (SameBuffers.release s .openZone).trans (hclosed _ _)
  | closed => exact hclosed s _
  | empty => exact .changeZoneState s i .full
  | _ => exact .refl s

theorem openZone_buffers (s : ZnsFtl) (i : ℕ) (zrwa : Bool) : SameBuffers s (zmgmtSendOpenZone s i zrwa).2 := by
  unfold zmgmtSendOpenZone
  cases (s.zoneDescs i).state with
  | empty =>
    dsimp only
    split_ifs
    iterate 3 exact .refl s
    · exact (((SameBuffers.acquire s _).trans (.setZone _ _ _)).trans (.acquire _ _)).trans (.openClosedZone _ _)
    · exact (SameBuffers.acquire s _).trans (.openClosedZone _ _)
  | closed => exact .openClosedZone s i
  | openedImpl => exact .changeZoneState s i .openedExpl
  | _ => exact .refl s

theorem offlineZone_buffers (s : ZnsFtl) (i : ℕ) : SameBuffers s (zmgmtSendOfflineZone s i).2 := by
  unfold zmgmtSendOfflineZone
  cases (s.zoneDescs i).state with
  | readOnly => exact .changeZoneState s i .offline
  | _ => exact .refl s

/-- An explicit flush takes nothing, however far it moves the write pointer. -/
theorem flushExplicitZrwa_buffers {r : ZnsStatus × ZnsFtl} (h : zmgmtSendFlushExplicitZrwa c s slba = .ok r) :
    SameBuffers s r.2 := by
  rcases flushExplicitZrwa_cases h rfl with hr | ⟨-, hr⟩
  · rw [hr]
    exact .refl s
  · rw [hr]
    unfold flushFull
    dsimp only
    split_ifs
    · exact ⟨rfl, rfl⟩
    · exact ⟨rfl, rfl⟩
    · exact .setZone s _ _

/-- A reset refills the buffer of the random write area of its zone. -/
theorem resetZone_space (s : ZnsFtl) (zid : ℕ) :
    (zmgmtSendResetZone c s zid).2.pending = s.pending ∧
      ∀ b, (zmgmtSendResetZone c s zid).2.buffers b = s.buffers b ∨
        b = .zrwa zid ∧ (s.zoneDescs zid).Resets ZSA_RESET_ZONE ∧
          (zmgmtSendResetZone c s zid).2.buffers b = bufferRefill (s.buffers b) := by
  have hfull (s' : ZnsFtl) (hs : SameBuffers s s') (b : ZnsBuffer) :
      (resetZone c (s'.changeZoneState zid .empty) zid).pending = s.pending ∧
        ((resetZone c (s'.changeZoneState zid .empty) zid).buffers b = s.buffers b ∨
          b = .zrwa zid ∧ (resetZone c (s'.changeZoneState zid .empty) zid).buffers b =
            bufferRefill (s.buffers b)) := by
    unfold resetZone
    dsimp only
    split_ifs
    · refine ⟨hs.pending, ?_⟩
      by_cases hb : b = .zrwa zid
      · refine .inr ⟨hb, ?_⟩
        rw [hb]
        exact (update_self _ _ _).trans (congrArg bufferRefill (congrFun hs.buffers _))
      · exact .inl ((update_of_ne hb _ _).trans (congrFun hs.buffers _))
    · exact ⟨hs.pending, .inl (congrFun hs.buffers _)⟩
  have hdone (s' : ZnsFtl) (hs : SameBuffers s s') (hz : (s.zoneDescs zid).Resets ZSA_RESET_ZONE) :
      (resetZone c (s'.changeZoneState zid .empty) zid).pending = s.pending ∧
        ∀ b, (resetZone c (s'.changeZoneState zid .empty) zid).buffers b = s.buffers b ∨
          b = .zrwa zid ∧ (s.zoneDescs zid).Resets ZSA_RESET_ZONE ∧
            (resetZone c (s'.changeZoneState zid .empty) zid).buffers b = bufferRefill (s.buffers b) :=
    ⟨(hfull s' hs .ssd).1, fun b => (hfull s' hs b).2.imp_right fun ⟨hb, hr⟩ => ⟨hb, hz, hr⟩⟩
  have hclosed (s : ZnsFtl) (zrwa : Bool) :
      SameBuffers s ((s.releaseZoneResource .activeZone).releaseZrwa zrwa) :=
    (SameBuffers.release s .activeZone).trans (.releaseZrwa _ _)
  unfold zmgmtSendResetZone
  dsimp only
  cases hz : (s.zoneDescs zid).state with
  | openedImpl | openedExpl =>
    exact hdone _ ((SameBuffers.release s .openZone).trans (hclosed _ _)) ⟨rfl, by simp [hz], by simp [hz]⟩
  | closed => exact hdone _ (hclosed s _) ⟨rfl, by simp [hz], by simp [hz]⟩
  | full | empty => exact hdone s (.refl s) ⟨rfl, by simp [hz], by simp [hz]⟩
  | readOnly | offline => exact ⟨rfl, fun _ => .inl rfl⟩

theorem zmgmtSend_buffers {action : BitVec 8} {option : Bool} {r : ZnsStatus × ZnsFtl}
    (h : zmgmtSend c s slba action option = .ok r) :
    r.2.pending = s.pending ∧ ∀ b, (∀ i, b ≠ .zrwa i) → r.2.buffers b = s.buffers b := by
  have hsame (hs : SameBuffers s r.2) :
      r.2.pending = s.pending ∧ ∀ b, (∀ i, b ≠ .zrwa i) → r.2.buffers b = s.buffers b :=
    ⟨hs.pending, fun b _ => congrFun hs.buffers b⟩
  unfold zmgmtSend at h
  dsimp only at h
  split_ifs at h
  · cases h; exact hsame (closeZone_buffers s _)
  · cases h; exact hsame (finishZone_buffers s _)
  · cases h; exact hsame (openZone_buffers s _ _)
  · cases h
    have hspace := resetZone_space (c := c) s (lbaToZone c slba)
    exact ⟨hspace.1, fun b hb => (hspace.2 b).resolve_right fun hr => hb _ hr.1⟩
  · cases h; exact hsame (offlineZone_buffers s _)
  · exact hsame (flushExplicitZrwa_buffers h)
  · cases h; exact hsame (.refl s)

end WaitGc

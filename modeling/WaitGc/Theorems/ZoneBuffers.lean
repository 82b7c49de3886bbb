/-
  WAITGC verification — the conservation of the write buffers.

  A write takes its bytes from the buffer that serves its zone, one by one; the
  loop of `__zns_write` gives back a whole wordline for every wordline whose
  last page it touches, and what is left of the last wordline of a zone.  So a
  write that ends inside the last page of a wordline gives it back twice, and a
  zone that is reset or finished in the middle of a wordline never gives it
  back.

  `zone_buffers_conserved`: in a run without such steps what a buffer has lent,
  and no scheduled release gives back, are the bytes of the wordlines of its
  zones that are not complete.
-/
import WaitGc.Proof.ZoneDevices
import WaitGc.Proof.ZrwaSpace
import WaitGc.Theorems.SequentialWrites
import WaitGc.Theorems.ZrwaBuffers

namespace WaitGc

open Outcome Function

variable {c : ZnsCfg} {m : ZnsConfig} {s s' : ZnsFtl} {b buf : ZnsBuffer} {j : FlashJob}
  {zid off pgs slba nrLba capacity : ℕ} {z : ZoneDescriptor} {rw : RwCommand} {sqid start : ℕ} {o : ZnsOutcome}
  {clock storage : ℕ → ℕ} {es : List ZnsEvent}

/-! ## Conservation, and its condition -/

/-- The bytes of the wordline that a zone was written up to; a zone that is empty or
    full has none. -/
def incompleteBytes (c : ZnsCfg) (z : ZoneDescriptor) : ℕ :=
  if z.state = .empty ∨ z.state = .full then 0 else (z.wp - z.zslba) * LBA_SIZE % oneshotBytes c

/-- The bytes of the incomplete wordlines of the zones that the buffer `b` serves. -/
def heldBytes (c : ZnsCfg) (s : ZnsFtl) (b : ZnsBuffer) : ℕ :=
  ∑ zid ∈ Finset.range c.zp.nrZones, if zoneBuffer c zid = b then incompleteBytes c (s.zoneDescs zid) else 0

/-- No buffer has more left than it is large; when its releases are performed it lends the
    incomplete wordlines of its zones, and nothing to a zone that is empty or full. -/
structure BuffersConserved (c : ZnsCfg) (s : ZnsFtl) : Prop where
  le : ∀ zid < c.zp.nrZones, (s.buffers (zoneBuffer c zid)).remaining ≤ (s.buffers (zoneBuffer c zid)).size
  lent : ∀ zid < c.zp.nrZones, dueTo (zoneBuffer c zid) s.pending = 0 →
    (s.buffers (zoneBuffer c zid)).size - (s.buffers (zoneBuffer c zid)).remaining = heldBytes c s (zoneBuffer c zid)
  idle : ∀ zid < c.zp.nrZones, c.zp.zoneWbSize ≠ 0 → dueTo (zoneBuffer c zid) s.pending = 0 →
    (s.zoneDescs zid).state = .empty ∨ (s.zoneDescs zid).state = .full →
      (s.buffers (zoneBuffer c zid)).remaining = (s.buffers (zoneBuffer c zid)).size

/-- Block `e` of a zone lies inside the last page of a wordline or of the zone, and does not
    start it. -/
def InLastPage (c : ZnsCfg) (e : ℕ) : Prop :=
  e % c.sp.secsPerPg ≠ 0 ∧
    ((e / c.sp.secsPerPg + 1) % c.sp.pgsPerOneshotpg = 0 ∨ e / c.sp.secsPerPg + 1 = pgsPerZone c)

/-- A write that finds buffer space does not stop inside a last page. -/
def WriteStops (c : ZnsCfg) (s : ZnsFtl) (rw : RwCommand) : Prop :=
  let zid := lbaToZone c rw.slba.toNat
  lbaToByte rw.nrLba ≤ (s.buffers (zoneBuffer c zid)).remaining →
    ¬ InLastPage c ((s.zoneDescs zid).wp - (s.zoneDescs zid).zslba + rw.nrLba)

/-- A zone that is finished or reset holds nothing. -/
def SendStops (c : ZnsCfg) (s : ZnsFtl) (action : BitVec 8) (slba : ℕ) : Prop :=
  action = ZSA_FINISH_ZONE ∨ action = ZSA_RESET_ZONE → incompleteBytes c (s.zoneDescs (lbaToZone c slba)) = 0

/-- The event gives nothing back too early, and abandons nothing. -/
def ZnsEvent.Stops (c : ZnsCfg) (s : ZnsFtl) : ZnsEvent → Prop
  | .command ⟨.write rw, _, _⟩ | .command ⟨.append rw, _, _⟩ => WriteStops c s rw
  | .command ⟨.mgmtSend cmd, _, _⟩ =>
    (zmgmtCalls c cmd.zsa cmd.zsaso).Along (fun s slba => SendStops c s cmd.zsa slba) s (cmd.slbas c)
  | _ => True

/-- A write or an append is done or tried again, and not refused. -/
def ZnsEvent.Succeeds (c : ZnsCfg) (s : ZnsFtl) : ZnsEvent → Prop
  | .command ⟨.write rw, sqid, start⟩ =>
    Yields (fun o => ∀ ret ∈ o.ret, ret.status = .success) (znsWrite c s sqid start.toNat false rw)
  | .command ⟨.append rw, sqid, start⟩ =>
    Yields (fun o => ∀ ret ∈ o.ret, ret.status = .success) (znsWrite c s sqid start.toNat true rw)
  | _ => True

instance (x : Except ZnsFault ZnsOutcome) :
    Decidable (Yields (fun o => ∀ ret ∈ o.ret, ret.status = .success) x) :=
  match x with
  | .ok o => inferInstanceAs (Decidable (∀ ret ∈ o.ret, ret.status = .success))
  | .error _ => .isTrue trivial

instance (s : ZnsFtl) : ∀ e : ZnsEvent, Decidable (e.Succeeds c s)
  | .command ⟨.write rw, sqid, start⟩ =>
    inferInstanceAs (Decidable (Yields _ (znsWrite c s sqid start.toNat false rw)))
  | .command ⟨.append rw, sqid, start⟩ =>
    inferInstanceAs (Decidable (Yields _ (znsWrite c s sqid start.toNat true rw)))
  | .command ⟨.mgmtSend _, _, _⟩ | .command ⟨.read _, _, _⟩ | .command ⟨.flush, _, _⟩ | .command ⟨.other _, _, _⟩
  | .fire _ => .isTrue trivial

instance (e : ℕ) : Decidable (InLastPage c e) := inferInstanceAs (Decidable (_ ∧ _))

instance (s : ZnsFtl) (rw : RwCommand) : Decidable (WriteStops c s rw) := inferInstanceAs (Decidable (_ → _))

instance (s : ZnsFtl) (action : BitVec 8) (slba : ℕ) : Decidable (SendStops c s action slba) :=
  inferInstanceAs (Decidable (_ → _))

instance (s : ZnsFtl) : ∀ e : ZnsEvent, Decidable (e.Stops c s)
  | .command ⟨.write rw, _, _⟩ | .command ⟨.append rw, _, _⟩ => inferInstanceAs (Decidable (WriteStops c s rw))
  | .command ⟨.mgmtSend cmd, _, _⟩ => inferInstanceAs (Decidable (Machine.Along _ _ s (cmd.slbas c)))
  | .command ⟨.read _, _, _⟩ | .command ⟨.flush, _, _⟩ | .command ⟨.other _, _, _⟩ | .fire _ => .isTrue trivial

/-! ## Pages and wordlines -/

/-- The bytes of the wordlines that lie in the first `k` pages of a zone. -/
def completedBytes (c : ZnsCfg) (k : ℕ) : ℕ :=
  if k = pgsPerZone c then c.zp.zoneSize else k / c.sp.pgsPerOneshotpg * oneshotBytes c

theorem pgsz_pos (c : ZnsCfg) : 0 < c.sp.pgsz := by
  rw [c.pgsz_eq]
  decide

theorem pgsPerZone_mul (c : ZnsCfg) : pgsPerZone c * c.sp.pgsz = c.zp.zoneSize :=
  Nat.div_mul_cancel (Nat.dvd_of_mod_eq_zero c.zoneSize_mod)

theorem unalignedSpace_eq (c : ZnsCfg) :
    c.zp.zoneSize % oneshotBytes c = pgsPerZone c % c.sp.pgsPerOneshotpg * c.sp.pgsz := by
  rw [← pgsPerZone_mul c, oneshotBytes, Nat.mul_mod_mul_right]

/-- What one turn of the loop gives back. -/
def turnBytes (c : ZnsCfg) (off pgs : ℕ) : ℕ :=
  if off % c.sp.pgsPerOneshotpg + pgs = c.sp.pgsPerOneshotpg ∨ off + pgs = pgsPerZone c then
    if off + pgs = pgsPerZone c ∧ 0 < c.zp.zoneSize % oneshotBytes c then c.zp.zoneSize % oneshotBytes c
    else oneshotBytes c
  else 0

/-- **A turn gives back the wordlines it completes.** -/
theorem completedBytes_turn (hpg : 0 < c.sp.pgsPerOneshotpg) (hoff : off < pgsPerZone c) (hpos : 0 < pgs)
    (hpgs : off % c.sp.pgsPerOneshotpg + pgs ≤ c.sp.pgsPerOneshotpg) (hle : off + pgs ≤ pgsPerZone c) :
    completedBytes c (off + pgs) = completedBytes c off + turnBytes c off pgs := by
  have hdiv := Nat.div_add_mod off c.sp.pgsPerOneshotpg
  have hsz := pgsz_pos c
  rw [completedBytes, completedBytes, if_neg hoff.ne, turnBytes, unalignedSpace_eq]
  rcases hle.eq_or_lt with hend | hlt
  · -- the turn reaches the end of the zone
    rw [if_pos hend, if_pos (.inr hend), ← pgsPerZone_mul c, ← hend, oneshotBytes]
    rcases hpgs.eq_or_lt with hfull | hpart
    · have hpages : off + pgs = (off / c.sp.pgsPerOneshotpg + 1) * c.sp.pgsPerOneshotpg := by
        rw [Nat.add_mul, Nat.mul_comm, Nat.one_mul]
        omega
      rw [hpages, Nat.mul_mod_left, Nat.zero_mul, if_neg (fun h => lt_irrefl _ h.2)]
      ring
    · have hmod : (off + pgs) % c.sp.pgsPerOneshotpg = off % c.sp.pgsPerOneshotpg + pgs := by
        rw [← hdiv, Nat.mul_add_mod, Nat.mod_eq_of_lt (Nat.mod_lt _ hpg), Nat.add_assoc, Nat.mul_add_mod,
          Nat.mod_eq_of_lt hpart]
      rw [hmod, if_pos ⟨rfl, Nat.mul_pos (by omega) hsz⟩]
      rw [← hdiv, Nat.add_assoc, Nat.mul_add_mod, Nat.mod_mod, hdiv]
      ring
  · rw [if_neg hlt.ne]
    rcases hpgs.eq_or_lt with hfull | hpart
    · have hnext : (off + pgs) / c.sp.pgsPerOneshotpg = off / c.sp.pgsPerOneshotpg + 1 := by
        refine Nat.div_eq_of_lt_le ?_ ?_
        · rw [Nat.add_mul, Nat.mul_comm]
          omega
        · rw [Nat.add_mul, Nat.add_mul, Nat.mul_comm]
          omega
      rw [hnext, if_pos (.inl hfull), if_neg (fun h => hlt.ne h.1), Nat.add_mul, Nat.one_mul]
    · have hsame : (off + pgs) / c.sp.pgsPerOneshotpg = off / c.sp.pgsPerOneshotpg := by
        refine Nat.div_eq_of_lt_le ?_ ?_
        · rw [Nat.mul_comm]
          omega
        · rw [Nat.add_mul, Nat.mul_comm]
          omega
      rw [hsame, if_neg, Nat.add_zero]
      rintro (h | h)
      · exact hpart.ne h
      · exact hlt.ne h

/-! ## The loop of a write -/

/-- The device is below 2 TiB, a wordline fits into the page field of an address, and the
    sizes of the buffers have 64 bits. -/
structure Fits (c : ZnsCfg) : Prop where
  cap : c.zp.nrZones * c.zp.zoneSize < 2 ^ 41
  pos : 0 < c.sp.pgsPerOneshotpg
  le : c.sp.pgsPerOneshotpg ≤ 2 ^ 16
  zoneBuffer : c.zp.zoneWbSize < 2 ^ 64
  ssdBuffer : c.sp.writeBufferSize < 2 ^ 64

theorem Fits.pages_lt (hf : Fits c) (hzid : zid < c.zp.nrZones) :
    zid * pgsPerZone c + pgsPerZone c < 2 ^ 29 := by
  have hlt := zoneStart_succ_lt hf.cap hzid
  rw [zoneStart, lbasPerZone_eq, ← Nat.mul_assoc] at hlt
  omega

theorem Fits.zoneToElpn_eq (hf : Fits c) (hzid : zid < c.zp.nrZones) :
    zoneToElpn c zid + 1 = zid * pgsPerZone c + pgsPerZone c := by
  have hlt := hf.pages_lt hzid
  have hn := c.nrZones_lt
  have hpos := lbasPerZone_pos c
  rw [lbasPerZone_eq] at hpos
  have hslba : zoneToSlba c (u32 (zid + 1)) = (zid * pgsPerZone c + pgsPerZone c) * 8 := by
    have hu : u32 (zid + 1) = zid + 1 := Nat.mod_eq_of_lt (by omega)
    have heq : (zid + 1) * lbasPerZone c = (zid * pgsPerZone c + pgsPerZone c) * 8 := by
      rw [lbasPerZone_eq]
      ring
    rw [zoneToSlba, hu, heq]
    exact Nat.mod_eq_of_lt (by omega)
  rw [zoneToElpn, zoneToElba, hslba, c.secsPerPg_eq]
  unfold sub64 u64
  omega

theorem Fits.aligned (hf : Fits c) (hzid : zid < c.zp.nrZones) : ZoneAligned c zid := by
  refine zoneAligned_of_le ?_ hf.le hf.pos hzid
  have hlast := hf.pages_lt (show c.zp.nrZones - 1 < c.zp.nrZones by omega)
  have heq : (c.zp.nrZones - 1) * pgsPerZone c + pgsPerZone c = c.zp.nrZones * pgsPerZone c := by
    rw [← Nat.succ_mul, Nat.succ_eq_add_one, Nat.sub_add_cancel (by omega)]
  omega

/-- **What the loop schedules**: the wordlines of the pages it runs through. -/
theorem writeFlashPages_completed (hf : Fits c) (hzid : zid < c.zp.nrZones) {xfer elast fuel : ℕ}
    (hlast : elast < pgsPerZone c) (hoff : off ≤ elast + 1) (hfuel : elast + 1 ≤ off + fuel) (b : ZnsBuffer) :
    dueTo b (writeFlashPages c sqid xfer (zid * pgsPerZone c + elast) (zoneToElpn c zid) buf fuel
        (zid * pgsPerZone c + off) j).pending + (if buf = b then completedBytes c off else 0) =
      dueTo b j.pending + if buf = b then completedBytes c (elast + 1) else 0 := by
  induction fuel generalizing off j with
  | zero =>
    obtain rfl : off = elast + 1 := by omega
    rfl
  | succ fuel ih =>
    rw [writeFlashPages]
    rcases hoff.eq_or_lt with rfl | hlt
    · rw [if_neg (by omega)]
    have hend := hf.zoneToElpn_eq hzid
    have hoff' : off < pgsPerZone c := by omega
    have hmod := Nat.mod_lt off hf.pos
    rw [if_pos (by omega)]
    dsimp only
    rw [hf.aligned hzid off hoff', ← oneshotBytes]
    generalize hpgs : min (zid * pgsPerZone c + elast - (zid * pgsPerZone c + off) + 1)
      (c.sp.pgsPerOneshotpg - off % c.sp.pgsPerOneshotpg) = pgs
    have hturn : completedBytes c (off + pgs) = completedBytes c off + turnBytes c off pgs :=
      completedBytes_turn hf.pos hoff' (by omega) (by omega) (by omega)
    have hzone : zid * pgsPerZone c + off + pgs - 1 = zoneToElpn c zid ↔ off + pgs = pgsPerZone c := by omega
    simp only [hzone]
    generalize hj : (if off % c.sp.pgsPerOneshotpg + pgs = c.sp.pgsPerOneshotpg ∨ off + pgs = pgsPerZone c
      then programFlashPage c sqid xfer _ buf _ j else j) = j'
    have hdue : dueTo b j'.pending = dueTo b j.pending + if buf = b then turnBytes c off pgs else 0 := by
      rw [← hj, turnBytes]
      split_ifs
      all_goals simp [programFlashPage_due, *]
    have hoff₁ : off + pgs ≤ elast + 1 := by omega
    have hrest := ih (j := j') hoff₁ (by omega)
    rw [← Nat.add_assoc] at hrest
    split_ifs at hrest hdue ⊢
    · omega
    · omega

/-! ## What a write does to the buffers -/

theorem znsWriteAdmit_buffers (s : ZnsFtl) (zid slba nrLba : ℕ) :
    SameBuffers s (znsWriteAdmit c s zid slba nrLba).2 := by
  obtain ⟨d, r, h⟩ := znsWriteAdmit_frame (c := c) s zid slba nrLba
  rw [h]
  exact ⟨rfl, rfl⟩

theorem bufferAllocate_none {buf : Buffer} {size : ℕ} {a : ℕ × Buffer} (hshort : buf.remaining < size)
    (h : liftZns (bufferAllocate buf size) = .ok a) : a.2 = buf := by
  cases hb : bufferAllocate buf size with
  | error f => rw [hb] at h; cases h
  | ok b =>
    rw [hb] at h
    cases h
    obtain ⟨-, -, hb⟩ := bind_eq_ok hb
    dsimp only at hb
    rw [if_pos hshort] at hb
    cases hb
    rfl

/-- What a successful write finds and does: the space is taken from the buffer, and the
    loop runs over the pages of the write. -/
structure BufferedWrite (c : ZnsCfg) (s : ZnsFtl) (zid slba : ℕ) (rw : RwCommand) (s' : ZnsFtl) : Prop where
  space : rw.nrLba * 512 ≤ (s.buffers (zoneBuffer c zid)).remaining
  buffers : s'.buffers = update s.buffers (zoneBuffer c zid)
    { s.buffers (zoneBuffer c zid) with remaining := (s.buffers (zoneBuffer c zid)).remaining - rw.nrLba * 512 }
  pending : ∃ sqid xfer timing latest j, s'.pending = FlashJob.pending j ∧
    j = writeFlashPages c sqid xfer (lbaToLpn c (sub64 (u64 (slba + rw.nrLba)) 1)) (zoneToElpn c zid)
      (zoneBuffer c zid) (lbaToLpn c (sub64 (u64 (slba + rw.nrLba)) 1) + 1 - lbaToLpn c slba)
      (lbaToLpn c slba) ⟨timing, s.pending, latest⟩

/-- The loop is the last that happens. -/
theorem BufferedWrite.clocks {xfer latest : ℕ} {timing : Timing} {j : FlashJob}
    (hspace : rw.nrLba * 512 ≤ (s.buffers (zoneBuffer c zid)).remaining)
    (hbuffers : s'.buffers = update s.buffers (zoneBuffer c zid) { s.buffers (zoneBuffer c zid) with
      remaining := (s.buffers (zoneBuffer c zid)).remaining - rw.nrLba * 512 })
    (hj : j = writeFlashPages c sqid xfer (lbaToLpn c (sub64 (u64 (slba + rw.nrLba)) 1)) (zoneToElpn c zid)
      (zoneBuffer c zid) (lbaToLpn c (sub64 (u64 (slba + rw.nrLba)) 1) + 1 - lbaToLpn c slba)
      (lbaToLpn c slba) ⟨timing, s.pending, latest⟩) :
    BufferedWrite c s zid slba rw { s' with timing := j.timing, pending := j.pending } :=
  ⟨hspace, hbuffers, sqid, xfer, timing, latest, j, rfl, hj⟩

/-- A write runs the loop once. -/
theorem znsWriteTiming_loop (s : ZnsFtl) (sqid start zid slba nrLba : ℕ) (buf : ZnsBuffer) :
    ∃ xfer timing latest, (znsWriteTiming c s sqid start zid slba nrLba buf).2 =
      writeFlashPages c sqid xfer (lbaToLpn c (sub64 (u64 (slba + nrLba)) 1)) (zoneToElpn c zid) buf
        (lbaToLpn c (sub64 (u64 (slba + nrLba)) 1) + 1 - lbaToLpn c slba) (lbaToLpn c slba)
        ⟨timing, s.pending, latest⟩ := by
  unfold znsWriteTiming
  dsimp only
  exact ⟨_, _, _, rfl⟩

/-- **A write that is not rejected**: it has no result and changes no buffer, or it is
    done. -/
theorem znsWriteSeq_buffers {append : Bool} {rw : RwCommand} {sqid start : ℕ} {o : ZnsOutcome}
    (h : znsWriteSeq c s sqid start append rw = .ok o)
    (hsuccess : ∀ ret ∈ o.ret, ret.status = .success) :
    (o.ret = none ∧ SameBuffers s o.ftl) ∨ (o.ret.isSome ∧
      BufferedWrite c s (lbaToZone c rw.slba.toNat) (writeSlba c s append rw) rw o.ftl) := by
  have hbytes := rw.lbaToByte_eq
  have hpos := rw.nrLba_pos
  have hle := rw.nrLba_le
  unfold znsWriteSeq at h
  dsimp only at h
  obtain ⟨⟨allocated, wbuf⟩, halloc, h⟩ := bind_eq_ok h
  dsimp only at h
  rw [show (if c.zp.zoneWbSize ≠ 0 then ZnsBuffer.zone (lbaToZone c rw.slba.toNat) else ZnsBuffer.ssd) =
    zoneBuffer c (lbaToZone c rw.slba.toNat) from rfl] at h halloc
  rw [show (if append = true then (s.zoneDescs (lbaToZone c rw.slba.toNat)).wp else rw.slba.toNat) =
    writeSlba c s append rw from rfl] at h
  generalize writeSlba c s append rw = slba at h ⊢
  generalize lbaToZone c rw.slba.toNat = zid at h halloc ⊢
  have hshort := liftZns_bufferAllocate_short (by omega) (by omega) halloc
  by_cases hlt : allocated < lbaToByte rw.nrLba
  · rw [if_pos hlt] at h
    cases h
    obtain rfl : wbuf = s.buffers (zoneBuffer c zid) := bufferAllocate_none (hshort.1 hlt) halloc
    exact .inl ⟨rfl, update_eq_self _ _, rfl⟩
  rw [if_neg hlt] at h
  have hroom := Nat.le_of_not_lt (mt hshort.2 hlt)
  have hwbuf := bufferAllocate_enough (by omega) hroom halloc
  rw [Prod.mk.injEq] at hwbuf
  have hadm := znsWriteAdmit_buffers (c := c) (s.setBuffer (zoneBuffer c zid) wbuf) zid slba rw.nrLba
  generalize znsWriteAdmit c (s.setBuffer (zoneBuffer c zid) wbuf) zid slba rw.nrLba = a at h hadm
  by_cases hst : a.1 = .success
  · rw [if_pos hst] at h
    have hkeep := hadm.trans (increaseWritePtr_buffers (c := c) a.2 zid rw.nrLba)
    generalize increaseWritePtr c a.2 zid rw.nrLba = s₁ at h hkeep
    have hloop := znsWriteTiming_loop (c := c) s₁ sqid start zid slba rw.nrLba (zoneBuffer c zid)
    generalize znsWriteTiming c s₁ sqid start zid slba rw.nrLba (zoneBuffer c zid) = t at h hloop
    obtain ⟨xfer, timing, latest, hloop⟩ := hloop
    rw [show s₁.pending = s.pending from hkeep.pending] at hloop
    rw [hbytes] at hroom hwbuf
    have hbuffers := hkeep.buffers
    rw [show (s.setBuffer (zoneBuffer c zid) wbuf).buffers = update s.buffers (zoneBuffer c zid) wbuf from rfl,
      hwbuf.2] at hbuffers
    have hdone := BufferedWrite.clocks hroom hbuffers hloop
    cases h
    exact .inr ⟨rfl, hdone⟩
  · rw [if_neg hst] at h
    cases h
    exact absurd (hsuccess _ rfl) hst

/-! ## The bytes of a zone -/

theorem completedBytes_page {x : ℕ} (hx : x < lbasPerZone c) :
    completedBytes c (x / 8) + x * 512 % oneshotBytes c = x * 512 := by
  rw [lbasPerZone_eq] at hx
  rw [completedBytes, if_neg (by omega)]
  have hbytes : oneshotBytes c = 8 * c.sp.pgsPerOneshotpg * 512 := by
    rw [oneshotBytes, c.pgsz_eq, show LBA_SIZE = 512 from rfl]
    omega
  rw [hbytes, Nat.mul_mod_mul_right, Nat.div_div_eq_div_mul, ← Nat.mul_assoc, ← Nat.add_mul]
  rw [Nat.mul_comm (x / _), Nat.div_add_mod]

/-- A block that is not inside a last page: the pages up to it complete no wordline that it
    does not. -/
theorem completedBytes_stop {e : ℕ} (hpos : 0 < e) (he : e < lbasPerZone c) (hstop : ¬ InLastPage c e) :
    completedBytes c ((e - 1) / 8 + 1) + e * 512 % oneshotBytes c = e * 512 := by
  suffices hpages : completedBytes c ((e - 1) / 8 + 1) = completedBytes c (e / 8) by
    rw [hpages, completedBytes_page he]
  rw [InLastPage, c.secsPerPg_eq, not_and_or, not_or, ne_eq, not_not] at hstop
  rcases hstop with hstop | ⟨hword, hzone⟩
  · rw [show (e - 1) / 8 + 1 = e / 8 by omega]
  · by_cases h0 : e % 8 = 0
    · rw [show (e - 1) / 8 + 1 = e / 8 by omega]
    rw [lbasPerZone_eq] at he
    rw [show (e - 1) / 8 + 1 = e / 8 + 1 by omega, completedBytes, completedBytes, if_neg hzone,
      if_neg (by omega), Nat.succ_div_of_mod_ne_zero hword]

theorem completedBytes_end (c : ZnsCfg) :
    completedBytes c ((lbasPerZone c - 1) / 8 + 1) = lbasPerZone c * 512 := by
  have hpos := lbasPerZone_pos c
  have hmul := pgsPerZone_mul c
  rw [c.pgsz_eq, show LBA_SIZE = 512 from rfl] at hmul
  rw [lbasPerZone_eq] at hpos ⊢
  rw [show (pgsPerZone c * 8 - 1) / 8 + 1 = pgsPerZone c by omega, completedBytes, if_pos rfl]
  omega

/-- A zone that is not full holds what its write pointer leaves of a wordline. -/
theorem ZoneLaw.incompleteBytes_eq {log : List ZoneWrite} (h : ZoneLaw c zid z log) (hz : z.state ≠ .full) :
    incompleteBytes c z = (z.wp - z.zslba) * 512 % oneshotBytes c := by
  rw [incompleteBytes]
  split_ifs with hstate
  · rw [h.empty (hstate.resolve_right hz), Nat.sub_self, Nat.zero_mul, Nat.zero_mod]
  · rfl

/-- **A done write**: what it takes, and what its zone held, is what it completes and what
    its zone holds. -/
theorem ZoneLaw.written_bytes {log : List ZoneWrite} (hf : Fits c) (hzid : zid < c.zp.nrZones)
    (h : ZoneLaw c zid z log) (ha : Admitted c z slba nrLba) (hpos : 0 < nrLba) (hnr : nrLba ≤ 2 ^ 16)
    (hstop : ¬ InLastPage c (z.wp - z.zslba + nrLba)) :
    completedBytes c ((slba - zoneStart c zid) / 8) + nrLba * 512 + incompleteBytes c z =
      completedBytes c ((slba - zoneStart c zid + nrLba - 1) / 8 + 1) +
        incompleteBytes c (z.written c zid nrLba) := by
  have hle := h.admitted_le hf.cap hzid ha hpos hnr
  obtain ⟨hwp, hend⟩ := h.admitted_wp hf.cap hzid ha hpos hnr
  have hge := h.wpGe
  have hroom := h.room ha.state
  have hlaw : ZoneLaw c zid (z.written c zid nrLba) (log ++ [⟨⟨slba, nrLba⟩, false, 0⟩]) :=
    h.written hf.cap hzid ha hpos hnr fun hf => by cases hf
  have hwp' : (z.written c zid nrLba).wp = slba + nrLba := hwp
  have hz' := hlaw.zslba
  have hfull : z.state ≠ .full := by
    rcases ha.state with hz | hz
    · rw [hz]; simp
    · intro hz'
      simp [ZoneDescriptor.isActive, ZoneDescriptor.isOpen, hz'] at hz
  have hold := h.incompleteBytes_eq hfull
  rw [h.zslba, ← ha.wp] at hold hge hstop
  rw [h.zslba, h.capacity, ← ha.wp] at hroom
  have hbefore := completedBytes_page (c := c) (x := slba - zoneStart c zid) (by omega)
  rw [hold]
  rcases hle.eq_or_lt with heq | hlt
  · have hstate : (z.written c zid nrLba).state = .full :=
      hlaw.full (by rw [hwp', hz', hlaw.capacity]; exact heq)
    have hafter := completedBytes_end c
    rw [show slba - zoneStart c zid + nrLba = lbasPerZone c by omega, incompleteBytes, if_pos (.inr hstate)]
    have hbytes : (slba - zoneStart c zid) * 512 + nrLba * 512 = lbasPerZone c * 512 := by omega
    omega
  · have hnot : (z.written c zid nrLba).state ≠ .full := by
      simp only [ZoneDescriptor.written, ZoneDescriptor.advance, ZoneDescriptor.openImpl_wp,
        ZoneDescriptor.openImpl_zoneCapacity, hwp, hend]
      rw [if_neg (by omega)]
      have hopen := (isOpen_eq _).1 (ZoneDescriptor.openImpl_isOpen z)
      rcases hopen with ho | ho <;> simp [ho]
    have hafter := completedBytes_stop (c := c) (e := slba - zoneStart c zid + nrLba) (by omega) (by omega) hstop
    rw [hlaw.incompleteBytes_eq hnot, hwp', hz',
      show slba + nrLba - zoneStart c zid = slba - zoneStart c zid + nrLba by omega]
    have hbytes : (slba - zoneStart c zid + nrLba) * 512 = (slba - zoneStart c zid) * 512 + nrLba * 512 := by ring
    omega

/-! ## The law of the buffers -/

/-- What a buffer has left, what is due to it and what its zones hold is all there is. -/
structure BufferLaw (c : ZnsCfg) (s : ZnsFtl) : Prop where
  law : ∃ log, RunLaw c ⟨s, log⟩
  size_lt : ∀ zid < c.zp.nrZones, (s.buffers (zoneBuffer c zid)).size < 2 ^ 64
  balance : ∀ zid < c.zp.nrZones,
    (s.buffers (zoneBuffer c zid)).remaining + dueTo (zoneBuffer c zid) s.pending + heldBytes c s (zoneBuffer c zid) =
      (s.buffers (zoneBuffer c zid)).size

theorem heldBytes_congr (h : s'.zoneDescs = s.zoneDescs) (b : ZnsBuffer) : heldBytes c s' b = heldBytes c s b := by
  unfold heldBytes
  rw [h]

theorem heldBytes_update (hzid : zid < c.zp.nrZones) (h : s'.zoneDescs = update s.zoneDescs zid z) (b : ZnsBuffer) :
    heldBytes c s' b + (if zoneBuffer c zid = b then incompleteBytes c (s.zoneDescs zid) else 0) =
      heldBytes c s b + if zoneBuffer c zid = b then incompleteBytes c z else 0 := by
  have hmem := Finset.mem_range.2 hzid
  have hrest : (∑ i ∈ (Finset.range c.zp.nrZones).erase zid,
      if zoneBuffer c i = b then incompleteBytes c (s'.zoneDescs i) else 0) =
        ∑ i ∈ (Finset.range c.zp.nrZones).erase zid,
          if zoneBuffer c i = b then incompleteBytes c (s.zoneDescs i) else 0 :=
    Finset.sum_congr rfl fun i hi => by rw [h, update_of_ne (Finset.ne_of_mem_erase hi)]
  rw [heldBytes, heldBytes, ← Finset.sum_erase_add _ _ hmem, hrest, ← Finset.sum_erase_add _ _ hmem, h, update_self]
  omega

/-- A zone with a buffer of its own holds all that the buffer lends. -/
theorem heldBytes_own (hown : c.zp.zoneWbSize ≠ 0) (hzid : zid < c.zp.nrZones) (s : ZnsFtl) :
    heldBytes c s (zoneBuffer c zid) = incompleteBytes c (s.zoneDescs zid) := by
  have hinj (i : ℕ) : zoneBuffer c i = zoneBuffer c zid ↔ i = zid := by simp [zoneBuffer, hown]
  simp only [heldBytes, hinj]
  rw [Finset.sum_ite_eq' (Finset.range c.zp.nrZones) zid, if_pos (Finset.mem_range.2 hzid)]

theorem BufferLaw.conserved (h : BufferLaw c s) : BuffersConserved c s where
  le zid hzid := by
    have := h.balance zid hzid
    omega
  lent zid hzid hdue := by
    have := h.balance zid hzid
    omega
  idle zid hzid hown hdue hz := by
    have hbalance := h.balance zid hzid
    rw [heldBytes_own hown hzid, incompleteBytes, if_pos hz] at hbalance
    omega

/-- A step that changes one zone, and neither the buffers nor what the zone holds. -/
theorem BufferLaw.move (h : BufferLaw c s) (hlaw : ∃ log, RunLaw c ⟨s', log⟩) (hzid : zid < c.zp.nrZones)
    (hdescs : s'.zoneDescs = update s.zoneDescs zid z)
    (hbytes : incompleteBytes c z = incompleteBytes c (s.zoneDescs zid))
    (hbufs : ∀ i, s'.buffers (zoneBuffer c i) = s.buffers (zoneBuffer c i)) (hpending : s'.pending = s.pending) :
    BufferLaw c s' := by
  refine ⟨hlaw, fun i hi => hbufs i ▸ h.size_lt i hi, fun i hi => ?_⟩
  have hheld := heldBytes_update hzid hdescs (zoneBuffer c i)
  have hbalance := h.balance i hi
  rw [hbytes] at hheld
  rw [hbufs, hpending]
  omega

theorem BufferLaw.same (h : BufferLaw c s) (hlaw : ∃ log, RunLaw c ⟨s', log⟩) (hdescs : s'.zoneDescs = s.zoneDescs)
    (hbufs : SameBuffers s s') : BufferLaw c s' := by
  refine ⟨hlaw, fun i hi => ?_, fun i hi => ?_⟩
  · rw [hbufs.buffers]
    exact h.size_lt i hi
  · rw [hbufs.buffers, hbufs.pending, heldBytes_congr hdescs]
    exact h.balance i hi

/-- **What a write schedules**: the completed bytes of its zone grow from those before its
    first page to those before the page behind its last. -/
theorem BufferedWrite.due {zid : ℕ} (h : BufferedWrite c s zid slba rw s') (hf : Fits c)
    (hzid : zid < c.zp.nrZones) (hge : zoneStart c zid ≤ slba)
    (hle : slba + rw.nrLba ≤ zoneStart c zid + lbasPerZone c) (b : ZnsBuffer) :
    dueTo b s'.pending +
        (if zoneBuffer c zid = b then completedBytes c ((slba - zoneStart c zid) / 8) else 0) =
      dueTo b s.pending +
        if zoneBuffer c zid = b then completedBytes c ((slba - zoneStart c zid + rw.nrLba - 1) / 8 + 1) else 0 := by
  obtain ⟨sqid, xfer, timing, latest, j, hpending, hj⟩ := h.pending
  have hpos := rw.nrLba_pos
  have hend := zoneStart_succ_lt hf.cap hzid
  have hpages := lbasPerZone_eq c
  have hlast : sub64 (u64 (slba + rw.nrLba)) 1 = slba + rw.nrLba - 1 := by
    unfold sub64 u64
    omega
  rw [hlast, lbaToLpn_wp hge, lbaToLpn_wp (show zoneStart c zid ≤ slba + rw.nrLba - 1 by omega),
    show slba + rw.nrLba - 1 - zoneStart c zid = slba - zoneStart c zid + rw.nrLba - 1 by omega] at hj
  rw [hpending, hj]
  exact writeFlashPages_completed hf hzid (by omega) (by omega) (by omega) b

/-- **A write** keeps the law. -/
theorem BufferLaw.write {append : Bool} (hf : Fits c) (h : BufferLaw c s)
    (hzid : lbaToZone c rw.slba.toNat < c.zp.nrZones) (hstops : WriteStops c s rw)
    (hsuccess : ∀ ret ∈ o.ret, ret.status = .success) (ho : znsWrite c s sqid start append rw = .ok o) :
    BufferLaw c o.ftl := by
  obtain ⟨log, hlaw⟩ := h.law
  have hlaw' : ∃ log, RunLaw c ⟨o.ftl, log⟩ := ⟨_, hlaw.write hf.cap hzid ho⟩
  have hz : ZoneLaw c _ (s.zoneDescs _) (log _) := hlaw.zones _ hzid
  have hcounted : ZonesCounted c s := hlaw.counted
  unfold znsWrite at ho
  dsimp only at ho
  rw [lpnToZone_lbaToLpn, if_pos hz.zrwav] at ho
  have hbytes := rw.lbaToByte_eq
  have hpos := rw.nrLba_pos
  have hnr := rw.nrLba_le
  have hcases := znsWriteSeq_cases (hcounted.room hzid) ho
  rcases znsWriteSeq_buffers ho hsuccess with ⟨hret, hbufs⟩ | ⟨hret, hbufs⟩
  · -- the write is tried again
    rcases hcases with ⟨-, hsame⟩ | ⟨ret, hret', -⟩ | ⟨ret, hret', -⟩
    · exact h.same hlaw' hsame.descs hbufs
    · rw [hret] at hret'
      cases hret'
    · rw [hret] at hret'
      cases hret'
  rcases hcases with ⟨hnone, -⟩ | ⟨ret, hret', hst, -⟩ | ⟨ret, hret', -, -, hadm, hmove, -⟩
  · rw [hnone] at hret
    cases hret
  · exact absurd (hsuccess ret (by rw [hret']; rfl)) hst
  unfold WriteStops at hstops
  dsimp only at hstops
  rw [hbytes] at hstops
  have hspace := hbufs.space
  have hbuffers := hbufs.buffers
  generalize writeSlba c s append rw = slba at hadm hbufs
  generalize lbaToZone c rw.slba.toNat = zid at *
  have hwritten := hz.written_bytes hf hzid hadm hpos hnr (hstops hspace)
  have hle := hz.admitted_le hf.cap hzid hadm hpos hnr
  have hge := hz.wpGe
  rw [← hadm.wp, hz.zslba] at hge
  refine ⟨hlaw', fun i hi => ?_, fun i hi => ?_⟩
  · rw [hbuffers]
    by_cases hi' : zoneBuffer c i = zoneBuffer c zid
    · rw [hi', update_self]
      exact hi' ▸ h.size_lt i hi
    · rw [update_of_ne hi']
      exact h.size_lt i hi
  · have hheld := heldBytes_update hzid hmove.descs (zoneBuffer c i)
    have hbalance := h.balance i hi
    have hdue := hbufs.due hf hzid hge (by omega) (zoneBuffer c i)
    rw [hbuffers]
    by_cases hi' : zoneBuffer c i = zoneBuffer c zid
    · rw [hi'] at hheld hbalance hdue ⊢
      rw [if_pos rfl, if_pos rfl] at hheld hdue
      rw [update_self]
      dsimp only
      omega
    · rw [if_neg (Ne.symm hi'), if_neg (Ne.symm hi')] at hheld hdue
      rw [update_of_ne hi']
      omega

/-! ## Management -/

/-- Only a finish makes a zone full. -/
theorem zmgmtSend_full {action : BitVec 8} {option : Bool} {r : ZnsStatus × ZnsFtl}
    (haddr : lbaToZone c slba = zid) (hzrwa : (s.zoneDescs zid).zrwav = false)
    (hopt : action = ZSA_OPEN_ZONE → option = false)
    (hfinish : action ≠ ZSA_FINISH_ZONE) (hreset : action ≠ ZSA_RESET_ZONE)
    (hsend : zmgmtSend c s slba action option = .ok r) (hfull : (r.2.zoneDescs zid).state = .full) :
    (s.zoneDescs zid).state = .full := by
  have hopened (s' : ZnsFtl) (hdescs : s'.zoneDescs zid = s.zoneDescs zid)
      (hfull : ((openClosedZone s' zid).2.zoneDescs zid).state = .full) : (s.zoneDescs zid).state = .full := by
    rcases openClosedZone_descs hdescs with hr | hr
    · rwa [hr] at hfull
    · rw [hr] at hfull
      cases hfull
  unfold zmgmtSend at hsend
  dsimp only at hsend
  rw [haddr, if_neg hfinish, if_neg hreset] at hsend
  split_ifs at hsend with hclose hopen hoffline hflush
  · cases hsend
    unfold zmgmtSendCloseZone at hfull
    cases hz : (s.zoneDescs zid).state with
    | openedImpl | openedExpl =>
      rw [hz] at hfull
      change (update s.zoneDescs zid _ zid).state = _ at hfull
      rw [update_self] at hfull
      cases hfull
    | full => rfl
    | _ =>
      rw [hz] at hfull
      exact hz.symm.trans hfull
  · cases hsend
    rw [hopt hopen] at hfull
    unfold zmgmtSendOpenZone at hfull
    cases hz : (s.zoneDescs zid).state with
    | full => rfl
    | empty =>
      rw [hz] at hfull
      simp only [Bool.false_eq_true, if_false] at hfull
      split_ifs at hfull
      · exact hz.symm.trans hfull
      · exact hz.symm.trans hfull
      · exact hz.symm.trans (hopened _ (congrFun (acquire_zoneDescs s .activeZone) zid) hfull)
    | closed =>
      rw [hz] at hfull
      exact hz.symm.trans (hopened s rfl hfull)
    | openedImpl =>
      rw [hz] at hfull
      dsimp only at hfull
      rw [ZnsFtl.changeZoneState_zoneDescs, update_self] at hfull
      cases hfull
    | _ =>
      rw [hz] at hfull
      exact hz.symm.trans hfull
  · cases hsend
    unfold zmgmtSendOfflineZone at hfull
    cases hz : (s.zoneDescs zid).state with
    | full => rfl
    | readOnly =>
      rw [hz] at hfull
      dsimp only at hfull
      rw [ZnsFtl.changeZoneState_zoneDescs, update_self] at hfull
      cases hfull
    | _ =>
      rw [hz] at hfull
      exact hz.symm.trans hfull
  · rcases flushExplicitZrwa_cases hsend haddr with hr | ⟨hflush, -⟩
    · rwa [hr] at hfull
    · have hzrwa' := hflush.zrwa
      rw [ZoneDescriptor.hasZrwa, hzrwa, Bool.and_false] at hzrwa'
      cases hzrwa'
  · cases hsend
    exact hfull

/-- A management command that abandons nothing keeps what a zone holds. -/
theorem ZoneLaw.send_bytes {log log' : List ZoneWrite} {action : BitVec 8} {option : Bool}
    (h : ZoneLaw c zid z log) (h' : ZoneLaw c zid z' log') (hm : z.Managed action option z')
    (hopt : action = ZSA_OPEN_ZONE → option = false)
    (hstops : action = ZSA_FINISH_ZONE ∨ action = ZSA_RESET_ZONE → incompleteBytes c z = 0)
    (hfull : action ≠ ZSA_FINISH_ZONE → action ≠ ZSA_RESET_ZONE → z'.state = .full → z.state = .full) :
    incompleteBytes c z' = incompleteBytes c z := by
  rcases hm with ⟨hreset, rfl⟩ | ⟨hreset, hm⟩
  · rw [hstops (.inr hreset.1)]
    rfl
  have hopen : (decide (action = ZSA_OPEN_ZONE) && option) = false := by
    by_cases ha : action = ZSA_OPEN_ZONE
    · rw [hopt ha, Bool.and_false]
    · rw [decide_eq_false ha, Bool.false_and]
  rw [hopen] at hm
  cases hm with
  | keep => rfl
  | close hz =>
    have hz : z.state ≠ .full := by
      intro hz'
      rcases (isOpen_eq z).1 hz with ho | ho <;> rw [ho] at hz' <;> cases hz'
    rw [h.incompleteBytes_eq hz, h'.incompleteBytes_eq (by simp)]
  | finish =>
    rw [incompleteBytes, if_pos (.inr rfl)]
    by_cases ha : action = ZSA_FINISH_ZONE ∨ action = ZSA_RESET_ZONE
    · exact (hstops ha).symm
    · rw [not_or] at ha
      rw [incompleteBytes, if_pos (.inr (hfull ha.1 ha.2 rfl))]
  | opened hz =>
    have hz : z.state ≠ .full := by
      rintro hz'
      rcases hz with hz | hz
      · rw [hz'] at hz
        cases hz
      · simp [ZoneDescriptor.isActive, ZoneDescriptor.isOpen, hz'] at hz
    rw [h.incompleteBytes_eq hz, h'.incompleteBytes_eq (by simp)]
  | openedZrwa hz => cases hz
  | offline hz => exact absurd hz h.readable.1
  | flush wp state hz =>
    rw [h.zrwav] at hz
    cases hz

/-- **A management command** keeps the law. -/
theorem BufferLaw.send {action : BitVec 8} {option : Bool} {r : ZnsStatus × ZnsFtl} (h : BufferLaw c s)
    (hzid : lbaToZone c slba < c.zp.nrZones) (hopt : action = ZSA_OPEN_ZONE → option = false)
    (hstops : SendStops c s action slba) (hsend : zmgmtSend c s slba action option = .ok r) : BufferLaw c r.2 := by
  obtain ⟨log, hlaw⟩ := h.law
  have hlaw' := (hlaw.send hzid hopt hsend).1
  obtain ⟨z, hz, hmove⟩ := zmgmtSend_move (hlaw.counted.room hzid) hsend
  have hself : r.2.zoneDescs (lbaToZone c slba) = z := by rw [hmove.descs, update_self]
  have hzone := hlaw'.zones _ hzid
  dsimp only at hzone
  rw [hself] at hzone
  have hbytes := (hlaw.zones _ hzid).send_bytes hzone hz hopt hstops fun hfinish hreset hfull =>
    zmgmtSend_full rfl (hlaw.zones _ hzid).zrwav hopt hfinish hreset hsend (hself ▸ hfull)
  have hspace := zmgmtSend_buffers hsend
  exact h.move ⟨_, hlaw'⟩ hzid hmove.descs hbytes
    (fun i => hspace.2 _ (by simp [zoneBuffer]; split_ifs <;> simp)) hspace.1

/-- The calls of `__zmgmt_send` keep the law. -/
theorem BufferLaw.calls {action : BitVec 8} {option : Bool} {slbas : List ℕ} (h : BufferLaw c s)
    (hopt : action = ZSA_OPEN_ZONE → option = false) (haddr : ∀ slba ∈ slbas, lbaToZone c slba < c.zp.nrZones)
    (hstops : (zmgmtCalls c action option).Along (fun s slba => SendStops c s action slba) s slbas) :
    Yields (BufferLaw c) ((zmgmtCalls c action option).run s slbas) := by
  refine Machine.run_sat ?_ h ((Machine.along_of_forall haddr).and hstops)
  rintro s slba h ⟨hzid, hstops⟩
  cases hsend : zmgmtSend c s slba action option with
  | error f => simp [zmgmtCalls, hsend, Except.map]
  | ok r =>
    simp only [zmgmtCalls, hsend, Except.map, sat_ok]
    exact h.send hzid hopt hstops hsend

/-! ## Runs -/

theorem bufferLaw_init (hf : Fits c) (clock storage : ℕ → ℕ) : BufferLaw c (znsInitFtl c clock storage) where
  law := ⟨fun _ => [], zonesCounted_init c clock storage, fun zid hzid => zoneLaw_init hf.cap hzid, rfl⟩
  size_lt zid _ := by
    unfold zoneBuffer
    split_ifs
    · exact hf.zoneBuffer
    · exact hf.ssdBuffer
  balance zid _ := by
    have hzero (i : ℕ) : incompleteBytes c ((znsInitFtl c clock storage).zoneDescs i) = 0 := if_pos (.inl rfl)
    have hheld : heldBytes c (znsInitFtl c clock storage) (zoneBuffer c zid) = 0 :=
      Finset.sum_eq_zero fun i _ => by rw [hzero, ite_self]
    rw [hheld]
    unfold zoneBuffer
    split_ifs <;> rfl

theorem BufferLaw.fire (h : BufferLaw c s) (i : ℕ) : BufferLaw c (s.fire i) := by
  obtain ⟨log, hlaw⟩ := h.law
  have hlaw' : RunLaw c ⟨s.fire i, log⟩ := hlaw.same (s.fire_same i)
  have hsize (zid : ℕ) : ((s.fire i).buffers (zoneBuffer c zid)).size = (s.buffers (zoneBuffer c zid)).size := by
    unfold ZnsFtl.fire
    cases s.pending[i]? with
    | none => rfl
    | some op =>
      dsimp only [ZnsFtl.setBuffer]
      by_cases hb : zoneBuffer c zid = op.writeBuffer
      · rw [hb, update_self]
        rfl
      · rw [update_of_ne hb]
  refine ⟨⟨log, hlaw'⟩, fun zid hzid => (hsize zid).symm ▸ h.size_lt zid hzid, fun zid hzid => ?_⟩
  have hlt := h.size_lt zid hzid
  have hbalance := h.balance zid hzid
  rw [hsize, heldBytes_congr (s.fire_same i).descs, ← hbalance]
  unfold ZnsFtl.fire
  cases hop : s.pending[i]? with
  | none => rfl
  | some op =>
    have hdue := dueTo_eraseIdx (zoneBuffer c zid) hop
    dsimp only [ZnsFtl.setBuffer]
    by_cases hb : op.writeBuffer = zoneBuffer c zid
    · rw [if_pos hb] at hdue
      rw [hb, update_self, bufferRelease]
      dsimp only
      rw [u64, Nat.mod_eq_of_lt (by omega)]
      omega
    · rw [if_neg hb, Nat.zero_add] at hdue
      rw [update_of_ne (Ne.symm hb), ← hdue]

theorem BufferLaw.timing (h : BufferLaw c s) (timing : Timing) : BufferLaw c { s with timing } :=
  ⟨h.law.imp fun _ hlaw => hlaw.same (.timing s timing), h.size_lt, h.balance⟩

/-- **An event** keeps the law. -/
theorem BufferLaw.step {e : ZnsEvent} (hf : Fits c) (h : BufferLaw c s) (hseq : e.Sequential c)
    (hsuccess : e.Succeeds c s) (hstops : e.Stops c s) : Yields (BufferLaw c) ((znsMachine c).step s e) := by
  cases e with
  | fire i => exact h.fire i
  | command req =>
    obtain ⟨cmd, sqid, start⟩ := req
    show Yields _ ((znsProcNvmeIoCmd c s ⟨cmd, sqid, start⟩).map ZnsOutcome.ftl)
    unfold znsProcNvmeIoCmd
    dsimp only
    cases cmd with
    | write rw =>
      refine Sat.map_ok (yields_iff.2 fun o ho => ?_) fun _ => id
      exact h.write hf hseq hstops (Sat.of_ok hsuccess ho) ho
    | append rw =>
      refine Sat.map_ok (yields_iff.2 fun o ho => ?_) fun _ => id
      exact h.write hf hseq hstops (Sat.of_ok hsuccess ho) ho
    | read rw => exact h.timing _
    | flush => exact h.timing _
    | other opcode => exact h
    | mgmtSend cmd =>
      have hrun := h.calls hseq.2 (ZmgmtSendCommand.slbas_addressed hseq.1) hstops
      rw [← znsZmgmtSend_calls] at hrun
      dsimp only
      cases hsend : znsZmgmtSend c s cmd with
      | error f => trivial
      | ok r =>
        rw [hsend] at hrun
        exact hrun

theorem ssdInitParams_writeBufferSize {m : SsdConfig} {sp : SsdParams} (h : ssdInitParams m capacity 1 = .ok sp) :
    sp.writeBufferSize = m.globalWbSize := by
  unfold ssdInitParams at h
  dsimp only at h
  obtain ⟨-, -, h⟩ := bind_eq_ok h
  obtain ⟨-, -, h⟩ := bind_eq_ok h
  obtain ⟨-, -, h⟩ := bind_eq_ok h
  obtain ⟨-, -, h⟩ := bind_eq_ok h
  cases h
  rfl

theorem Shipped.fits (hm : Shipped m) (hinit : m.Inits capacity c) (hcap : capacity < 2 ^ 41) : Fits c := by
  obtain ⟨-, -, -, hpgs, -⟩ := ssdInitParams_fixed hinit.sp
  have hbuffer := ssdInitParams_writeBufferSize hinit.sp
  constructor
  · have hzones : c.zp.nrZones = capacity / m.zoneSize := by
      rw [hinit.zp]
      exact Nat.mod_eq_of_lt hinit.fits
    have hsize : c.zp.zoneSize = m.zoneSize := by rw [hinit.zp]; rfl
    rw [hzones, hsize]
    exact (Nat.div_mul_le_self _ _).trans_lt hcap
  · rcases hm with rfl | rfl <;> rw [hpgs] <;> decide
  · rcases hm with rfl | rfl <;> rw [hpgs] <;> decide
  · rw [show c.zp.zoneWbSize = m.zoneWbSize by rw [hinit.zp]; rfl]
    rcases hm with rfl | rfl <;> decide
  · rw [hbuffer]
    rcases hm with rfl | rfl <;> decide

/-- **The write buffers are conserved** in every run of a shipped device in which no write
    stops inside a last page, and no zone is finished or reset inside a wordline. -/
theorem zone_buffers_conserved (hm : Shipped m) (hinit : m.Inits capacity c) (hcap : capacity < 2 ^ 41)
    (hseq : ∀ e ∈ es, e.Sequential c)
    (hsuccess : (znsMachine c).Along (fun s e => e.Succeeds c s) (znsInitFtl c clock storage) es)
    (hstops : (znsMachine c).Along (fun s e => e.Stops c s) (znsInitFtl c clock storage) es)
    (hrun : (znsMachine c).run (znsInitFtl c clock storage) es = .ok s) : BuffersConserved c s := by
  have hf := hm.fits hinit hcap
  have hlaw : Yields (BufferLaw c) ((znsMachine c).run (znsInitFtl c clock storage) es) :=
    Machine.run_sat (fun s e h hC => h.step hf hC.1.1 hC.1.2 hC.2) (bufferLaw_init hf clock storage)
      (((Machine.along_of_forall hseq).and hsuccess).and hstops)
  exact (hlaw.of_ok hrun).conserved

/-- An append of `n + 1` blocks to the first zone. -/
def appendFirst (n : BitVec 16) : ZnsEvent := .command ⟨.append ⟨0, n, 0⟩, 1, 0⟩

/-- A management command for the first zone. -/
def sendFirst (zsa : BitVec 8) : ZnsEvent := .command ⟨.mgmtSend ⟨0, zsa, false, false⟩, 1, 0⟩

/-- A wordline and three blocks are written, the wordline is given back, and the zone is
    closed, filled up to the next wordline and finished. -/
def wordlineRun : List ZnsEvent :=
  [appendFirst 191, appendFirst 2, .fire 0, sendFirst ZSA_CLOSE_ZONE, appendFirst 188, .fire 0,
    sendFirst ZSA_FINISH_ZONE]

theorem firstZone_sequential {es : List ZnsEvent}
    (h : ∀ e ∈ es, (∃ n, e = appendFirst n) ∨ (∃ zsa, e = sendFirst zsa) ∨ ∃ i, e = .fire i) :
    ∀ e ∈ es, e.Sequential zn540 := by
  intro e he
  have hzone : lbaToZone zn540 0 < 2 := by decide
  rcases h e he with ⟨n, rfl⟩ | ⟨zsa, rfl⟩ | ⟨i, rfl⟩
  · exact hzone
  · exact ⟨.inr hzone, fun _ => rfl⟩
  · trivial

theorem zone_buffers_conserved_wordlineRun :
    ∃ s, (znsMachine zn540).run (znsInitFtl zn540 (fun _ => 0) fun _ => 0) wordlineRun = .ok s ∧
      (s.zoneDescs 0).state = .full ∧ BuffersConserved zn540 s := by
  obtain ⟨s, hrun, hstate⟩ := exists_ok_of_map (f := fun s : ZnsFtl => (s.zoneDescs 0).state)
    (show ((znsMachine zn540).run (znsInitFtl zn540 (fun _ => 0) fun _ => 0) wordlineRun).map
      (fun s => (s.zoneDescs 0).state) = .ok .full by decide +kernel)
  refine ⟨s, hrun, hstate, zone_buffers_conserved (.inl rfl) wdZn540_inits (by decide) ?_ ?_ ?_ hrun⟩
  · exact firstZone_sequential (by simp [wordlineRun, appendFirst, sendFirst])
  · exact show Machine.Along _ _ (znsInitFtl zn540 (fun _ => 0) fun _ => 0) wordlineRun by decide +kernel
  · exact show Machine.Along _ _ (znsInitFtl zn540 (fun _ => 0) fun _ => 0) wordlineRun by decide +kernel

/-- Eight blocks are written, and the zone is reset. -/
def pageReset : List ZnsEvent := [appendFirst 7, sendFirst ZSA_RESET_ZONE]

/-- The write stops one block into the last page of a wordline, and its release is performed. -/
def lastPageWrite : List ZnsEvent := [appendFirst 184, .fire 0]

/-- The reset zone holds a page of its buffer for good; the wordline is given back before
    its last page is written, and the buffer has more left than it is large. -/
theorem zone_buffers_not_conserved :
    wdZn540.Inits (2 ^ 32) zn540 ∧ (∀ e ∈ pageReset ++ lastPageWrite, e.Sequential zn540) ∧
      (znsMachine zn540).Along (fun s e => e.Succeeds zn540 s) (znsInitFtl zn540 (fun _ => 0) fun _ => 0) pageReset ∧
      (znsMachine zn540).Along (fun s e => e.Succeeds zn540 s) (znsInitFtl zn540 (fun _ => 0) fun _ => 0)
        lastPageWrite ∧
      (∃ s, (znsMachine zn540).run (znsInitFtl zn540 (fun _ => 0) fun _ => 0) pageReset = .ok s ∧
        s.pending = [] ∧ (s.zoneDescs 0).state = .empty ∧
          (s.buffers (zoneBuffer zn540 0)).remaining + 4096 = (s.buffers (zoneBuffer zn540 0)).size ∧
            ¬ BuffersConserved zn540 s) ∧
      ∃ s, (znsMachine zn540).run (znsInitFtl zn540 (fun _ => 0) fun _ => 0) lastPageWrite = .ok s ∧
        (s.buffers (zoneBuffer zn540 0)).size < (s.buffers (zoneBuffer zn540 0)).remaining ∧
          ¬ BuffersConserved zn540 s := by
  have hreset : ((znsMachine zn540).run (znsInitFtl zn540 (fun _ => 0) fun _ => 0) pageReset).map
      (fun s => (s.pending, (s.zoneDescs 0).state, s.buffers (.zone 0))) = .ok ([], .empty, ⟨983040, 978944⟩) := by
    decide +kernel
  have hwrite : ((znsMachine zn540).run (znsInitFtl zn540 (fun _ => 0) fun _ => 0) lastPageWrite).map
      (fun s => s.buffers (.zone 0)) = .ok ⟨983040, 986624⟩ := by decide +kernel
  obtain ⟨s, hrun, hs⟩ := exists_ok_of_map hreset
  obtain ⟨t, hrun', ht⟩ := exists_ok_of_map hwrite
  rw [Prod.mk.injEq, Prod.mk.injEq] at hs
  obtain ⟨hpending, hstate, hbuf⟩ := hs
  have hzone : zoneBuffer zn540 0 = .zone 0 := rfl
  refine ⟨wdZn540_inits, firstZone_sequential (by simp [pageReset, lastPageWrite, appendFirst, sendFirst]),
    by decide +kernel, by decide +kernel, ⟨s, hrun, hpending, hstate, ?_, fun h => ?_⟩, t, hrun', ?_, fun h => ?_⟩
  · rw [hzone, hbuf]
  · have hidle := h.idle 0 (by decide) (by decide) (by rw [hpending]; rfl) (.inl hstate)
    rw [hzone, hbuf] at hidle
    cases hidle
  · rw [hzone, ht]
    decide
  · have hle := h.le 0 (by decide)
    rw [hzone, ht] at hle
    exact absurd hle (by decide)

end WaitGc

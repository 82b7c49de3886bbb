/-
  WAITGC verification — the NAND reads of `conv_read`.

  `convReadIssued` lists the commands `conv_read` issues, and `convRead_replays` says
  that they are what it does to the clocks.  The loop over the pages of a partition
  keeps what it issued and the pending read equal to the mapped pages it passed, flash
  page by flash page (`PartInv`), so the commands transfer each mapped page of the
  request once (`read_aggregation`).

  The partitions each take every `nr_parts`-th page, and their pages together are those
  of the request (`lpnRange_perm`).
-/
import WaitGc.Ftl.ReadLog
import WaitGc.Proof.Devices
import WaitGc.Proof.System

namespace WaitGc

open Traverse

variable {c : Cfg} {s : ConvFtl} {d : Dev} {part stime : ℕ} {r : ReadState} {log : List IssuedRead}

/-! ## Flash pages -/

theorem isSameFlashPage_iff (p q : Ppa) :
    isSameFlashPage c.sp p q = true ↔ p.flashPg c.sp = q.flashPg c.sp := by
  simp [isSameFlashPage, Ppa.flashPg]

/-- The bytes of the commands of a partition in a flash page. -/
def readBytes (sp : SsdParams) (part : ℕ) (k : BitVec 40 × ℕ) (log : List IssuedRead) : ℕ :=
  ((log.filter fun x => x.part = part ∧ x.ncmd.ppa.flashPg sp = k).map (·.ncmd.xferSize)).sum

@[simp] theorem readBytes_nil (sp : SsdParams) (k : BitVec 40 × ℕ) : readBytes sp part k [] = 0 := rfl

theorem readBytes_append (sp : SsdParams) (k : BitVec 40 × ℕ) (log log' : List IssuedRead) :
    readBytes sp part k (log ++ log') = readBytes sp part k log + readBytes sp part k log' := by
  rw [readBytes, List.filter_append, List.map_append, List.sum_append, readBytes, readBytes]

theorem readBytes_singleton (sp : SsdParams) (k : BitVec 40 × ℕ) (x : IssuedRead) :
    readBytes sp part k [x] = if x.part = part ∧ x.ncmd.ppa.flashPg sp = k then x.ncmd.xferSize else 0 := by
  rw [readBytes]
  by_cases h : x.part = part ∧ x.ncmd.ppa.flashPg sp = k <;> simp [h]

theorem xferSize_le_readBytes {sp : SsdParams} {x : IssuedRead} (h : x ∈ log) :
    x.ncmd.xferSize ≤ readBytes sp x.part (x.ncmd.ppa.flashPg sp) log := by
  refine List.single_le_sum (fun _ _ => Nat.zero_le _) _ (List.mem_map_of_mem ?_)
  exact List.mem_filter.2 ⟨h, by simp⟩

/-! ## One partition -/

/-- The page `lpn` is read from the flash page `k` of its partition. -/
def ReadsFrom (c : Cfg) (d : Dev) (k : BitVec 40 × ℕ) (lpn : ℕ) : Prop :=
  let p := (d.ftls (lpn % c.nrParts)).maptbl (lpn / c.nrParts)
  (mappedPpa p = true ∧ validPpa c.sp p = true) ∧ p.flashPg c.sp = k

instance (k : BitVec 40 × ℕ) (lpn : ℕ) : Decidable (ReadsFrom c d k lpn) :=
  inferInstanceAs (Decidable (_ ∧ _))

/-- What `conv_read` knows after the pages `pre` of a partition: the commands it issued and
    the pending read are the pages it passed. -/
structure PartInv (c : Cfg) (d : Dev) (part : ℕ) (pre : List ℕ) (r : ReadState)
    (log : List IssuedRead) : Prop where
  bytes : ∀ k, readBytes c.sp part k log + (if r.prevPpa.flashPg c.sp = k then r.xferSize else 0)
    = c.sp.pgsz * pre.countP fun lpn => ReadsFrom c d k lpn
  part_eq : ∀ x ∈ log, x.part = part
  pos : ∀ x ∈ log, 0 < x.ncmd.xferSize

theorem PartInv.issue {pre : List ℕ} (h : PartInv c d part pre r log) (stime : ℕ) :
    PartInv c d part pre { readIssue c part stime r with xferSize := 0 }
        (log ++ readIssued c part stime r) ∧
      ∀ k, readBytes c.sp part k (log ++ readIssued c part stime r)
        = c.sp.pgsz * pre.countP fun lpn => ReadsFrom c d k lpn := by
  have hbytes (k : BitVec 40 × ℕ) : readBytes c.sp part k (log ++ readIssued c part stime r)
      = c.sp.pgsz * pre.countP fun lpn => ReadsFrom c d k lpn := by
    rw [← h.bytes k, readBytes_append]
    refine congrArg _ ?_
    unfold readIssued
    by_cases hx : 0 < r.xferSize
    · rw [if_pos hx, readBytes_singleton]
      simp
    · rw [if_neg hx]
      simp [Nat.eq_zero_of_not_pos hx]
  refine ⟨⟨fun k => ?_, ?_, ?_⟩, hbytes⟩
  · rw [hbytes k]
    simp
  · intro x hx
    rcases List.mem_append.1 hx with hx | hx
    · exact h.part_eq x hx
    · unfold readIssued at hx
      split_ifs at hx
      · rw [List.mem_singleton.1 hx]
      · exact absurd hx List.not_mem_nil
  · intro x hx
    rcases List.mem_append.1 hx with hx | hx
    · exact h.pos x hx
    · unfold readIssued at hx
      split_ifs at hx with hpos
      · rw [List.mem_singleton.1 hx]
        exact hpos
      · exact absurd hx List.not_mem_nil

/-- **One page of the loop.** -/
theorem PartInv.step {lpn : ℕ} {pre : List ℕ} (h : PartInv c d part pre r log)
    (hlpn : lpn % c.nrParts = part) :
    PartInv c d part (pre ++ [lpn]) (readLpn c (d.ftls part) part stime r lpn)
      (log ++ readLpnIssued c (d.ftls part) part stime r lpn) := by
  have hcount (k : BitVec 40 × ℕ) : (pre ++ [lpn]).countP (fun lpn => ReadsFrom c d k lpn)
      = pre.countP (fun lpn => ReadsFrom c d k lpn) + if ReadsFrom c d k lpn then 1 else 0 := by
    rw [List.countP_append, List.countP_singleton]
    simp
  generalize hp : (d.ftls part).maptbl (lpn / c.nrParts) = p
  have hreads (k : BitVec 40 × ℕ) : ReadsFrom c d k lpn ↔
      (mappedPpa p = true ∧ validPpa c.sp p = true) ∧ p.flashPg c.sp = k := by
    rw [ReadsFrom, hlpn, hp]
  unfold readLpn readLpnIssued
  dsimp only
  rw [hp]
  by_cases hskip : (!mappedPpa p || !validPpa c.sp p) = true
  · -- a hole
    rw [if_pos hskip, if_pos hskip, List.append_nil]
    have hno (k : BitVec 40 × ℕ) : ¬ ReadsFrom c d k lpn := by
      rw [hreads]
      rintro ⟨⟨hm, hv⟩, -⟩
      simp [hm, hv] at hskip
    refine ⟨fun k => ?_, h.part_eq, h.pos⟩
    rw [hcount, if_neg (hno k), Nat.add_zero]
    exact h.bytes k
  have hhit : mappedPpa p = true ∧ validPpa c.sp p = true := by simpa using hskip
  rw [if_neg hskip, if_neg hskip]
  by_cases hsame : (mappedPpa r.prevPpa && isSameFlashPage c.sp p r.prevPpa) = true
  · -- the page joins the pending read
    rw [if_pos hsame, if_pos hsame, List.append_nil]
    have hkey : p.flashPg c.sp = r.prevPpa.flashPg c.sp := by
      rw [Bool.and_eq_true, isSameFlashPage_iff] at hsame
      exact hsame.2
    refine ⟨fun k => ?_, h.part_eq, h.pos⟩
    have hk := h.bytes k
    rw [hcount, Nat.mul_add, ← hk]
    by_cases hkk : r.prevPpa.flashPg c.sp = k
    · rw [if_pos hkk, if_pos hkk, if_pos ((hreads k).2 ⟨hhit, hkey.trans hkk⟩), Nat.mul_one, Nat.add_assoc]
    · rw [if_neg hkk, if_neg hkk, if_neg fun hr => hkk (hkey ▸ ((hreads k).1 hr).2), Nat.mul_zero, Nat.add_zero]
  · -- the pending read is issued, and the page starts the next
    rw [if_neg hsame, if_neg hsame]
    obtain ⟨⟨-, hpart, hpos⟩, hbytes⟩ := h.issue stime
    refine ⟨fun k => ?_, hpart, hpos⟩
    rw [hcount, Nat.mul_add, hbytes k]
    refine congrArg _ ?_
    by_cases hk : p.flashPg c.sp = k
    · rw [if_pos hk, if_pos ((hreads k).2 ⟨hhit, hk⟩), Nat.mul_one]
    · rw [if_neg hk, if_neg fun hr => hk ((hreads k).1 hr).2, Nat.mul_zero]

/-- The pages of a partition, from `first` on. -/
def stride (n first last : ℕ) : List ℕ := List.range' first ((last - first) / n + 1) n

theorem mem_stride {n first last lpn : ℕ} (hn : 0 < n) (hle : first ≤ last) :
    lpn ∈ stride n first last ↔ first ≤ lpn ∧ lpn ≤ last ∧ lpn % n = first % n := by
  rw [stride, List.mem_range']
  constructor
  · rintro ⟨i, hi, rfl⟩
    have hmul := Nat.mul_le_mul_left n (Nat.le_of_lt_succ hi)
    have hdiv := Nat.mul_div_le (last - first) n
    exact ⟨Nat.le_add_right _ _, by omega, Nat.add_mul_mod_self_left _ _ _⟩
  · rintro ⟨h₁, h₂, h₃⟩
    obtain ⟨i, hi⟩ := Nat.dvd_of_mod_eq_zero (Nat.sub_mod_eq_zero_of_mod_eq h₃)
    refine ⟨i, Nat.lt_succ_of_le ((Nat.le_div_iff_mul_le hn).2 ?_), by omega⟩
    rw [Nat.mul_comm]
    omega

/-- **The loop over the pages of a partition.** -/
theorem readPart_inv (stime : ℕ) (r : ReadState) (first : ℕ) {last : ℕ} (hle : first ≤ last) :
    (∀ k, readBytes c.sp (first % c.nrParts) k (readPartIssued c d last stime r first)
        = c.sp.pgsz * (stride c.nrParts first last).countP fun lpn => ReadsFrom c d k lpn) ∧
      ∀ x ∈ readPartIssued c d last stime r first, x.part = first % c.nrParts ∧ 0 < x.ncmd.xferSize := by
  have hinit (p : Ppa) : PartInv c d (first % c.nrParts) [] { r with xferSize := 0, prevPpa := p } [] :=
    ⟨fun k => by simp, by simp, by simp⟩
  have hloop (r₀ : ReadState) (hr₀ : PartInv c d (first % c.nrParts) [] r₀ []) :
      PartInv c d (first % c.nrParts) (stride c.nrParts first last)
        ((stride c.nrParts first last).foldl
          (readLpn c (d.ftls (first % c.nrParts)) (first % c.nrParts) stime) r₀)
        (foldOut (readLpn c (d.ftls (first % c.nrParts)) (first % c.nrParts) stime)
          (readLpnIssued c (d.ftls (first % c.nrParts)) (first % c.nrParts) stime) r₀
          (stride c.nrParts first last)) := by
    refine fold_inv (PartInv c d (first % c.nrParts)) ?_ hr₀
    intro pre lpn post r' log hl hr'
    have hmem : lpn ∈ stride c.nrParts first last := by
      rw [hl]
      exact List.mem_append_right _ List.mem_cons_self
    exact hr'.step ((mem_stride c.nrParts_pos hle).1 hmem).2.2
  obtain ⟨hdone, hbytes⟩ := (hloop _ (hinit _)).issue stime
  exact ⟨hbytes, fun x hx => ⟨hdone.part_eq x hx, hdone.pos x hx⟩⟩

/-! ## The partitions together -/

theorem lpnRange_nodup (first last : ℕ) : (lpnRange first last).Nodup := List.nodup_range'

/-- **The pages of the request are those of its partitions.** -/
theorem lpnRange_perm {n first last : ℕ} (hn : 0 < n) :
    (((lpnRange first last).take n).flatMap fun f => stride n f last).Perm (lpnRange first last) := by
  have htake {f : ℕ} : f ∈ (lpnRange first last).take n ↔ first ≤ f ∧ f < first + n ∧ f ≤ last := by
    rw [lpnRange]
    rcases Nat.le_total (last + 1 - first) n with h | h
    · rw [List.take_range'_of_length_le h, List.mem_range'_1]
      omega
    · rw [List.take_range'_of_length_ge h, List.mem_range'_1]
      omega
  have hnodup : (((lpnRange first last).take n).flatMap fun f => stride n f last).Nodup := by
    refine nodup_flatMap_of_key (fun lpn => first + (lpn - first) % n) ?_ ?_ ?_
    · exact (lpnRange_nodup first last).sublist (List.take_sublist _ _)
    · exact fun f _ => List.nodup_range' n hn
    · intro f hf lpn hlpn
      obtain ⟨h₁, h₂, h₃⟩ := htake.1 hf
      obtain ⟨h₄, -, h₅⟩ := (mem_stride hn h₃).1 hlpn
      obtain ⟨i, hi⟩ := Nat.dvd_of_mod_eq_zero (Nat.sub_mod_eq_zero_of_mod_eq h₅)
      have hsub : lpn - first = f - first + n * i := by omega
      rw [hsub, Nat.add_mul_mod_self_left, Nat.mod_eq_of_lt (by omega)]
      omega
  rw [List.perm_ext_iff_of_nodup hnodup (lpnRange_nodup first last)]
  intro lpn
  rw [List.mem_flatMap, lpnRange, List.mem_range'_1]
  constructor
  · rintro ⟨f, hf, hlpn⟩
    obtain ⟨h₁, -, h₃⟩ := htake.1 hf
    have := (mem_stride hn h₃).1 hlpn
    omega
  · intro hlpn
    have hmod := Nat.mod_lt (lpn - first) hn
    have hmodle := Nat.mod_le (lpn - first) n
    refine ⟨first + (lpn - first) % n, htake.2 (by omega), (mem_stride hn (by omega)).2 ⟨by omega, by omega, ?_⟩⟩
    rw [Nat.add_mod_mod, Nat.add_sub_cancel' (by omega)]

/-- What `conv_read` issued for the partitions `pre`. -/
structure ReadInv (c : Cfg) (d : Dev) (last : ℕ) (pre : List ℕ) (log : List IssuedRead) : Prop where
  bytes : ∀ part k, readBytes c.sp part k log = c.sp.pgsz *
    (pre.flatMap fun f => stride c.nrParts f last).countP fun lpn => lpn % c.nrParts = part ∧ ReadsFrom c d k lpn
  pos : ∀ x ∈ log, x.part < c.nrParts ∧ 0 < x.ncmd.xferSize

/-- **One partition of the loop.** -/
theorem ReadInv.step {first last : ℕ} {pre : List ℕ} (h : ReadInv c d last pre log) (hle : first ≤ last)
    (r : ReadState) : ReadInv c d last (pre ++ [first]) (log ++ readPartIssued c d last stime r first) := by
  obtain ⟨hbytes, hall⟩ := readPart_inv (c := c) (d := d) stime r first hle
  refine ⟨fun part k => ?_, fun x hx => ?_⟩
  · have hmod : ∀ lpn ∈ stride c.nrParts first last, lpn % c.nrParts = first % c.nrParts :=
      fun lpn hlpn => ((mem_stride c.nrParts_pos hle).1 hlpn).2.2
    rw [readBytes_append, h.bytes, List.flatMap_append, List.countP_append, Nat.mul_add]
    refine congrArg _ ?_
    simp only [List.flatMap_cons, List.flatMap_nil, List.append_nil]
    by_cases hpart : first % c.nrParts = part
    · rw [← hpart, hbytes k]
      refine congrArg _ (List.countP_congr fun lpn hlpn => ?_)
      simp [hmod lpn hlpn]
    · -- the commands and the pages are those of another partition
      have hnone : ∀ lpn ∈ stride c.nrParts first last,
          ¬ (lpn % c.nrParts = part ∧ ReadsFrom c d k lpn) := by
        rintro lpn hlpn ⟨he, -⟩
        exact hpart ((hmod lpn hlpn).symm.trans he)
      rw [List.countP_eq_zero.2 (by simpa using hnone), Nat.mul_zero, readBytes, List.filter_eq_nil_iff.2]
      · rfl
      · intro x hx hcond
        exact hpart ((hall x hx).1.symm.trans (of_decide_eq_true hcond).1)
  · rcases List.mem_append.1 hx with hx | hx
    · exact h.pos x hx
    · exact ⟨(hall x hx).1 ▸ Nat.mod_lt _ c.nrParts_pos, (hall x hx).2⟩

/-! ## The table -/

/-- The mapping table of a partition names each page once, by a valid address. -/
structure TableOk (c : Cfg) (s : ConvFtl) : Prop where
  injective : ∀ lpn < c.sp.ttPgs, ∀ lpn' < c.sp.ttPgs, mappedPpa (s.maptbl lpn) = true →
    s.maptbl lpn = s.maptbl lpn' → lpn = lpn'
  address : ∀ lpn < c.sp.ttPgs, mappedPpa (s.maptbl lpn) = true → IsPage c (s.maptbl lpn)

theorem page_eq {p q : Ppa} (hp : IsPage c p) (hq : IsPage c q) (hk : p.flashPg c.sp = q.flashPg c.sp)
    (hpg : p.pg = q.pg) : p = q := by
  have hblk : p.blkInSsd = q.blkInSsd := congrArg Prod.fst hk
  obtain ⟨pg, blk, pl, lun, ch, rsv⟩ := p
  obtain ⟨pg', blk', pl', lun', ch', rsv'⟩ := q
  obtain rfl : pg = pg' := hpg
  obtain rfl : rsv = rsv' := hp.2.trans hq.2.symm
  dsimp only [Ppa.blkInSsd] at hblk
  have h₁ := congrArg (·.extractLsb' 0 16) hblk
  have h₂ := congrArg (·.extractLsb' 16 24) hblk
  simp only [BitVec.extractLsb'_append_eq_right, BitVec.extractLsb'_append_eq_left] at h₁ h₂
  have h₃ := congrArg (·.extractLsb' 0 8) h₂
  have h₄ := congrArg (·.extractLsb' 8 16) h₂
  simp only [BitVec.extractLsb'_append_eq_right, BitVec.extractLsb'_append_eq_left] at h₃ h₄
  have h₅ := congrArg (·.extractLsb' 0 8) h₄
  have h₆ := congrArg (·.extractLsb' 8 8) h₄
  simp only [BitVec.extractLsb'_append_eq_right, BitVec.extractLsb'_append_eq_left] at h₅ h₆
  rw [h₁, h₃, h₅, h₆]

/-- **No flash page holds more pages of a partition than it has.** -/
theorem countP_flashPg_le {lpns : List ℕ} {part : ℕ} (hnodup : lpns.Nodup)
    (hlt : ∀ lpn ∈ lpns, lpn / c.nrParts < c.sp.ttPgs) (htab : TableOk c (d.ftls part)) (k : BitVec 40 × ℕ) :
    (lpns.countP fun lpn => lpn % c.nrParts = part ∧ ReadsFrom c d k lpn) ≤ c.sp.pgsPerFlashpg := by
  let page (lpn : ℕ) : Ppa := (d.ftls part).maptbl (lpn / c.nrParts)
  rw [List.countP_eq_length_filter]
  generalize hl : (lpns.filter fun lpn => lpn % c.nrParts = part ∧ ReadsFrom c d k lpn) = l
  have hmem : ∀ lpn ∈ l, lpn / c.nrParts < c.sp.ttPgs ∧ lpn % c.nrParts = part ∧
      mappedPpa (page lpn) = true ∧ (page lpn).flashPg c.sp = k := by
    intro lpn hlpn
    rw [← hl, List.mem_filter] at hlpn
    obtain ⟨hin, hcond⟩ := hlpn
    obtain ⟨rfl, ⟨hmap, -⟩, hk⟩ := of_decide_eq_true hcond
    exact ⟨hlt lpn hin, rfl, hmap, hk⟩
  have hpos : 0 < c.sp.pgsPerFlashpg := by
    have hblk := c.geo.flashpgs_eq
    have hpg : 0 < c.geo.pgsPerBlk := by
      rw [c.geo.pgsPerBlk_eq]
      exact Nat.mul_pos c.geo.oneshotpgs_pos c.geo.oneshotpg_pos
    exact Nat.pos_of_ne_zero fun h0 => by simp [h0] at hblk; omega
  -- the numbers of the pages are distinct, and all in the range of the flash page
  have hnums : (l.map fun lpn => (page lpn).pg.toNat).Nodup := by
    refine List.Nodup.map_on ?_ (hl ▸ hnodup.filter _)
    intro lpn hlpn lpn' hlpn' he
    obtain ⟨h₁, h₂, h₃, h₄⟩ := hmem lpn hlpn
    obtain ⟨h₁', h₂', h₃', h₄'⟩ := hmem lpn' hlpn'
    have hpage := page_eq (htab.address _ h₁ h₃) (htab.address _ h₁' h₃')
      (h₄.trans h₄'.symm) (BitVec.eq_of_toNat_eq he)
    have hdiv := htab.injective _ h₁ _ h₁' h₃ hpage
    rw [← Nat.div_add_mod lpn c.nrParts, ← Nat.div_add_mod lpn' c.nrParts, hdiv, h₂, h₂']
  have hsub : (l.map fun lpn => (page lpn).pg.toNat) ⊆ List.range' (k.2 * c.sp.pgsPerFlashpg) c.sp.pgsPerFlashpg := by
    intro x hx
    obtain ⟨lpn, hlpn, rfl⟩ := List.mem_map.1 hx
    have hk : (page lpn).pg.toNat / c.sp.pgsPerFlashpg = k.2 := congrArg Prod.snd (hmem lpn hlpn).2.2.2
    rw [List.mem_range'_1, ← hk]
    exact ⟨Nat.div_mul_le_self _ _, by rw [← Nat.succ_mul]; exact Nat.lt_mul_of_div_lt (Nat.lt_succ_self _) hpos⟩
  have hlen := (hnums.subperm hsub).length_le
  rwa [List.length_map, List.length_range'] at hlen

/-! ## The result -/

/-- The blocks of the command are in the range of the FTL. -/
structure ReadInRange (c : Cfg) (rw : RwCommand) : Prop where
  blocks : rw.slba.toNat + rw.nrLba ≤ 2 ^ 64
  pages : (rw.slba.toNat + rw.nrLba - 1) / c.sp.secsPerPg / c.nrParts < c.sp.ttPgs

/-- The pages of the command. -/
def requestLpns (c : Cfg) (rw : RwCommand) : List ℕ :=
  lpnRange (rw.slba.toNat / c.sp.secsPerPg) ((rw.slba.toNat + rw.nrLba - 1) / c.sp.secsPerPg)

/-- The loop over the partitions. -/
theorem convReadIssued_inv {rw : RwCommand} (nsecsStart : ℕ)
    (hin : ¬ c.sp.ttPgs ≤ endLpn c.sp rw.slba rw.nrLba / c.nrParts) :
    ReadInv c d (endLpn c.sp rw.slba rw.nrLba)
      ((lpnRange (startLpn c.sp rw.slba) (endLpn c.sp rw.slba rw.nrLba)).take c.nrParts)
      (convReadIssued c d rw nsecsStart) := by
  unfold convReadIssued
  dsimp only
  rw [if_neg hin]
  refine fold_inv (fun pre _ log => ReadInv c d (endLpn c.sp rw.slba rw.nrLba) pre log) ?_
    ⟨fun part k => by simp, by simp⟩
  intro pre first post r log hl h
  have hmem : first ∈ (lpnRange (startLpn c.sp rw.slba) (endLpn c.sp rw.slba rw.nrLba)).take c.nrParts := by
    rw [hl]
    exact List.mem_append_right _ List.mem_cons_self
  have hle := List.mem_range'_1.1 (List.mem_of_mem_take hmem)
  exact h.step (by omega) r

/-- **Read aggregation loses and duplicates nothing.**  The reads that `conv_read` passes to
    the NAND transfer from each flash page of each partition the mapped pages of the
    request that are there, each read transfers at least something and at most a flash
    page, and the command does not complete before any of them. -/
theorem read_aggregation (d : Dev) (rw : RwCommand) (nsecsStart : ℕ) (hrange : ReadInRange c rw)
    (htab : ∀ part < c.nrParts, TableOk c (d.ftls part)) :
    ∃ ret timing, convRead c d rw nsecsStart = (some ret, { d with timing := timing }) ∧
      ret.status = .success ∧
      Replays c.sp d.timing (convReadIssued c d rw nsecsStart) timing ∧
      ret.nsecsTarget = latestOf nsecsStart (convReadIssued c d rw nsecsStart) ∧
      (∀ part < c.nrParts, ∀ k,
        readBytes c.sp part k (convReadIssued c d rw nsecsStart) = c.sp.pgsz *
          (requestLpns c rw).countP fun lpn => lpn % c.nrParts = part ∧
            mappedPpa ((d.ftls part).maptbl (lpn / c.nrParts)) = true ∧
            ((d.ftls part).maptbl (lpn / c.nrParts)).flashPg c.sp = k) ∧
      nsecsStart ≤ ret.nsecsTarget ∧
      ∀ x ∈ convReadIssued c d rw nsecsStart, x.part < c.nrParts ∧ 0 < x.ncmd.xferSize ∧
        x.ncmd.xferSize ≤ c.sp.pgsPerFlashpg * c.sp.pgsz ∧ x.nsecsCompleted ≤ ret.nsecsTarget := by
  have hend : endLpn c.sp rw.slba rw.nrLba = (rw.slba.toNat + rw.nrLba - 1) / c.sp.secsPerPg := by
    have hpos := rw.nrLba_pos
    have hlt := hrange.blocks
    rw [endLpn, u64, Nat.mod_eq_of_lt (by omega)]
  have hin : ¬ c.sp.ttPgs ≤ endLpn c.sp rw.slba rw.nrLba / c.nrParts := by
    rw [hend]
    exact Nat.not_le.2 hrange.pages
  have hinv := convReadIssued_inv (d := d) nsecsStart hin
  obtain ⟨timing, hreplays, hret⟩ := convRead_replays d nsecsStart hin
  have hlt : ∀ lpn ∈ requestLpns c rw, lpn / c.nrParts < c.sp.ttPgs := by
    intro lpn hlpn
    have hle := List.mem_range'_1.1 hlpn
    exact (Nat.div_le_div_right (by omega)).trans_lt hrange.pages
  -- the pages of the partitions are those of the request
  have hbytes (part : ℕ) (k : BitVec 40 × ℕ) : readBytes c.sp part k (convReadIssued c d rw nsecsStart) =
      c.sp.pgsz * (requestLpns c rw).countP fun lpn => lpn % c.nrParts = part ∧ ReadsFrom c d k lpn := by
    rw [hinv.bytes, (lpnRange_perm c.nrParts_pos).countP_eq, hend]
    rfl
  refine ⟨_, timing, hret, rfl, hreplays, rfl, fun part hpart k => ?_, le_latestOf _ _, fun x hx => ?_⟩
  · rw [hbytes]
    refine congrArg _ (List.countP_congr fun lpn hlpn => ?_)
    rw [decide_eq_true_iff, decide_eq_true_iff]
    constructor
    · rintro ⟨rfl, ⟨hmap, -⟩, hk⟩
      exact ⟨rfl, hmap, hk⟩
    · rintro ⟨rfl, hmap, hk⟩
      exact ⟨rfl, ⟨hmap, ((htab _ hpart).address _ (hlt lpn hlpn) hmap).1⟩, hk⟩
  · obtain ⟨hpart, hpos⟩ := hinv.pos x hx
    refine ⟨hpart, hpos, ?_, completed_le_latestOf hx⟩
    have hcount := countP_flashPg_le (lpnRange_nodup _ _) hlt (htab x.part hpart) (x.ncmd.ppa.flashPg c.sp)
    calc x.ncmd.xferSize ≤ readBytes c.sp x.part (x.ncmd.ppa.flashPg c.sp) (convReadIssued c d rw nsecsStart) :=
          xferSize_le_readBytes hx
      _ = c.sp.pgsz * (requestLpns c rw).countP fun lpn => lpn % c.nrParts = x.part ∧
            ReadsFrom c d (x.ncmd.ppa.flashPg c.sp) lpn := hbytes _ _
      _ ≤ c.sp.pgsz * c.sp.pgsPerFlashpg := Nat.mul_le_mul_left _ hcount
      _ = c.sp.pgsPerFlashpg * c.sp.pgsz := Nat.mul_comm _ _

/-- The pages 0 and 2 are mapped to one line, the others are holes. -/
def holesDev : Dev where
  ftls _ := { ConvFtl.initial tinyCfg 0 (fun _ => .null) with
    maptbl := fun lpn =>
      if lpn = 0 then .store 0 0 0 1 0 else if lpn = 2 then .store 0 0 0 1 1 else .unmapped }
  timing := .init tiny.toSsdParams fun _ => 0
  wbuf := bufferInit tiny.writeBufferSize
  pending := []

theorem holesDev_tableOk : TableOk tinyCfg (holesDev.ftls 0) := by
  have hmapped (lpn : ℕ) (h : mappedPpa ((holesDev.ftls 0).maptbl lpn) = true) : lpn = 0 ∨ lpn = 2 := by
    by_contra hne
    push Not at hne
    change mappedPpa (if lpn = 0 then _ else if lpn = 2 then _ else _) = true at h
    rw [if_neg hne.1, if_neg hne.2] at h
    exact absurd h (by decide)
  constructor
  · intro lpn _ lpn' _ h he
    have h' := hmapped lpn' (he ▸ h)
    rcases hmapped lpn h with rfl | rfl <;> rcases h' with rfl | rfl
    · rfl
    · exact absurd he (by decide)
    · exact absurd he (by decide)
    · rfl
  · intro lpn _ h
    rcases hmapped lpn h with rfl | rfl
    · exact ⟨by decide, by decide⟩
    · exact ⟨by decide, by decide⟩

theorem read_aggregation_holes :
    ∃ ret timing, convRead tinyCfg holesDev ⟨0, 31, 0⟩ 5 = (some ret, { holesDev with timing := timing }) ∧
      Replays tinyCfg.sp holesDev.timing (convReadIssued tinyCfg holesDev ⟨0, 31, 0⟩ 5) timing ∧
      readBytes tinyCfg.sp 0 ((1 : BitVec 40), 1) (convReadIssued tinyCfg holesDev ⟨0, 31, 0⟩ 5) = 4096 ∧
      5 ≤ ret.nsecsTarget := by
  have hrange : ReadInRange tinyCfg ⟨0, 31, 0⟩ := ⟨by decide, by decide⟩
  obtain ⟨ret, timing, hret, -, hreplays, -, hbytes, hstart, -⟩ :=
    read_aggregation holesDev ⟨0, 31, 0⟩ 5 hrange fun part hpart => by
      obtain rfl := Nat.lt_one_iff.1 hpart
      exact holesDev_tableOk
  refine ⟨ret, timing, hret, hreplays, ?_, hstart⟩
  rw [hbytes 0 Nat.one_pos]
  decide

end WaitGc

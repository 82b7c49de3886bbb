/-
  WAITGC verification — the order in which `do_gc` visits the victim.

  The loops over flash pages, channels and LUNs reach every page of the victim
  once.  When they are at the last flash page of a block, they visited all
  pages of that block, and no block is erased before.
-/
import WaitGc.Lib.Traverse
import WaitGc.Proof.GcFrame

namespace WaitGc

open Outcome Function Traverse

variable {c : Cfg} {v : ℕ} {q : Ppa} {k : ℕ × ℕ × ℕ} {pre post : List (ℕ × ℕ × ℕ)}

/-! ## Positions -/

theorem nodup_gcPositions : (gcPositions c).Nodup := by
  refine nodup_flatMap_of_key (fun k => k.1) List.nodup_range ?_ ?_
  · intro f _
    refine nodup_flatMap_of_key (fun k => k.2.1) List.nodup_range ?_ ?_
    · intro ch _
      refine List.nodup_range.map ?_
      intro lun lun' h
      exact congrArg (fun k : ℕ × ℕ × ℕ => k.2.2) h
    · intro ch _ k hk
      obtain ⟨lun, -, rfl⟩ := List.mem_map.1 hk
      rfl
  · intro f _ k hk
    obtain ⟨ch, -, hk⟩ := List.mem_flatMap.1 hk
    obtain ⟨lun, -, rfl⟩ := List.mem_map.1 hk
    rfl

theorem sorted_gcPositions : (gcPositions c).Pairwise fun a b => a.1 ≤ b.1 := by
  have hfst {f : ℕ} {k : ℕ × ℕ × ℕ} (hk : k ∈ (List.range c.sp.nchs).flatMap fun ch =>
      (List.range c.sp.lunsPerCh).map fun lun => (f, ch, lun)) : k.1 = f := by
    obtain ⟨ch, -, hk⟩ := List.mem_flatMap.1 hk
    obtain ⟨lun, -, rfl⟩ := List.mem_map.1 hk
    rfl
  rw [gcPositions, List.pairwise_flatMap]
  constructor
  · intro f _
    refine List.pairwise_of_forall_mem_list ?_
    intro a ha b hb
    rw [hfst ha, hfst hb]
  · refine List.pairwise_le_range.imp ?_
    intro f f' hle a ha b hb
    rw [hfst ha, hfst hb]
    exact hle

/-! ## Pages -/

/-- The pages of position `k` on line `v`. -/
def gcPages (c : Cfg) (v : ℕ) (k : ℕ × ℕ × ℕ) : List Ppa :=
  flashpgPages c (.store k.2.1 k.2.2 0 v (k.1 * c.sp.pgsPerFlashpg))

/-- The position of a page. -/
def gcKey (c : Cfg) (q : Ppa) : ℕ × ℕ × ℕ :=
  (q.pg.toNat / c.sp.pgsPerFlashpg, q.ch.toNat, q.lun.toNat)

theorem plusPg_store (ch lun blk pg i : ℕ) :
    (Ppa.store ch lun 0 blk pg).plusPg i = .store ch lun 0 blk (pg + i) := by
  simp only [Ppa.plusPg, Ppa.store, BitVec.ofNat_add]

theorem gcPages_eq (c : Cfg) (v : ℕ) (k : ℕ × ℕ × ℕ) :
    gcPages c v k = (List.range c.sp.pgsPerFlashpg).map fun i =>
      .store k.2.1 k.2.2 0 v (k.1 * c.sp.pgsPerFlashpg + i) := by
  unfold gcPages flashpgPages
  exact List.map_congr_left fun i _ => plusPg_store ..

theorem flashpg_lt {f i : ℕ} (hf : f < c.sp.flashpgsPerBlk) (hi : i < c.sp.pgsPerFlashpg) :
    f * c.sp.pgsPerFlashpg + i < c.geo.pgsPerBlk := by
  rw [← c.geo.flashpgs_eq]
  exact Radix.pair_lt hf hi

theorem mem_gcPages (hv : v < c.sp.blksPerPl) (hk : k ∈ gcPositions c) :
    q ∈ gcPages c v k ↔ IsPage c q ∧ q.line = v ∧ gcKey c q = k := by
  obtain ⟨f, ch, lun⟩ := k
  obtain ⟨hf, hch, hlun⟩ := mem_gcPositions.1 hk
  rw [gcPages_eq, List.mem_map]
  constructor
  · rintro ⟨i, hi, rfl⟩
    have hi := List.mem_range.1 hi
    have hin : c.geo.InLine ch lun (f * c.sp.pgsPerFlashpg + i) := ⟨hch, hlun, flashpg_lt hf hi⟩
    obtain ⟨h₁, h₂, -, h₄⟩ := store_fields hin hv
    obtain ⟨hp, hl, -⟩ := isPage_store hin hv
    refine ⟨hp, hl, ?_⟩
    dsimp only at h₁ h₂ h₄ ⊢
    rw [gcKey, h₁, h₂, h₄, Radix.pair_div hi]
  · rintro ⟨hp, rfl, he⟩
    simp only [gcKey, Prod.mk.injEq] at he
    obtain ⟨rfl, rfl, rfl⟩ := he
    refine ⟨q.pg.toNat % c.sp.pgsPerFlashpg,
      List.mem_range.2 (Nat.mod_lt _ flashpgsPerBlk_pos.2), ?_⟩
    dsimp only
    rw [Nat.div_add_mod']
    obtain ⟨h₁, h₂, h₃, h₄⟩ := store_fields hp.inLine hp.line_lt
    refine Ppa.ext' h₄ h₃ ?_ h₂ h₁ hp.2.symm
    rw [hp.pl_eq]
    rfl

theorem gcKey_mem (hq : IsPage c q) : gcKey c q ∈ gcPositions c := by
  refine mem_gcPositions.2 ⟨?_, hq.inLine.ch_lt, hq.inLine.lun_lt⟩
  refine Nat.div_lt_of_lt_mul ?_
  rw [Nat.mul_comm, c.geo.flashpgs_eq]
  exact hq.inLine.pg_lt

theorem nodup_gcPages (hv : v < c.sp.blksPerPl) (hk : k ∈ gcPositions c) :
    (gcPages c v k).Nodup := by
  obtain ⟨f, ch, lun⟩ := k
  obtain ⟨hf, hch, hlun⟩ := mem_gcPositions.1 hk
  rw [gcPages_eq]
  refine List.Nodup.map_on ?_ List.nodup_range
  intro i hi j hj he
  obtain ⟨-, -, -, h₁⟩ := store_fields ⟨hch, hlun, flashpg_lt hf (List.mem_range.1 hi)⟩ hv
  obtain ⟨-, -, -, h₂⟩ := store_fields ⟨hch, hlun, flashpg_lt hf (List.mem_range.1 hj)⟩ hv
  have h : f * c.sp.pgsPerFlashpg + i = f * c.sp.pgsPerFlashpg + j := by
    rw [← h₁, ← h₂]; exact congrArg (fun p : Ppa => p.pg.toNat) he
  exact Nat.add_left_cancel h

/-! ## All pages of the line -/

/-- The pages that `do_gc` visits, in order. -/
def allGcPages (c : Cfg) (v : ℕ) : List Ppa := (gcPositions c).flatMap (gcPages c v)

/-- **Every page of the line is visited.** -/
theorem mem_allGcPages (hv : v < c.sp.blksPerPl) :
    q ∈ allGcPages c v ↔ IsPage c q ∧ q.line = v := by
  rw [allGcPages, List.mem_flatMap]
  constructor
  · rintro ⟨k, hk, hq⟩
    obtain ⟨hp, hl, -⟩ := (mem_gcPages hv hk).1 hq
    exact ⟨hp, hl⟩
  · rintro ⟨hp, hl⟩
    exact ⟨gcKey c q, gcKey_mem hp, (mem_gcPages hv (gcKey_mem hp)).2 ⟨hp, hl, rfl⟩⟩

/-- **No page is visited twice.** -/
theorem nodup_allGcPages (hv : v < c.sp.blksPerPl) : (allGcPages c v).Nodup :=
  nodup_flatMap_of_key (gcKey c) nodup_gcPositions (fun _ hk => nodup_gcPages hv hk)
    fun _ hk _ hq => ((mem_gcPages hv hk).1 hq).2.2

/-! ## Erased blocks -/

/-- The blocks erased at the positions `pre`. -/
def erasedAt (c : Cfg) (v : ℕ) (pre : List (ℕ × ℕ × ℕ)) : List BlkAddr :=
  (pre.filter fun k => k.1 = c.sp.flashpgsPerBlk - 1).map fun k => ⟨k.2.1, k.2.2, 0, v⟩

theorem mem_erasedAt {b : BlkAddr} :
    b ∈ erasedAt c v pre ↔ (c.sp.flashpgsPerBlk - 1, b.ch, b.lun) ∈ pre ∧ b.pl = 0 ∧ b.blk = v := by
  simp only [erasedAt, List.mem_map, List.mem_filter, decide_eq_true_eq]
  constructor
  · rintro ⟨⟨f, ch, lun⟩, ⟨hm, rfl⟩, rfl⟩
    exact ⟨hm, rfl, rfl⟩
  · rintro ⟨hm, hpl, hblk⟩
    refine ⟨_, ⟨hm, rfl⟩, ?_⟩
    rw [← hpl, ← hblk]

theorem blkAddr_mem_erasedAt (hq : IsPage c q) : q.blkAddr ∈ erasedAt c v pre ↔
    (c.sp.flashpgsPerBlk - 1, q.ch.toNat, q.lun.toNat) ∈ pre ∧ q.line = v := by
  rw [mem_erasedAt]
  have hpl : q.blkAddr.pl = 0 := by
    change q.pl.toNat = 0
    rw [hq.pl_eq]
    rfl
  exact ⟨fun ⟨h₁, _, h₃⟩ => ⟨h₁, h₃⟩, fun ⟨h₁, h₃⟩ => ⟨h₁, hpl, h₃⟩⟩

/-- **No block is erased before its last flash page is visited.** -/
theorem notMem_erasedAt (hv : v < c.sp.blksPerPl) (he : gcPositions c = pre ++ k :: post)
    (hq : q ∈ gcPages c v k) : q.blkAddr ∉ erasedAt c v pre := by
  have hk : k ∈ gcPositions c := by rw [he]; simp
  obtain ⟨hp, -, rfl⟩ := (mem_gcPages hv hk).1 hq
  rw [blkAddr_mem_erasedAt hp]
  rintro ⟨hm, -⟩
  have hle := rank_le_of_mem_prefix sorted_gcPositions he hm
  have hlt := (mem_gcPositions.1 hk).1
  refine notMem_prefix nodup_gcPositions he ?_
  have hlast : c.sp.flashpgsPerBlk - 1 = (gcKey c q).1 := by
    dsimp only at hle
    omega
  rw [hlast] at hm
  exact hm

/-- **A block is erased after all its pages were visited.** -/
theorem mem_visited (hv : v < c.sp.blksPerPl) (he : gcPositions c = pre ++ k :: post)
    (hlast : k.1 = c.sp.flashpgsPerBlk - 1) (hq : IsPage c q) (hl : q.line = v)
    (hch : q.ch.toNat = k.2.1) (hlun : q.lun.toNat = k.2.2) :
    q ∈ (pre ++ [k]).flatMap (gcPages c v) := by
  have hkey := gcKey_mem hq
  refine List.mem_flatMap.2 ⟨gcKey c q, ?_, (mem_gcPages hv hkey).2 ⟨hq, hl, rfl⟩⟩
  by_cases hf : (gcKey c q).1 = k.1
  · have hk : gcKey c q = k := Prod.ext hf (Prod.ext hch hlun)
    rw [hk]
    simp
  · refine List.mem_append_left _ (mem_prefix_of_lt sorted_gcPositions he hkey ?_)
    have := (mem_gcPositions.1 hkey).1
    omega

/-- The blocks of line `v`. -/
def BlkAddr.InLine (c : Cfg) (v : ℕ) (b : BlkAddr) : Prop :=
  b.ch < c.sp.nchs ∧ b.lun < c.sp.lunsPerCh ∧ b.pl = 0 ∧ b.blk = v

instance (v : ℕ) (b : BlkAddr) : Decidable (b.InLine c v) :=
  inferInstanceAs (Decidable (_ ∧ _ ∧ _ ∧ _))

/-- **Every block of the line is erased once, and no other.** -/
theorem count_erasedAt (b : BlkAddr) :
    (erasedAt c v (gcPositions c)).count b = if b.InLine c v then 1 else 0 := by
  have hnd : (erasedAt c v (gcPositions c)).Nodup := by
    refine List.Nodup.map_on ?_ (nodup_gcPositions.filter _)
    rintro ⟨f, ch, lun⟩ hk ⟨f', ch', lun'⟩ hk' he
    have hf := (List.mem_filter.1 hk).2
    have hf' := (List.mem_filter.1 hk').2
    simp only [decide_eq_true_eq] at hf hf'
    simp only [BlkAddr.mk.injEq] at he
    rw [hf, hf', he.1, he.2.1]
  rw [hnd.count]
  refine if_congr ?_ rfl rfl
  rw [mem_erasedAt, mem_gcPositions]
  constructor
  · rintro ⟨⟨-, hch, hlun⟩, hpl, hblk⟩
    exact ⟨hch, hlun, hpl, hblk⟩
  · rintro ⟨hch, hlun, hpl, hblk⟩
    exact ⟨⟨Nat.sub_lt flashpgsPerBlk_pos.1 Nat.one_pos, hch, hlun⟩, hpl, hblk⟩

end WaitGc

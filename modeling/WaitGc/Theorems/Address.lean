/-
  WAITGC verification — page addresses for every capacity.

  `AddressFaithful sp capacity` says that the parameters derived from a
  capacity cover it, fit together, and give every page coordinate an address of
  its own in the bit fields of `struct ppa`.  On the SAMSUNG_970PRO
  configuration this is so up to 137430564864 bytes and for no larger capacity:
  the page number of a block then needs more than 16 bits.
-/
import WaitGc.Proof.Devices
import WaitGc.Proof.Pages
import Mathlib.Data.Set.Function
import Mathlib.Data.Finset.Prod

namespace WaitGc

open Outcome

/-- A page coordinate. -/
structure Coord where
  ch : ℕ
  lun : ℕ
  pl : ℕ
  blk : ℕ
  pg : ℕ

/-- A coordinate inside the geometry. -/
structure Coord.Inside (sp : SsdParams) (x : Coord) : Prop where
  ch_lt : x.ch < sp.nchs
  lun_lt : x.lun < sp.lunsPerCh
  pl_lt : x.pl < sp.plsPerLun
  blk_lt : x.blk < sp.blksPerPl
  pg_lt : x.pg < sp.pgsPerBlk

/-- The address `get_new_page` stores. -/
def Coord.ppa (x : Coord) : Ppa := .store x.ch x.lun x.pl x.blk x.pg

/-- The coordinate that is read back. -/
def Ppa.coord (p : Ppa) : Coord := ⟨p.ch.toNat, p.lun.toNat, p.pl.toNat, p.blk.toNat, p.pg.toNat⟩

/-- The parameters cover the capacity, and the addresses are faithful. -/
structure AddressFaithful (sp : SsdParams) (capacity : ℕ) : Prop where
  covers : capacity ≤ sp.ttPgs * sp.pgsz
  flashpgs : sp.pgsPerFlashpg * sp.flashpgsPerBlk = sp.pgsPerBlk
  lines : sp.ttPgs = sp.ttLines * sp.pgsPerLine
  stored : ∀ x : Coord, x.Inside sp → x.ppa.coord = x
  index : Set.BijOn (fun x : Coord => x.ppa.pgidx sp) {x | x.Inside sp} (Set.Iio sp.ttPgs)
  mapped : ∀ x : Coord, x.Inside sp → x.ppa.ppa ≠ UNMAPPED_PPA

/-! ## Capacities that fit -/

theorem wordlines_bounds {capacity : ℕ} (h : capacity ≤ 2 ^ 37) :
    capacity ≤ wordlines capacity * 25165824 ∧ wordlines capacity ≤ (capacity + 25165823) / 25165824 := by
  have h₁ : divRoundUp capacity 512 = (capacity + 511) / 512 := by
    rw [divRoundUp, u64_of_lt (by omega)]
    rfl
  have h₂ : wordlines capacity = ((capacity + 511) / 512 + 49151) / 49152 := by
    rw [wordlines, h₁, divRoundUp, u64_of_lt (by omega)]
    rfl
  rw [h₂]
  omega

theorem Coord.Inside.store {c : Cfg} {x : Coord} (h : x.Inside c.sp) :
    x.ppa = .store x.ch x.lun 0 x.blk x.pg ∧ x.pl = 0 ∧ c.geo.InLine x.ch x.lun x.pg := by
  have hpl : x.pl = 0 := by
    have hlt := h.pl_lt
    rw [c.geo.plsPerLun_eq] at hlt
    omega
  exact ⟨by rw [Coord.ppa, hpl], hpl, h.ch_lt, h.lun_lt, h.pg_lt⟩

/-- Addresses are faithful where the coordinates fit the bit fields. -/
theorem Geometry.faithful (c : Cfg) :
    (∀ x : Coord, x.Inside c.sp → x.ppa.coord = x ∧ x.ppa.ppa ≠ UNMAPPED_PPA) ∧
      Set.BijOn (fun x : Coord => x.ppa.pgidx c.sp) {x | x.Inside c.sp} (Set.Iio c.sp.ttPgs) := by
  have hcoord {x : Coord} (h : x.Inside c.sp) : x.ppa.coord = x := by
    obtain ⟨he, hpl, hin⟩ := h.store
    obtain ⟨h₁, h₂, h₃, h₄⟩ := store_fields hin h.blk_lt
    rw [Ppa.coord, he, h₁, h₂, h₃, h₄]
    obtain ⟨ch, lun, pl, blk, pg⟩ := x
    cases hpl
    rfl
  have hpage {x : Coord} (h : x.Inside c.sp) : IsPage c x.ppa := by
    obtain ⟨he, -, hin⟩ := h.store
    rw [he]
    exact (isPage_store hin h.blk_lt).1
  refine ⟨?_, ?_, ?_, ?_⟩
  · intro x h
    refine ⟨hcoord h, ?_⟩
    have hm := (hpage h).mapped
    simpa [mappedPpa] using hm
  · intro x h
    exact pgidx_lt (hpage h)
  · intro x hx y hy he
    have hxy := pgidx_inj (hpage hx) (hpage hy) he
    rw [← hcoord hx, ← hcoord hy, hxy]
  · intro n hn
    obtain ⟨ch, lun, blk, pg, hin, hblk, rfl⟩ := Geometry.idx_surj (g := c.geo) hn
    have hx : Coord.Inside c.sp ⟨ch, lun, 0, blk, pg⟩ :=
      ⟨hin.ch_lt, hin.lun_lt, by rw [c.geo.plsPerLun_eq]; exact Nat.one_pos, hblk, hin.pg_lt⟩
    refine ⟨_, hx, ?_⟩
    dsimp only
    obtain ⟨h₁, h₂, h₃, h₄⟩ := store_fields hin hblk
    rw [pgidx_eq (hpage hx)]
    change c.geo.idx (Ppa.store ch lun 0 blk pg).ch.toNat (Ppa.store ch lun 0 blk pg).lun.toNat
      (Ppa.store ch lun 0 blk pg).blk.toNat (Ppa.store ch lun 0 blk pg).pg.toNat = _
    rw [h₁, h₂, h₃, h₄]

theorem faithful_of_le {capacity : ℕ} (h : capacity ≤ 137430564864) :
    AddressFaithful (pro970Params (wordlines capacity)) capacity := by
  obtain ⟨hcov, hle⟩ := wordlines_bounds (h.trans (by norm_num))
  have hn : wordlines capacity ≤ 5461 := by omega
  clear hle
  generalize wordlines capacity = n at hcov hn ⊢
  have hcovers : capacity ≤ (pro970Params n).ttPgs * (pro970Params n).pgsz := by
    calc capacity ≤ n * 25165824 := hcov
      _ = 6144 * n * 4096 := by ring
  have hflash : (pro970Params n).pgsPerFlashpg * (pro970Params n).flashpgsPerBlk =
      (pro970Params n).pgsPerBlk := by
    simp only [pro970Params]
    ring
  have hlines : (pro970Params n).ttPgs = (pro970Params n).ttLines * (pro970Params n).pgsPerLine := by
    simp only [pro970Params]
    ring
  rcases Nat.eq_zero_or_pos n with rfl | hpos
  · -- no page at all
    have hno (x : Coord) : ¬ x.Inside (pro970Params 0) := fun hx => Nat.not_lt_zero _ hx.pg_lt
    refine ⟨hcovers, hflash, hlines, fun x hx => absurd hx (hno x), ⟨?_, ?_, ?_⟩,
      fun x hx => absurd hx (hno x)⟩
    · exact fun x hx => absurd hx (hno x)
    · exact fun x hx => absurd hx (hno x)
    · intro n hn
      exact absurd hn (Nat.not_lt_zero n)
  · obtain ⟨hstored, hindex⟩ := Geometry.faithful (pro970Cfg ⟨.greedy, false, 0⟩ n hpos hn)
    exact ⟨hcovers, hflash, hlines, fun x hx => (hstored x hx).1, hindex,
      fun x hx => (hstored x hx).2⟩

/-! ## Capacities that do not -/

theorem AddressFaithful.pgs_le {sp : SsdParams} {capacity : ℕ} (h : AddressFaithful sp capacity)
    (h₁ : 0 < sp.nchs) (h₂ : 0 < sp.lunsPerCh) (h₃ : 0 < sp.plsPerLun) (h₄ : 0 < sp.blksPerPl) :
    sp.pgsPerBlk ≤ 65536 := by
  by_contra hgt
  have he := h.stored ⟨0, 0, 0, 0, 65536⟩ ⟨h₁, h₂, h₃, h₄, not_le.1 hgt⟩
  have hpg := congrArg Coord.pg he
  simp [Ppa.coord, Coord.ppa, Ppa.store] at hpg

theorem AddressFaithful.ttPgs_le {sp : SsdParams} {capacity : ℕ} (h : AddressFaithful sp capacity) :
    sp.ttPgs ≤ sp.nchs * (sp.lunsPerCh * (sp.plsPerLun * (sp.blksPerPl * sp.pgsPerBlk))) := by
  have hsurj : Set.SurjOn
      (fun x : ℕ × ℕ × ℕ × ℕ × ℕ => (Coord.mk x.1 x.2.1 x.2.2.1 x.2.2.2.1 x.2.2.2.2).ppa.pgidx sp)
      (Finset.range sp.nchs ×ˢ Finset.range sp.lunsPerCh ×ˢ Finset.range sp.plsPerLun ×ˢ
        Finset.range sp.blksPerPl ×ˢ Finset.range sp.pgsPerBlk : Finset (ℕ × ℕ × ℕ × ℕ × ℕ))
      (Finset.range sp.ttPgs : Finset ℕ) := by
    intro n hn
    rw [Finset.coe_range] at hn
    obtain ⟨x, hx, he⟩ := h.index.surjOn hn
    refine ⟨(x.ch, x.lun, x.pl, x.blk, x.pg), ?_, he⟩
    rw [Finset.mem_coe]
    simp only [Finset.mem_product, Finset.mem_range]
    exact ⟨hx.ch_lt, hx.lun_lt, hx.pl_lt, hx.blk_lt, hx.pg_lt⟩
  have hcard := Finset.card_le_card_of_surjOn _ hsurj
  simpa only [Finset.card_product, Finset.card_range] using hcard

theorem wrappedParams_pgsPerBlk (o : ℤ) :
    (wrappedParams o).pgsPerBlk = (int32 ((12 : ℕ) * o)).toNat := rfl

/-- **Addresses are faithful exactly up to this capacity.** -/
theorem address_faithful_iff {capacity : ℕ} (hcap : capacity < 2 ^ 64) :
    (∃ sp, ssdInitParams samsung970Pro capacity 1 = .ok sp ∧ AddressFaithful sp capacity) ↔
      capacity ≤ 137430564864 := by
  constructor
  · rintro ⟨sp, hsp, h⟩
    rw [ssdInitParams_wrapped] at hsp
    obtain rfl := Except.ok.inj hsp
    have hpgs := h.pgs_le (by simp [wrappedParams, pro970Params]) (by simp [wrappedParams, pro970Params])
      (by simp [wrappedParams, pro970Params]) (by simp [wrappedParams, pro970Params])
    -- the capacity is small enough for the counts not to wrap
    have hsmall : capacity ≤ 2 ^ 37 := by
      have htt := h.ttPgs_le
      have hcov := h.covers
      have hpgsz : (wrappedParams (int32 (wordlines capacity))).pgsz = 4096 := rfl
      rw [hpgsz] at hcov
      change _ ≤ 8 * (2 * (1 * (32 * _))) at htt
      generalize (wrappedParams (int32 (wordlines capacity))).ttPgs = ttPgs at htt hcov
      generalize (wrappedParams (int32 (wordlines capacity))).pgsPerBlk = pgsPerBlk at htt hpgs
      omega
    obtain ⟨hcov, hle⟩ := wordlines_bounds hsmall
    have hpgs' : (wrappedParams (int32 (wordlines capacity))).pgsPerBlk = 12 * wordlines capacity := by
      have hn : int32 (wordlines capacity) = wordlines capacity :=
        int32_of_lt (by omega) (by omega)
      have h12 : int32 ((12 : ℕ) * (wordlines capacity : ℤ)) = (12 : ℕ) * (wordlines capacity : ℤ) :=
        int32_of_lt (by omega) (by omega)
      rw [wrappedParams_pgsPerBlk, hn, h12]
      omega
    omega
  · intro h
    have hle : wordlines capacity ≤ 5461 := by
      have := (wordlines_bounds (h.trans (by norm_num))).2
      omega
    exact ⟨_, ssdInitParams_pro970 hle, faithful_of_le h⟩

theorem address_faithful_24MiB :
    (25165824 : ℕ) < 2 ^ 64 ∧
      ∃ sp, ssdInitParams samsung970Pro 25165824 1 = .ok sp ∧ AddressFaithful sp 25165824 :=
  ⟨by norm_num, (address_faithful_iff (by norm_num)).2 (by norm_num)⟩

/-- One byte more, and the pages of a block do not fit the 16 bits of `pg`. -/
theorem address_not_faithful : ¬ ∃ sp,
    ssdInitParams samsung970Pro 137430564865 1 = .ok sp ∧ AddressFaithful sp 137430564865 := by
  rw [ssdInitParams_wrapped]
  rintro ⟨sp, hsp, h⟩
  obtain rfl := Except.ok.inj hsp
  have hpgs := h.pgs_le (by simp [wrappedParams, pro970Params]) (by simp [wrappedParams, pro970Params])
    (by simp [wrappedParams, pro970Params]) (by simp [wrappedParams, pro970Params])
  exact absurd hpgs (by decide)

end WaitGc

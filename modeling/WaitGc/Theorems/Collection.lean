/-
  WAITGC verification — garbage collection is invisible to the host.

  A successful `do_gc` in a reachable state of the greedy build moves the valid pages of its
  victim elsewhere, and leaves the mapping of every other logical page
  (`collection_invisible`).
-/
import WaitGc.Proof.Devices
import WaitGc.Proof.System

namespace WaitGc

open Outcome

variable {c : Cfg} {s s' : ConvFtl} {d : Device} {pl pl' : ℕ → Place} {part v : ℕ}

/-- What the collection of the line `v` leaves of the FTL `s`. -/
structure CollectedLine (c : Cfg) (s : ConvFtl) (v : ℕ) (s' : ConvFtl) : Prop where
  -- the host's view
  mapped : ∀ lpn < c.sp.ttPgs, mappedPpa (s'.maptbl lpn) = mappedPpa (s.maptbl lpn)
  kept : ∀ lpn < c.sp.ttPgs, mappedPpa (s.maptbl lpn) = true → (s.maptbl lpn).line ≠ v →
    s'.maptbl lpn = s.maptbl lpn
  moved : ∀ lpn < c.sp.ttPgs, mappedPpa (s.maptbl lpn) = true → (s.maptbl lpn).line = v →
    IsPage c (s'.maptbl lpn) ∧ (s'.maptbl lpn).line ≠ v ∧ s'.status (s'.maptbl lpn) = .valid ∧
      s'.rmap ((s'.maptbl lpn).pgidx c.sp) = lpn
  valid : validPages c s' = validPages c s
  -- the victim
  pages : ∀ p, IsPage c p → p.line = v → s'.status p = .free
  blocks : ∀ b : BlkAddr, b.InLine c v → (s'.blk b).eraseCnt = (s.blk b).eraseCnt + 1 ∧
    (s'.blk b).vpc = 0 ∧ (s'.blk b).ipc = 0
  others : ∀ b : BlkAddr, ¬ b.InLine c v → (s'.blk b).eraseCnt = (s.blk b).eraseCnt
  freeList : ∃ rest, rest <:+ s.lm.freeLineList ∧ s'.lm.freeLineList = rest ++ [v]
  line : (s'.lm.lines v).vpc = 0 ∧ (s'.lm.lines v).ipc = 0

theorem FtlOk.counters_of_free (h : FtlOk c s pl) (hv : v < c.sp.blksPerPl)
    (hfree : ∀ p, IsPage c p → p.line = v → s.status p = .free) {b : BlkAddr} (hb : b.InLine c v) :
    (s.blk b).vpc = 0 ∧ (s.blk b).ipc = 0 := by
  obtain ⟨hch, hlun, hpl, hblk⟩ := hb
  have hin {pg : ℕ} (hpg : pg < c.sp.pgsPerBlk) : c.geo.InLine b.ch b.lun pg := ⟨hch, hlun, hpg⟩
  have hpage {pg : ℕ} (hpg : pg < c.sp.pgsPerBlk) : IsPage c (.store b.ch b.lun 0 v pg) ∧
      (Ppa.store b.ch b.lun 0 v pg).line = v ∧ (Ppa.store b.ch b.lun 0 v pg).blkAddr = b ∧
      (Ppa.store b.ch b.lun 0 v pg).pg.toNat = pg := by
    obtain ⟨hp, hl, -⟩ := isPage_store (hin hpg) hv
    obtain ⟨h₁, h₂, h₃, h₄⟩ := store_fields (hin hpg) hv
    refine ⟨hp, hl, ?_, h₄⟩
    rw [Ppa.blkAddr, h₁, h₂, h₃, hp.pl_eq]
    cases b
    simp only at hpl hblk
    rw [hpl, hblk]
    rfl
  obtain ⟨hp₀, -, hb₀, -⟩ := hpage Geometry.pgsPerBlk_pos
  have hcount := h.phys.blk_counted _ hp₀
  rw [hb₀] at hcount
  have hsum := hcount.add_eq (Nat.zero_le _) fun k hk => ?_
  · omega
  obtain ⟨hp, hl, hbk, hpg⟩ := hpage hk
  have hst := hfree _ hp hl
  unfold ConvFtl.status at hst
  rw [hbk, hpg] at hst
  exact iff_of_false (fun hne => hne hst) (Nat.not_lt_zero k)

theorem Emptied.collectedLine (h : FtlOk c s pl) (hE : Emptied c s v s' pl') (hv : v < c.sp.blksPerPl) :
    CollectedLine c s v s' where
  mapped := hE.mapped
  kept := hE.kept
  moved lpn hlpn hm _ := by
    obtain ⟨hp, hst, -, hr⟩ := hE.ok.map.image lpn hlpn ((hE.mapped lpn hlpn).trans hm)
    refine ⟨hp, fun hl => ?_, hst, hr⟩
    -- the pages of the victim are free
    rw [hE.free _ hp hl] at hst
    cases hst
  valid := by rw [hE.ok.validPages_eq, h.validPages_eq, hE.mappedLpns_eq]
  pages := hE.free
  blocks b hb := by
    refine ⟨?_, hE.ok.counters_of_free hv hE.free hb⟩
    rw [hE.erase, if_pos hb]
  others b hb := by rw [hE.erase, if_neg hb, Nat.add_zero]
  freeList := hE.freeList
  line := hE.line

/-- **Garbage collection is invisible to the host**, in every reachable state of the greedy
    build. -/
theorem collection_invisible (hpol : c.build.policy = .greedy) (h : Reachable c d) (hpart : part < c.nrParts)
    {t t' : Timing} (hgc : doGc c (d.dev.ftls part) t true = .ok (true, s', t')) :
    ∃ v s₁, v < c.sp.blksPerPl ∧ selectVictimLine c (d.dev.ftls part) true = .ok (some v, s₁) ∧
      CollectedLine c (d.dev.ftls part) v s' := by
  obtain ⟨⟨pl, hok⟩, -⟩ := greedy_inv hpol h hpart
  obtain ⟨pl', hdone⟩ := (doGc_done hok (selects_greedy hpol hok true) t).of_ok hgc
  cases hdone with
  | collected hsel hT hE => exact ⟨_, _, hT.lt, hsel, hE.collectedLine hok hT.lt⟩

/-- The line of the page that is written twice is collected. -/
theorem collection_invisible_rewriteRun : ∃ d s' t', Reachable duoGreedyCfg d ∧
    doGc duoGreedyCfg (d.dev.ftls 0) d.dev.timing true = .ok (true, s', t') ∧
    ∃ v s₁, v < 4 ∧ selectVictimLine duoGreedyCfg (d.dev.ftls 0) true = .ok (some v, s₁) ∧
      CollectedLine duoGreedyCfg (d.dev.ftls 0) v s' := by
  have hgc : (convInitNamespace duoGreedyCfg (fun _ _ => .null) (fun _ => 0) >>= fun dev =>
      (device duoGreedyCfg).run ⟨dev, none⟩ rewriteRun.dropLast >>= fun d =>
        (doGc duoGreedyCfg (d.dev.ftls 0) d.dev.timing true).map Prod.fst) = .ok true := by
    decide +kernel
  obtain ⟨dev, hinit, hgc⟩ := bind_eq_ok hgc
  obtain ⟨d, hrun, hgc⟩ := bind_eq_ok hgc
  obtain ⟨⟨done, s', t'⟩, hdoGc, rfl⟩ := exists_ok_of_map hgc
  have hreach : Reachable duoGreedyCfg d := ⟨_, _, dev, _, hinit, hrun⟩
  exact ⟨d, s', t', hreach, hdoGc, collection_invisible rfl hreach Nat.one_pos hdoGc⟩

end WaitGc

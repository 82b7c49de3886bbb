/-
  WAITGC verification — garbage collection in any state.

  What `do_gc` leaves alone whatever line it was handed: the user's write
  pointer, the clock, the host's counters, the times of the other lines.  The
  blocks of the line it frees are erased.
-/
import WaitGc.Proof.Victim

namespace WaitGc

open Outcome Function

variable {c : Cfg} {s s' s₁ s₂ s₃ : ConvFtl} {t : Timing} {v i : ℕ} {p q : Ppa}

/-! ## Copying and erasing -/

/-- What copying pages and erasing blocks may change. -/
structure GcMoved (s s' : ConvFtl) : Prop where
  frame : s' = { s with
    maptbl := s'.maptbl, rmap := s'.rmap, blk := s'.blk, lm := s'.lm, gcWp := s'.gcWp
    stats := { s.stats with gcValidCopied := s'.stats.gcValidCopied } }
  touched : Touched NoStamp s s'

theorem GcMoved.refl (s : ConvFtl) : GcMoved s s := ⟨rfl, .refl s⟩

theorem GcMoved.trans (h : GcMoved s₁ s₂) (h' : GcMoved s₂ s₃) : GcMoved s₁ s₃ := by
  refine ⟨?_, h.touched.trans h'.touched⟩
  rw [h'.frame, h.frame]

theorem gcWritePage_yields (s : ConvFtl) (t : Timing) (p : Ppa) :
    Yields (fun r => GcMoved s r.1) (gcWritePage c s t p) := by
  unfold gcWritePage getRmapEnt ppa2pgidx
  simp only [bind_assoc, pure_bind]
  refine yields_require fun _ => yields_require fun _ => ?_
  refine (writeNewPage_yields s .gcIo _ GcStats.countCopy).bind ?_
  rintro ⟨q, s₁⟩ h
  have hwp : s₁.wp = s.wp := h.other .userIo (by simp)
  have hmoved : GcMoved s s₁ := by
    refine ⟨?_, h.touched⟩
    have hf := h.frame
    dsimp only at hf
    rw [hwp] at hf
    rw [hf]
    rfl
  dsimp only
  split_ifs <;> exact hmoved

theorem copyPage_yields (st : ConvFtl × Timing) (p : Ppa) :
    Yields (fun r => GcMoved st.1 r.1) (copyPage c st p) := by
  unfold copyPage
  split_ifs
  · exact gcWritePage_yields st.1 st.2 p
  · exact .refl _

theorem cleanOneFlashpg_yields (s : ConvFtl) (t : Timing) (p : Ppa) :
    Yields (fun r => GcMoved s r.1) (cleanOneFlashpg c s t p) := by
  unfold cleanOneFlashpg
  refine Sat.bind (Q := fun _ => True) (yields_iff.2 fun _ _ => trivial) ?_
  intro cnt _
  have hloop (t : Timing) :
      Yields (fun r => GcMoved s r.1) ((flashpgPages c p).foldlM (copyPage c) (s, t)) := by
    refine sat_foldlM (fun _ (st : ConvFtl × Timing) => GcMoved s st.1) _ ?_ (.refl s)
    intro pre q post st _ h
    exact (copyPage_yields st q).mono (fun _ h => h) fun r hr => h.trans hr
  split_ifs
  · exact .refl s
  · exact hloop _
  · exact hloop _

theorem markBlockFree_gcMoved (s : ConvFtl) (p : Ppa) : GcMoved s (markBlockFree c s p) :=
  ⟨rfl, markBlockFree_touched s p⟩

theorem blkAddr_store (ch lun blk pg : ℕ) : (Ppa.store ch lun 0 blk pg).blkAddr =
    ⟨ch % 2 ^ 8, lun % 2 ^ 8, 0, blk % 2 ^ 16⟩ := by
  simp [Ppa.store, Ppa.blkAddr]

/-- A visit of the last flash page of a block erases it. -/
theorem gcVisit_yields (blk : ℕ) (st : ConvFtl × Timing) (k : ℕ × ℕ × ℕ) :
    Yields (fun r => GcMoved st.1 r.1 ∧ (k = (c.sp.flashpgsPerBlk - 1, 0, 0) →
        (st.1.blk ⟨0, 0, 0, blk % 2 ^ 16⟩).eraseCnt < (r.1.blk ⟨0, 0, 0, blk % 2 ^ 16⟩).eraseCnt))
      (gcVisit c blk st k) := by
  unfold gcVisit
  refine (cleanOneFlashpg_yields _ _ _).bind ?_
  rintro ⟨s₁, t₁⟩ h
  change GcMoved st.1 s₁ at h
  have herase : GcMoved st.1 (markBlockFree c s₁
      (.store k.2.1 k.2.2 0 blk (k.1 * c.sp.pgsPerFlashpg))) ∧
      (k = (c.sp.flashpgsPerBlk - 1, 0, 0) → (st.1.blk ⟨0, 0, 0, blk % 2 ^ 16⟩).eraseCnt <
        ((markBlockFree c s₁ (.store k.2.1 k.2.2 0 blk (k.1 * c.sp.pgsPerFlashpg))).blk
          ⟨0, 0, 0, blk % 2 ^ 16⟩).eraseCnt) := by
    refine ⟨h.trans (markBlockFree_gcMoved _ _), ?_⟩
    rintro rfl
    refine (h.touched.erase _).trans_lt ?_
    dsimp only [markBlockFree]
    rw [blkAddr_store, Nat.zero_mod, update_self]
    exact Nat.lt_succ_self _
  dsimp only
  split_ifs with hk
  · exact herase
  · exact herase
  · refine ⟨h, ?_⟩
    rintro rfl
    exact absurd rfl hk

theorem flashpgsPerBlk_pos : 0 < c.sp.flashpgsPerBlk ∧ 0 < c.sp.pgsPerFlashpg := by
  have h := c.geo.flashpgs_eq
  have hpos : 0 < c.geo.pgsPerBlk := Geometry.pgsPerBlk_pos
  rw [← h] at hpos
  exact ⟨Nat.pos_of_mul_pos_right hpos, Nat.pos_of_mul_pos_left hpos⟩

theorem mem_gcPositions {k : ℕ × ℕ × ℕ} :
    k ∈ gcPositions c ↔ k.1 < c.sp.flashpgsPerBlk ∧ k.2.1 < c.sp.nchs ∧ k.2.2 < c.sp.lunsPerCh := by
  obtain ⟨f, ch, lun⟩ := k
  simp only [gcPositions, List.mem_flatMap, List.mem_map, List.mem_range, Prod.mk.injEq]
  constructor
  · rintro ⟨f', hf, ch', hch, lun', hlun, rfl, rfl, rfl⟩
    exact ⟨hf, hch, hlun⟩
  · rintro ⟨hf, hch, hlun⟩
    exact ⟨f, hf, ch, hch, lun, hlun, rfl, rfl, rfl⟩

/-! ## Collecting a line -/

/-- What collecting a line is, in any state. -/
structure Collected (s s' : ConvFtl) : Prop where
  wp : s'.wp = s.wp
  curNsecs : s'.curNsecs = s.curNsecs
  id : ∀ i, (s'.lm.lines i).id = (s.lm.lines i).id
  size : s.lm.victimLinePq.size ≤ s'.lm.victimLinePq.size
  erase : ∀ b, (s.blk b).eraseCnt ≤ (s'.blk b).eraseCnt
  /-- A line is young again only after its blocks were erased. -/
  time : ∀ i, SameTime (s.lm.lines i) (s'.lm.lines i) ∨
    ((s'.lm.lines i).lastModifiedTime = 0 ∧ (s'.lm.lines i).ipc = 0) ∧
      (s.blk ⟨0, 0, 0, i⟩).eraseCnt < (s'.blk ⟨0, 0, 0, i⟩).eraseCnt
  available : s'.stats.gcCandidatesAvailableSum = s.stats.gcCandidatesAvailableSum
  evals : s'.stats.gcCandidateEvalCount = s.stats.gcCandidateEvalCount

/-- The loops of `do_gc`. -/
theorem gcLoops_yields (s : ConvFtl) (t : Timing) (blk : ℕ) :
    Yields (fun r => GcMoved s r.1 ∧ (s.blk ⟨0, 0, 0, blk % 2 ^ 16⟩).eraseCnt <
        (r.1.blk ⟨0, 0, 0, blk % 2 ^ 16⟩).eraseCnt)
      ((gcPositions c).foldlM (gcVisit c blk) (s, t)) := by
  have hmem : (c.sp.flashpgsPerBlk - 1, 0, 0) ∈ gcPositions c :=
    mem_gcPositions.2 ⟨Nat.sub_lt flashpgsPerBlk_pos.1 Nat.one_pos, c.geo.nchs_pos, c.geo.luns_pos⟩
  refine (sat_foldlM (E := fun _ => True) (fun pre (st : ConvFtl × Timing) => GcMoved s st.1 ∧
    ((c.sp.flashpgsPerBlk - 1, 0, 0) ∈ pre → (s.blk ⟨0, 0, 0, blk % 2 ^ 16⟩).eraseCnt <
      (st.1.blk ⟨0, 0, 0, blk % 2 ^ 16⟩).eraseCnt)) _ ?_ ?_).mono (fun _ h => h)
    fun r hr => ⟨hr.1, hr.2 hmem⟩
  · rintro pre k post st - ⟨h, he⟩
    refine (gcVisit_yields blk st k).mono (fun _ h => h) ?_
    rintro r ⟨hr, hk⟩
    refine ⟨h.trans hr, fun hm => ?_⟩
    rcases List.mem_append.1 hm with hm | hm
    · exact (he hm).trans_le (hr.touched.erase _)
    · exact (h.touched.erase _).trans_lt (hk (List.mem_singleton.1 hm).symm)
  · exact ⟨.refl s, fun hm => (nomatch hm)⟩

theorem collectLine_yields (s : ConvFtl) (t : Timing) (force : Bool) (v : ℕ) :
    Yields (fun r => Collected s r.1) (collectLine c s t force v) := by
  unfold collectLine
  have hs := isotonicCensorSelected_sampled (c := c) s v
  generalize isotonicCensorSelected c s v = s₁ at hs
  dsimp only
  refine (gcLoops_yields _ t _).bind ?_
  rintro ⟨s₂, t₂⟩ ⟨h, he⟩
  dsimp only at h he
  obtain ⟨hq, hblk, hwp, -, hcur⟩ := hs.ftl
  have hline : (Ppa.store 0 0 0 (s₁.lm.lines v).id 0).line = (s₁.lm.lines v).id % 2 ^ 16 := by
    simp [Ppa.store, Ppa.line]
  have htime (i : ℕ) : (s₂.lm.lines i).id = (s.lm.lines i).id ∧
      SameTime (s.lm.lines i) (s₂.lm.lines i) := by
    obtain ⟨hid, ht⟩ := h.touched.lines i
    obtain ⟨ht, hipc⟩ := ht.resolve_right And.left
    have hsame := hs.line i
    exact ⟨hid.trans hsame.id, ht.trans hsame.time, hipc.trans hsame.ipc⟩
  have hblk₂ (b : BlkAddr) : (s.blk b).eraseCnt ≤ (s₂.blk b).eraseCnt := by
    rw [← hblk]; exact h.touched.erase b
  have hframe := h.frame
  have hstats : s₁.stats.gcCandidatesAvailableSum = s.stats.gcCandidatesAvailableSum ∧
      s₁.stats.gcCandidateEvalCount = s.stats.gcCandidateEvalCount := by
    rw [hs.stats]; exact ⟨rfl, rfl⟩
  refine ⟨?_, ?_, ?_, ?_, hblk₂, ?_, ?_, ?_⟩
  · change s₂.wp = s.wp
    rw [hframe, ← hwp]
  · change s₂.curNsecs = s.curNsecs
    rw [hframe, ← hcur]
  · intro i
    dsimp only [markLineFree]
    by_cases hi : i = (Ppa.store 0 0 0 (s₁.lm.lines v).id 0).line
    · rw [← hi, update_self]; exact (htime i).1
    · rw [update_of_ne hi]; exact (htime i).1
  · rw [← hq]; exact h.touched.size
  · intro i
    dsimp only [markLineFree]
    by_cases hi : i = (Ppa.store 0 0 0 (s₁.lm.lines v).id 0).line
    · refine .inr ⟨by rw [← hi, update_self]; exact ⟨rfl, rfl⟩, ?_⟩
      rw [hi, hline, ← hblk]
      exact he
    · rw [update_of_ne hi]; exact .inl (htime i).2
  · change s₂.stats.gcCandidatesAvailableSum = s.stats.gcCandidatesAvailableSum
    rw [hframe, ← hstats.1]
    rfl
  · change s₂.stats.gcCandidateEvalCount = s.stats.gcCandidateEvalCount
    rw [hframe, ← hstats.2]
    rfl

/-! ## `do_gc` and the write credits -/

/-- The results of `do_gc`. -/
inductive GcResult (c : Cfg) (s : ConvFtl) (t : Timing) (force : Bool) :
    Bool × ConvFtl × Timing → Prop where
  | idle (h : selectVictimLine c s force = .ok (none, s)) : GcResult c s t force (false, s, t)
  | collected {v : ℕ} {s₁ s' : ConvFtl} {t' : Timing}
      (hsel : selectVictimLine c s force = .ok (some v, s₁))
      (hcol : collectLine c s₁ t force v = .ok (s', t')) : GcResult c s t force (true, s', t')

theorem doGc_result (s : ConvFtl) (t : Timing) (force : Bool) :
    Yields (GcResult c s t force) (doGc c s t force) := by
  have hy := selectVictimLine_yields (c := c) s force
  unfold doGc
  cases hsel : selectVictimLine c s force with
  | error e => trivial
  | ok r =>
    rw [hsel] at hy
    rcases r with ⟨_ | v, s₁⟩
    · obtain ⟨rfl, -⟩ := hy
      exact .idle hsel
    · rw [ok_bind]
      dsimp only
      cases hcol : collectLine c s₁ t force v with
      | error e => trivial
      | ok x => exact .collected hsel hcol

theorem u32_pred {n : ℕ} (hpos : 1 ≤ n) (hlt : n < 2 ^ 32) : u32 (n + 2 ^ 32 - 1) = n - 1 := by
  rw [u32]
  omega

theorem consumeWriteCredit_eq (hpos : 1 ≤ s.wfc.writeCredits) (hlt : s.wfc.writeCredits < 2 ^ 32) :
    consumeWriteCredit s = { s with wfc := { s.wfc with writeCredits := s.wfc.writeCredits - 1 } } := by
  unfold consumeWriteCredit
  rw [u32_pred hpos hlt]

/-- The credits are filled up. -/
def ConvFtl.refill (s : ConvFtl) : ConvFtl :=
  { s with wfc := { s.wfc with writeCredits := u32 (s.wfc.writeCredits + s.wfc.creditsToRefill) } }

theorem checkAndRefill_eq (s : ConvFtl) (t : Timing) :
    checkAndRefillWriteCredit c s t =
      if s.wfc.writeCredits = 0 then
        if shouldGcHigh c s then (doGc c s t true).map fun r => (r.2.1.refill, r.2.2)
        else .ok (s.refill, t)
      else .ok (s, t) := by
  unfold checkAndRefillWriteCredit foregroundGc
  split_ifs
  · cases doGc c s t true <;> rfl
  · rfl
  · rfl

/-- What a run of `do_gc` does in any state, the queue aside. -/
theorem GcResult.collected_of {force : Bool} {r : Bool × ConvFtl × Timing}
    (h : GcResult c s t force r) : r.2.1 = s ∨
      ∃ v s₁, selectVictimLine c s force = .ok (some v, s₁) ∧ Selection c s force (some v, s₁) ∧
        Collected s₁ r.2.1 := by
  rcases h with ⟨h⟩ | ⟨hsel, hcol⟩
  · exact .inl rfl
  · exact .inr ⟨_, _, hsel, (selectVictimLine_yields s force).of_ok hsel,
      (collectLine_yields _ t force _).of_ok hcol⟩

end WaitGc

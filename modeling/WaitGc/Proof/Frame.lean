/-
  WAITGC verification — what the operations of the FTL leave alone.

  The facts of this module hold in any state and for any victim policy, also
  where the queue of victims is not linked any more.

  * `Stamped T`: the lines keep their ids, and their invalid pages with the
    time of the last invalidation, or get another invalid page and a time in `T`.
  * `Touched T`: the same for the lines of an FTL; the victim queue loses no
    slot and no erase counter goes down.
-/
import WaitGc.Ftl.Commands
import WaitGc.Proof.Shelves
import WaitGc.Proof.WritePointer

namespace WaitGc

open Outcome Function Pqueue

variable {c : Cfg} {s s' s₁ s₂ s₃ : ConvFtl} {lm : LineMgmt} {T T' : ℕ → Prop} {io : IoType}

/-! ## Times of the lines -/

/-- The line keeps its invalid pages and their time. -/
def SameTime (l l' : Line) : Prop := l'.lastModifiedTime = l.lastModifiedTime ∧ l'.ipc = l.ipc

/-- The line gets another invalid page, at a time in `T`. -/
def Dated (T : ℕ → Prop) (l l' : Line) : Prop := T l'.lastModifiedTime ∧ l.ipc < l'.ipc

/-- Every line keeps its id, and its invalid pages and their time unless it is dated. -/
def Stamped (T : ℕ → Prop) (ls ls' : ℕ → Line) : Prop :=
  ∀ i, (ls' i).id = (ls i).id ∧ (SameTime (ls i) (ls' i) ∨ Dated T (ls i) (ls' i))

theorem Stamped.refl (ls : ℕ → Line) : Stamped T ls ls := fun _ => ⟨rfl, .inl ⟨rfl, rfl⟩⟩

theorem Stamped.trans {ls₁ ls₂ ls₃ : ℕ → Line} (h : Stamped T ls₁ ls₂) (h' : Stamped T ls₂ ls₃) :
    Stamped T ls₁ ls₃ := by
  intro i
  obtain ⟨hid, ht⟩ := h i
  obtain ⟨hid', ht'⟩ := h' i
  refine ⟨hid'.trans hid, ?_⟩
  rcases ht with ⟨ht, hipc⟩ | ⟨ht, hipc⟩ <;> rcases ht' with ⟨ht', hipc'⟩ | ⟨ht', hipc'⟩
  · exact .inl ⟨ht'.trans ht, hipc'.trans hipc⟩
  · exact .inr ⟨ht', hipc ▸ hipc'⟩
  · exact .inr ⟨ht'.symm ▸ ht, hipc'.symm ▸ hipc⟩
  · exact .inr ⟨ht', hipc.trans hipc'⟩

theorem Stamped.mono {ls ls' : ℕ → Line} (h : Stamped T ls ls') (hT : ∀ t, T t → T' t) :
    Stamped T' ls ls' := fun i => ⟨(h i).1, (h i).2.imp_right (And.imp_left (hT _))⟩

theorem PosOnly.stamped {ls ls' : ℕ → Line} (h : PosOnly ls ls') : Stamped T ls ls' := by
  intro i
  rw [h i]
  exact ⟨rfl, .inl ⟨rfl, rfl⟩⟩

theorem stamped_update {ls : ℕ → Line} {i : ℕ} {l : Line} (hid : l.id = (ls i).id)
    (ht : SameTime (ls i) l ∨ Dated T (ls i) l) :
    Stamped T ls (update ls i l) := by
  intro j
  by_cases hj : j = i
  · subst hj; rw [update_self]; exact ⟨hid, ht⟩
  · rw [update_of_ne hj]; exact ⟨rfl, .inl ⟨rfl, rfl⟩⟩

/-- What an operation may do to the lines, the queue and the erase counters. -/
structure Touched (T : ℕ → Prop) (s s' : ConvFtl) : Prop where
  lines : Stamped T s.lm.lines s'.lm.lines
  size : s.lm.victimLinePq.size ≤ s'.lm.victimLinePq.size
  erase : ∀ b, (s.blk b).eraseCnt ≤ (s'.blk b).eraseCnt

theorem Touched.refl (s : ConvFtl) : Touched T s s := ⟨.refl _, le_rfl, fun _ => le_rfl⟩

theorem Touched.trans (h : Touched T s₁ s₂) (h' : Touched T s₂ s₃) : Touched T s₁ s₃ :=
  ⟨h.lines.trans h'.lines, h.size.trans h'.size, fun b => (h.erase b).trans (h'.erase b)⟩

theorem Touched.mono (h : Touched T s s') (hT : ∀ t, T t → T' t) : Touched T' s s' :=
  ⟨h.lines.mono hT, h.size, h.erase⟩

/-- No line gets a new time. -/
def NoStamp (_ : ℕ) : Prop := False

theorem Touched.of_noStamp (h : Touched NoStamp s s') : Touched T s s' := h.mono fun _ => False.elim

theorem eraseCnt_le_update {blk : BlkAddr → NandBlock} {b : BlkAddr} {x : NandBlock}
    (h : (blk b).eraseCnt ≤ x.eraseCnt) (a : BlkAddr) :
    (blk a).eraseCnt ≤ (update blk b x a).eraseCnt := by
  by_cases ha : a = b
  · subst ha; rw [update_self]; exact h
  · rw [update_of_ne ha]

/-! ## The victim queue -/

theorem withPq_yields {r : Option (Pqueue × (ℕ → Line))} {Q : LineMgmt → Prop}
    (h : ∀ q ls, r = some (q, ls) → Q { lm with victimLinePq := q, lines := ls }) :
    Yields Q (lm.withPq r) := by
  rcases r with _ | ⟨q, ls⟩
  · trivial
  · exact h q ls rfl

theorem pqueueInsert_yields (lm : LineMgmt) (i : ℕ) :
    Yields (fun lm' => Stamped NoStamp lm.lines lm'.lines ∧
        lm'.victimLinePq.size = lm.victimLinePq.size + 1 ∧
        lm' = { lm with victimLinePq := lm'.victimLinePq, lines := lm'.lines })
      (lm.withPq (lm.victimLinePq.pqueueInsert victimLine lm.lines i)) := by
  refine withPq_yields ?_
  intro q ls h
  obtain ⟨hs, hr⟩ := pqueueInsert_repos victimLine_lawful h
  exact ⟨(PosOnly.of_repos hr).stamped, hs, rfl⟩

theorem pqueueChangePriority_yields (lm : LineMgmt) (i pri : ℕ) :
    Yields (fun lm' => Stamped NoStamp lm.lines lm'.lines ∧
        lm'.victimLinePq.size = lm.victimLinePq.size)
      (lm.withPq (lm.victimLinePq.pqueueChangePriority victimLine lm.lines pri i)) := by
  refine withPq_yields ?_
  intro q ls h
  obtain ⟨hs, hr⟩ := pqueueChangePriority_repos victimLine_lawful h
  refine ⟨Stamped.trans ?_ (PosOnly.of_repos hr).stamped, hs⟩
  exact stamped_update rfl (.inl ⟨rfl, rfl⟩)

/-! ## Page states -/

theorem invalidateLine_yields (lm : LineMgmt) (i now : ℕ) :
    Yields (fun lm' => Stamped (· = now) lm.lines lm'.lines ∧
        lm.victimLinePq.size ≤ lm'.victimLinePq.size) (invalidateLine c lm i now) := by
  unfold invalidateLine
  dsimp only
  refine yields_require fun _ => yields_require fun _ => yields_require fun _ => ?_
  -- the line leaves the full list, if it was on it
  have hrest (lm' : LineMgmt) (h₁ : Stamped (· = now) lm.lines lm'.lines)
      (h₂ : lm'.victimLinePq.size = lm.victimLinePq.size) :
      Yields (fun lm' => Stamped (· = now) lm.lines lm'.lines ∧
          lm.victimLinePq.size ≤ lm'.victimLinePq.size)
        (if decide ((lm.lines i).vpc = c.sp.pgsPerLine) = true then do
          let lm := { lm' with
            fullLineList := lm'.fullLineList.erase i, fullLineCnt := lm'.fullLineCnt - 1 }
          let lm ← lm.withPq (lm.victimLinePq.pqueueInsert victimLine lm.lines i)
          pure { lm with victimLineCnt := lm.victimLineCnt + 1 }
        else pure lm') := by
    split_ifs
    · refine (pqueueInsert_yields _ i).bind ?_
      rintro lm'' ⟨hst, hsz, -⟩
      exact ⟨h₁.trans (hst.mono fun _ => False.elim), by
        change lm.victimLinePq.size ≤ lm''.victimLinePq.size
        rw [hsz, ← h₂]; exact Nat.le_succ _⟩
    · exact ⟨h₁, h₂.ge⟩
  by_cases hpos : (lm.lines i).pos ≠ 0
  · rw [if_pos hpos]
    refine (pqueueChangePriority_yields _ i _).bind ?_
    rintro lm' ⟨hst, hsz⟩
    refine hrest lm' (Stamped.trans ?_ (hst.mono fun _ => False.elim)) hsz
    exact stamped_update rfl (.inr ⟨rfl, Nat.lt_succ_self _⟩)
  · rw [if_neg hpos, pure_bind]
    refine hrest _ ?_ rfl
    rw [update_idem]
    exact stamped_update rfl (.inr ⟨rfl, Nat.lt_succ_self _⟩)

theorem markPageInvalid_yields (s : ConvFtl) (p : Ppa) :
    Yields (fun s' => s' = { s with blk := s'.blk, lm := s'.lm } ∧
      Touched (· = s.curNsecs) s s') (markPageInvalid c s p) := by
  unfold markPageInvalid invalidateBlk
  refine Sat.bind (Q := fun b => b.eraseCnt = (s.blk p.blkAddr).eraseCnt) ?_ ?_
  · refine yields_require fun _ => yields_require fun _ => yields_require fun _ => ?_
    exact rfl
  intro b hb
  refine (invalidateLine_yields _ _ _).bind ?_
  rintro lm ⟨hst, hsz⟩
  exact ⟨rfl, hst, hsz, eraseCnt_le_update hb.ge⟩

theorem markPageValid_yields (s : ConvFtl) (p : Ppa) :
    Yields (fun s' => s' = { s with blk := s'.blk, lm := s'.lm } ∧ Touched NoStamp s s')
      (markPageValid c s p) := by
  unfold markPageValid
  dsimp only
  refine yields_require fun _ => yields_require fun _ => yields_require fun _ => ?_
  exact ⟨rfl, stamped_update rfl (.inl ⟨rfl, rfl⟩), le_rfl, eraseCnt_le_update le_rfl⟩

theorem markBlockFree_touched (s : ConvFtl) (p : Ppa) : Touched NoStamp s (markBlockFree c s p) :=
  ⟨.refl _, le_rfl, eraseCnt_le_update (Nat.le_succ _)⟩

/-! ## Write pointers -/

theorem closeLine_yields (lm : LineMgmt) (i : ℕ) :
    Yields (fun lm' => Stamped NoStamp lm.lines lm'.lines ∧
      lm.victimLinePq.size ≤ lm'.victimLinePq.size) (closeLine c lm i) := by
  unfold closeLine
  dsimp only
  split_ifs
  · exact yields_require fun _ => ⟨.refl _, le_rfl⟩
  · refine yields_require fun _ => yields_require fun _ => ?_
    refine (pqueueInsert_yields lm i).bind ?_
    rintro lm' ⟨hst, hsz, -⟩
    exact ⟨hst, hsz ▸ Nat.le_succ _⟩

/-- What a move of the write pointer of `io` to `wp` is. -/
structure WpMoved (c : Cfg) (io : IoType) (s s' : ConvFtl) : Prop where
  frame : s' = { s with lm := s'.lm, wp := s'.wp, gcWp := s'.gcWp }
  touched : Touched NoStamp s s'
  other : ∀ io' ≠ io, s'.getWp io' = s.getWp io'
  pg_lt : (s.getWp io).pg < c.sp.pgsPerBlk
  pg_mod : (s'.getWp io).pg % c.sp.pgsPerOneshotpg = ((s.getWp io).pg + 1) % c.sp.pgsPerOneshotpg

theorem WpMoved.of_setWp {wp : WritePointer} {lm : LineMgmt} (hst : Stamped NoStamp s.lm.lines lm.lines)
    (hsz : s.lm.victimLinePq.size ≤ lm.victimLinePq.size) (hpg : (s.getWp io).pg < c.sp.pgsPerBlk)
    (hmod : wp.pg % c.sp.pgsPerOneshotpg = ((s.getWp io).pg + 1) % c.sp.pgsPerOneshotpg) :
    WpMoved c io s (({ s with lm := lm } : ConvFtl).setWp io wp) := by
  refine ⟨by cases io <;> rfl, ⟨?_, ?_, ?_⟩, ?_, hpg, ?_⟩
  · rw [ConvFtl.setWp_lm]; exact hst
  · rw [ConvFtl.setWp_lm]; exact hsz
  · intro b; rw [ConvFtl.setWp_blk]
  · intro io' hio
    exact (ConvFtl.getWp_setWp_of_ne _ hio _).trans (ConvFtl.getWp_congr rfl rfl _)
  · rw [ConvFtl.getWp_setWp]; exact hmod

theorem openLine_yields {lm : LineMgmt} {wpp : WritePointer}
    (hst : Stamped NoStamp s.lm.lines lm.lines)
    (hsz : s.lm.victimLinePq.size ≤ lm.victimLinePq.size) (hpg : (s.getWp io).pg < c.sp.pgsPerBlk)
    (hmod : wpp.pg % c.sp.pgsPerOneshotpg = ((s.getWp io).pg + 1) % c.sp.pgsPerOneshotpg) :
    Yields (WpMoved c io s) (openLine c { s with lm := lm } io wpp) := by
  refine yields_require fun _ => ?_
  unfold getNextFreeLine
  dsimp only
  cases lm.freeLineList with
  | nil => trivial
  | cons i rest =>
    refine yields_require fun _ => yields_require fun _ => ?_
    exact WpMoved.of_setWp hst hsz hpg hmod

/-- **`advance_write_pointer`** in any state. -/
theorem advanceWritePointer_yields (s : ConvFtl) (io : IoType) :
    Yields (WpMoved c io s) (advanceWritePointer c s io) := by
  unfold advanceWritePointer
  refine yields_require fun hpg => ?_
  have hmove {wp : WritePointer}
      (h : wp.pg % c.sp.pgsPerOneshotpg = ((s.getWp io).pg + 1) % c.sp.pgsPerOneshotpg) :
      WpMoved c io s (s.setWp io wp) := .of_setWp (.refl _) le_rfl hpg h
  have hopen {lm : LineMgmt} {wp : WritePointer} (hst : Stamped NoStamp s.lm.lines lm.lines)
      (hsz : s.lm.victimLinePq.size ≤ lm.victimLinePq.size)
      (h : wp.pg % c.sp.pgsPerOneshotpg = ((s.getWp io).pg + 1) % c.sp.pgsPerOneshotpg) :
      Yields (WpMoved c io s) (openLine c { s with lm := lm } io wp) :=
    openLine_yields hst hsz hpg h
  generalize s.getWp io = wp at hpg hmove hopen
  dsimp only
  by_cases h₁ : (wp.pg + 1) % c.sp.pgsPerOneshotpg ≠ 0
  · rw [if_pos h₁]; exact hmove rfl
  rw [if_neg h₁]
  -- from here on the page is the first one of a wordline
  rw [not_not.1 h₁] at hmove hopen
  have hle : c.sp.pgsPerOneshotpg ≤ wp.pg + 1 :=
    Nat.le_of_dvd (Nat.succ_pos _) (Nat.dvd_of_mod_eq_zero (not_not.1 h₁))
  have hstart : (wp.pg + 1 - c.sp.pgsPerOneshotpg) % c.sp.pgsPerOneshotpg = 0 := by
    rw [← Nat.mod_eq_sub_mod hle]; exact not_not.1 h₁
  refine yields_require fun _ => ?_
  by_cases h₂ : wp.ch + 1 ≠ c.sp.nchs
  · rw [if_pos h₂]; exact hmove hstart
  rw [if_neg h₂]
  refine yields_require fun _ => ?_
  by_cases h₃ : wp.lun + 1 ≠ c.sp.lunsPerCh
  · rw [if_pos h₃]; exact hmove hstart
  rw [if_neg h₃, Nat.sub_add_cancel hle]
  by_cases h₄ : wp.pg + 1 ≠ c.sp.pgsPerBlk
  · rw [if_pos h₄]; exact hmove (not_not.1 h₁)
  rw [if_neg h₄]
  refine (closeLine_yields s.lm wp.curline).bind ?_
  rintro lm ⟨hst, hsz⟩
  exact hopen hst hsz (Nat.zero_mod _)

/-! ## Writing one page -/

/-- What writing a page is, in any state. -/
structure PageMoved (c : Cfg) (io : IoType) (count : GcStats → GcStats) (s : ConvFtl) (p : Ppa)
    (s' : ConvFtl) : Prop where
  frame : s' = { s with
    maptbl := s'.maptbl, rmap := s'.rmap, blk := s'.blk, lm := s'.lm, wp := s'.wp
    gcWp := s'.gcWp, stats := count s.stats }
  touched : Touched NoStamp s s'
  page : p = (s.getWp io).page
  other : ∀ io' ≠ io, s'.getWp io' = s.getWp io'
  pg_lt : (s.getWp io).pg < c.sp.pgsPerBlk
  pg_mod : (s'.getWp io).pg % c.sp.pgsPerOneshotpg = ((s.getWp io).pg + 1) % c.sp.pgsPerOneshotpg

theorem writeNewPage_yields (s : ConvFtl) (io : IoType) (lpn : ℕ) (count : GcStats → GcStats) :
    Yields (fun r => PageMoved c io count s r.1 r.2) (writeNewPage c s io lpn count) := by
  unfold writeNewPage getNewPage setMaptblEnt setRmapEnt ppa2pgidx
  simp only [bind_assoc, pure_bind]
  refine yields_require fun _ => yields_require fun _ => yields_require fun _ => ?_
  refine (markPageValid_yields _ _).bind ?_
  rintro s₁ ⟨hf₁, ht₁⟩
  refine (advanceWritePointer_yields _ io).bind ?_
  rintro s₂ ⟨hf₂, ht₂, hother, hpg, hmod⟩
  have hwp (io' : IoType) : s₁.getWp io' = s.getWp io' := by
    rw [hf₁]; exact ConvFtl.getWp_congr rfl rfl io'
  have hwp' (io' : IoType) : ({ s₁ with stats := count s₁.stats } : ConvFtl).getWp io' = s.getWp io' :=
    (ConvFtl.getWp_congr rfl rfl io').trans (hwp io')
  refine ⟨?_, ⟨ht₁.lines.trans ht₂.lines, ht₁.size.trans ht₂.size, ?_⟩, rfl, ?_, ?_, ?_⟩
  · rw [hf₂, hf₁]
  · intro b; exact (ht₁.erase b).trans (ht₂.erase b)
  · intro io' hio; exact (hother io' hio).trans (hwp' io')
  · rwa [hwp'] at hpg
  · rwa [hwp'] at hmod

/-! ## Host writes and discards -/

theorem invalidateOldPage_yields (s : ConvFtl) (p : Ppa) :
    Yields (fun s' => s' = { s with blk := s'.blk, lm := s'.lm, rmap := s'.rmap } ∧
      Touched (· = s.curNsecs) s s') (invalidateOldPage c s p) := by
  unfold invalidateOldPage setRmapEnt ppa2pgidx
  refine (markPageInvalid_yields s p).bind ?_
  rintro s₁ ⟨hf, ht⟩
  simp only [bind_assoc, pure_bind]
  refine yields_require fun _ => ?_
  refine ⟨?_, ht.lines, ht.size, ht.erase⟩
  rw [hf]

/-- What a host write at time `nsecs` is, in any state. -/
structure HostMoved (c : Cfg) (nsecs : ℕ) (s : ConvFtl) (p : Ppa) (s' : ConvFtl) : Prop where
  frame : s' = { s with
    maptbl := s'.maptbl, rmap := s'.rmap, blk := s'.blk, lm := s'.lm, wp := s'.wp
    curNsecs := nsecs, stats := s.stats.countHost }
  touched : Touched (· = nsecs) s s'
  page : p = s.wp.page
  pg_lt : s.wp.pg < c.sp.pgsPerBlk
  pg_mod : s'.wp.pg % c.sp.pgsPerOneshotpg = (s.wp.pg + 1) % c.sp.pgsPerOneshotpg

theorem convWriteFtl_eq (s : ConvFtl) (lpn nsecs : ℕ) :
    convWriteFtl c s lpn nsecs =
      (if mappedPpa (s.maptbl lpn) then
        invalidateOldPage c { s with curNsecs := nsecs } (s.maptbl lpn)
      else pure { s with curNsecs := nsecs }) >>= fun s =>
        writeNewPage c s .userIo lpn GcStats.countHost := by
  unfold convWriteFtl
  dsimp only
  split_ifs <;> rfl

theorem convWriteFtl_yields (s : ConvFtl) (lpn nsecs : ℕ) :
    Yields (fun r => HostMoved c nsecs s r.1 r.2) (convWriteFtl c s lpn nsecs) := by
  rw [convWriteFtl_eq]
  refine Sat.bind (Q := fun s₁ => s₁ = { s with
    blk := s₁.blk, lm := s₁.lm, rmap := s₁.rmap, curNsecs := nsecs } ∧ Touched (· = nsecs) s s₁) ?_ ?_
  · split_ifs
    · refine (invalidateOldPage_yields _ _).mono (fun _ h => h) ?_
      rintro s₁ ⟨hf, ht⟩
      exact ⟨hf, ht.lines, ht.size, ht.erase⟩
    · exact ⟨rfl, .refl _, le_rfl, fun _ => le_rfl⟩
  rintro s₁ ⟨hf, ht⟩
  refine (writeNewPage_yields s₁ .userIo lpn GcStats.countHost).mono (fun _ h => h) ?_
  rintro ⟨p, s₂⟩ h
  change PageMoved c .userIo GcStats.countHost s₁ p s₂ at h
  have hgc : s₂.gcWp = s₁.gcWp := h.other .gcIo (by simp)
  have hwp : s₁.getWp .userIo = s.wp := by rw [hf]; rfl
  have hframe := h.frame
  dsimp only at hframe hgc ⊢
  rw [hgc] at hframe
  refine ⟨?_, ht.trans h.touched.of_noStamp, ?_, ?_, ?_⟩
  · rw [hframe, hf]
  · rw [h.page, hwp]
  · have hpg := h.pg_lt; rwa [hwp] at hpg
  · have hmod := h.pg_mod; rwa [hwp] at hmod

theorem discardFtl_yields (s : ConvFtl) (lpn now : ℕ) :
    Yields (fun s' => s' = s ∨ Touched (· = now) s s' ∧ s' = { s with
        maptbl := s'.maptbl, rmap := s'.rmap, blk := s'.blk, lm := s'.lm, curNsecs := now
        dsmInvalidatedPages := s.dsmInvalidatedPages + 1 }) (discardFtl c s lpn now) := by
  unfold discardFtl
  dsimp only
  split_ifs
  · exact .inl rfl
  · refine (invalidateOldPage_yields _ _).bind ?_
    rintro s₁ ⟨hf, ht⟩
    refine .inr ⟨⟨ht.lines, ht.size, ht.erase⟩, ?_⟩
    rw [hf]

end WaitGc

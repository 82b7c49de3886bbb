/-
  WAITGC verification — the victim of the cost-benefit and the isotonic build.

  `select_victim_cost_benefit` scans the queue from slot `1` to slot `size`.  The members are in
  the slots below `size`, so the last slot it reads holds what an earlier operation or the
  allocator left there.  `cost_benefit_best`: as long as that slot was harmless at each selection
  of a run (`StaleHarmless`), the queue holds the garbage, and the selection takes the best line
  of it exactly if the slot is harmless again.  Only an empty queue is not read beyond its members.
-/
import WaitGc.Lib.Best
import WaitGc.Theorems.GreedyVictim

namespace WaitGc

open Outcome Function Pqueue Best

variable {c : Cfg} {s s₁ : ConvFtl} {d : Device} {pl : ℕ → Place} {i j v part : ℕ} {junk : ℕ → ℕ → Slot}
  {clock : ℕ → ℕ} {dev : Dev} {es : List Event}

/-! ## The order of the lines -/

/-- Line `i` has the larger score, or as large a one and fewer valid pages, or as many of them and
    the smaller id. -/
def ConvFtl.Better (c : Cfg) (s : ConvFtl) (i j : ℕ) : Prop := Beats s (candidate c s i) (candidate c s j)

instance (c : Cfg) (s : ConvFtl) : DecidableRel (s.Better c) :=
  fun i j => inferInstanceAs (Decidable (Beats s (candidate c s i) (candidate c s j)))

/-- The selection `r` from the FTL `s`: the best line of the garbage, which has left the queue. -/
structure BestVictim (c : Cfg) (s : ConvFtl) (r : Option ℕ × ConvFtl) : Prop where
  none_iff : r.1 = none ↔ garbage c s = ∅
  idle : r.1 = none → r.2 = s
  best : ∀ v, r.1 = some v → v ∈ garbage c s ∧ ∀ i ∈ garbage c s, i ≠ v → s.Better c v i
  leaves : ∀ v, r.1 = some v → (r.2.lm.lines v).pos = 0 ∧ QueueHolds r.2 (garbage c s \ {v})
  counts : ∀ i, (r.2.lm.lines i).vpc = (s.lm.lines i).vpc ∧ (r.2.lm.lines i).ipc = (s.lm.lines i).ipc

/-! ## The slot after the last member -/

/-- A slot that holds the line `a`, or a better one. -/
def HoldsBetter (c : Cfg) (s : ConvFtl) (a : ℕ) : Slot → Prop
  | .ptr i => i = a ∨ s.Better c i a
  | _ => False

instance (c : Cfg) (s : ConvFtl) (a : ℕ) : (sl : Slot) → Decidable (HoldsBetter c s a sl)
  | .null => .isFalse id
  | .wild => .isFalse id
  | .ptr i => inferInstanceAs (Decidable (i = a ∨ s.Better c i a))

/-- `NULL`, or a line that is a member or worse than one. -/
def HarmlessSlot (c : Cfg) (s : ConvFtl) : Slot → Prop
  | .null => True
  | .wild => False
  | .ptr a => a < c.sp.ttLines ∧
      ∃ k ∈ List.range' 1 (s.lm.victimLinePq.size - 1), HoldsBetter c s a (s.lm.victimLinePq.d k)

instance (c : Cfg) (s : ConvFtl) : (sl : Slot) → Decidable (HarmlessSlot c s sl)
  | .null => .isTrue trivial
  | .wild => .isFalse id
  | .ptr a => inferInstanceAs (Decidable (a < c.sp.ttLines ∧ _))

/-- There is no member, or the slot after the last one is harmless. -/
def StaleHarmless (c : Cfg) (s : ConvFtl) : Prop :=
  s.lm.victimLinePq.size = 1 ∨ HarmlessSlot c s (s.lm.victimLinePq.d s.lm.victimLinePq.size)

instance (c : Cfg) (s : ConvFtl) : Decidable (StaleHarmless c s) := inferInstanceAs (Decidable (_ ∨ _))

/-- Another word in slot `k` of the queue. -/
def ConvFtl.setSlot (s : ConvFtl) (k : ℕ) (x : Slot) : ConvFtl :=
  { s with lm := { s.lm with victimLinePq := s.lm.victimLinePq.set k x } }

/-- The line that is selected does not depend on the slots beyond the members. -/
def ReadsMembersOnly (c : Cfg) (s : ConvFtl) : Prop :=
  ∀ k x, s.lm.victimLinePq.size ≤ k →
    (selectVictimLine c (s.setSlot k x) true).map Prod.fst = (selectVictimLine c s true).map Prod.fst

/-! ## The lines are ranked -/

theorem better_iff : s.Better c i j ↔ (candidate c s j).score < (candidate c s i).score ∨
    ((candidate c s i).score = (candidate c s j).score ∧ (s.lm.lines i).vpc < (s.lm.lines j).vpc) ∨
    ((candidate c s i).score = (candidate c s j).score ∧ (s.lm.lines i).vpc = (s.lm.lines j).vpc ∧
      (s.lm.lines i).id < (s.lm.lines j).id) := Iff.rfl

theorem Shelved.ranks (h : Shelved c s.lm pl) : Ranks (s.Better c) {i | i < c.sp.blksPerPl} where
  trans i j k := by
    rw [better_iff, better_iff, better_iff]
    omega
  irrefl i := by
    rw [better_iff]
    omega
  total i hi j hj hne := by
    have hidi := h.id_eq i hi
    have hidj := h.id_eq j hj
    rw [better_iff, better_iff]
    omega

theorem Sampled.candidate (h : Sampled s s₁) (i : ℕ) : candidate c s₁ i = candidate c s i := by
  have hl := h.line i
  have hage : lineAgeNs s₁ (s₁.lm.lines i) = lineAgeNs s (s.lm.lines i) := by
    rw [lineAgeNs, lineAgeNs, hl.time, h.ftl.2.2.2.2]
  have hscore (v : ℕ) : costBenefitScore (s₁.lm.lines i) v = costBenefitScore (s.lm.lines i) v := by
    rw [costBenefitScore, costBenefitScore, hl.ipc, hl.vpc]
  unfold WaitGc.candidate
  simp only [hage, hscore]

theorem Sampled.beats (h : Sampled s s₁) (x y : Candidate) : Beats s₁ x y ↔ Beats s x y := by
  unfold Beats
  simp only [(h.line _).vpc, (h.line _).id]

/-! ## The scan -/

/-- The lines that a scan of the slots `l` visits. -/
def visited (s : ConvFtl) (l : List ℕ) : Set ℕ := {a | ∃ k ∈ l, s.lm.victimLinePq.d k = .ptr a}

/-- No slot of `l` is a stray pointer. -/
def Readable (c : Cfg) (s : ConvFtl) (l : List ℕ) : Prop :=
  ∀ k ∈ l, ∃ r, derefLine c (s.lm.victimLinePq.d k) = .ok r

theorem Readable.concat {l : List ℕ} {k : ℕ} {r : Option ℕ} (h : Readable c s l)
    (hr : derefLine c (s.lm.victimLinePq.d k) = .ok r) : Readable c s (l ++ [k]) := by
  intro j hj
  rcases List.mem_append.1 hj with hj | hj
  · exact h j hj
  · exact ⟨r, List.mem_singleton.1 hj ▸ hr⟩

theorem not_readable {l pre post : List ℕ} {k : ℕ} {e : Fault} (hl : l = pre ++ k :: post)
    (he : derefLine c (s.lm.victimLinePq.d k) = .error e) : ¬ Readable c s l := by
  intro h
  obtain ⟨r, hr⟩ := h k (by simp [hl])
  rw [he] at hr
  cases hr

theorem Readable.visited_subset {l : List ℕ} (h : Readable c s l) : visited s l ⊆ {i | i < c.sp.blksPerPl} := by
  rintro a ⟨k, hk, hd⟩
  obtain ⟨r, hr⟩ := h k hk
  rw [hd, derefLine] at hr
  split_ifs at hr with ha
  rwa [Geometry.ttLines_eq'] at ha

theorem visited_concat_null {l : List ℕ} {k : ℕ} (hd : s.lm.victimLinePq.d k = .null) :
    visited s (l ++ [k]) = visited s l := by
  ext a
  simp [visited, or_and_right, exists_or, hd]

theorem visited_concat_ptr {l : List ℕ} {k a : ℕ} (hd : s.lm.victimLinePq.d k = .ptr a) :
    visited s (l ++ [k]) = insert a (visited s l) := by
  ext b
  simp [visited, or_and_right, exists_or, hd, or_comm, eq_comm]

/-- The variables of the scan after the slots `pre`. -/
structure ScanBest (c : Cfg) (s : ConvFtl) (pre : List ℕ) (acc : Option Candidate × GcStats) : Prop where
  readable : Readable c s pre
  best : ∃ o : Option ℕ, acc.1 = o.map (candidate c s) ∧ IsBest (s.Better c) (visited s pre) o

/-- One slot of the scan. -/
theorem scanCandidate_best (h : Shelved c s.lm pl) (hs : Sampled s s₁) {pre post : List ℕ} {k : ℕ}
    {acc : Option Candidate × GcStats} (hl : scanSlots s.lm.victimLinePq = pre ++ k :: post)
    (hb : ScanBest c s pre acc) :
    Sat (fun _ => ¬ Readable c s (scanSlots s.lm.victimLinePq)) (ScanBest c s (pre ++ [k]))
      (scanCandidate c s₁ acc k) := by
  obtain ⟨best, stats⟩ := acc
  obtain ⟨hread, o, rfl, hbest⟩ := hb
  unfold scanCandidate
  rw [hs.ftl.1]
  cases hr : derefLine c (s.lm.victimLinePq.d k) with
  | error e => exact not_readable hl hr
  | ok r =>
    have hread' := hread.concat hr
    obtain ⟨hnull, hptr⟩ := (derefLine_yields (c := c) (s.lm.victimLinePq.d k)).of_ok hr
    cases r with
    | none => exact ⟨hread', o, rfl, by rwa [visited_concat_null (hnull rfl)]⟩
    | some a =>
      have hvisit : visited s (pre ++ [k]) = _ := visited_concat_ptr (hptr a rfl).1
      have hnew := hbest.visit (h.ranks.mono (hvisit ▸ hread'.visited_subset))
      rw [← hvisit] at hnew
      cases o with
      | none => exact ⟨hread', some a, congrArg some (hs.candidate a), hnew⟩
      | some b =>
        refine ⟨hread', _, congrArg some ?_, hnew⟩
        show (if Beats s₁ (candidate c s₁ a) (candidate c s b) then candidate c s₁ a else candidate c s b) =
          candidate c s (if s.Better c a b then a else b)
        rw [hs.candidate a, apply_ite (candidate c s)]
        exact if_congr (hs.beats _ _) rfl rfl

/-- **The scan** finds the best line that it visits. -/
theorem scan_best (h : Shelved c s.lm pl) (hs : Sampled s s₁) (st : GcStats) :
    Sat (fun _ => ¬ Readable c s (scanSlots s.lm.victimLinePq))
      (ScanBest c s (scanSlots s.lm.victimLinePq))
      ((scanSlots s₁.lm.victimLinePq).foldlM (scanCandidate c s₁) (none, st)) := by
  rw [hs.ftl.1]
  refine sat_foldlM (ScanBest c s) _ (fun _ _ _ _ hl hb => scanCandidate_best h hs hl hb) ?_
  refine ⟨fun k hk => (nomatch hk), none, rfl, ?_⟩
  exact Set.eq_empty_of_forall_notMem fun a ⟨k, hk, _⟩ => nomatch hk

theorem isotonicSampleCandidates_readable (s : ConvFtl) :
    Sat (fun _ => ¬ Readable c s (scanSlots s.lm.victimLinePq)) (Sampled s)
      (isotonicSampleCandidates c s) := by
  unfold isotonicSampleCandidates
  split_ifs
  swap
  · exact .refl s
  refine sat_foldlM (fun _ => Sampled s) _ ?_ (.refl s)
  intro pre k post s₁ hl h
  rw [h.ftl.1]
  cases hr : derefLine c (s.lm.victimLinePq.d k) with
  | error e => exact not_readable hl hr
  | ok r =>
    cases r with
    | none => exact h
    | some a => exact h.trans (isotonicSampleLine_sampled s₁ a)

/-! ## The slots of the queue -/

theorem scanSlots_eq {q : Pqueue} (h : 1 ≤ q.size) : scanSlots q = List.range' 1 (q.size - 1) ++ [q.size] := by
  obtain ⟨n, hn⟩ : ∃ n, q.size = n + 1 := ⟨q.size - 1, by omega⟩
  rw [scanSlots, hn, Nat.add_sub_cancel, List.range'_1_concat, Nat.add_comm 1 n]

theorem Shelved.visited_members (h : Shelved c s.lm pl) :
    visited s (List.range' 1 (s.lm.victimLinePq.size - 1)) = linesAt c pl .victim := by
  ext a
  constructor
  · rintro ⟨k, hk, hd⟩
    rw [List.mem_range'_1] at hk
    obtain ⟨b, hb, hdb, -⟩ := h.linked.slot k hk.1 (by omega)
    rw [hd] at hdb
    exact Slot.ptr.inj hdb ▸ hb
  · intro ha
    obtain ⟨h₁, hlt, hd⟩ := h.linked.node a ha
    exact ⟨_, List.mem_range'_1.2 ⟨h₁, by omega⟩, hd⟩

theorem Shelved.readable_members (h : Shelved c s.lm pl) :
    Readable c s (List.range' 1 (s.lm.victimLinePq.size - 1)) := by
  intro k hk
  rw [List.mem_range'_1] at hk
  obtain ⟨b, hb, hd, -⟩ := h.linked.slot k hk.1 (by omega)
  exact ⟨some b, hd ▸ derefLine_ptr hb.1⟩

theorem Shelved.harmless_ptr_iff (h : Shelved c s.lm pl) {a : ℕ} :
    HarmlessSlot c s (.ptr a) ↔ a < c.sp.ttLines ∧
      (a ∈ linesAt c pl .victim ∨ ∃ i ∈ linesAt c pl .victim, s.Better c i a) := by
  refine and_congr_right fun _ => ?_
  rw [← h.visited_members]
  constructor
  · rintro ⟨k, hk, hbetter⟩
    cases hd : s.lm.victimLinePq.d k with
    | null => rw [hd] at hbetter; exact hbetter.elim
    | wild => rw [hd] at hbetter; exact hbetter.elim
    | ptr i =>
      rw [hd] at hbetter
      rcases hbetter with rfl | hbetter
      · exact .inl ⟨k, hk, hd⟩
      · exact .inr ⟨i, ⟨k, hk, hd⟩, hbetter⟩
  · rintro (⟨k, hk, hd⟩ | ⟨i, ⟨k, hk, hd⟩, hbetter⟩)
    · exact ⟨k, hk, by rw [hd]; exact .inl rfl⟩
    · exact ⟨k, hk, by rw [hd]; exact .inr hbetter⟩

theorem Shelved.readable_of_harmless (h : Shelved c s.lm pl)
    (hh : HarmlessSlot c s (s.lm.victimLinePq.d s.lm.victimLinePq.size)) :
    Readable c s (scanSlots s.lm.victimLinePq) := by
  rw [scanSlots_eq h.linked.size_pos]
  cases hd : s.lm.victimLinePq.d s.lm.victimLinePq.size with
  | null => exact h.readable_members.concat (r := none) (by rw [hd]; rfl)
  | wild => rw [hd] at hh; exact hh.elim
  | ptr a =>
    rw [hd] at hh
    exact h.readable_members.concat (r := some a) (by rw [hd]; exact if_pos hh.1)

/-- **The slot is harmless** exactly if the scan finds a member. -/
theorem Shelved.harmless_iff (h : Shelved c s.lm pl) {b : ℕ}
    (hread : Readable c s (scanSlots s.lm.victimLinePq))
    (hb : IsBest (s.Better c) (visited s (scanSlots s.lm.victimLinePq)) (some b)) :
    HarmlessSlot c s (s.lm.victimLinePq.d s.lm.victimLinePq.size) ↔ b ∈ linesAt c pl .victim := by
  have hranks := h.ranks.mono hread.visited_subset
  rw [scanSlots_eq h.linked.size_pos] at hread hb hranks
  obtain ⟨r, hr⟩ := hread s.lm.victimLinePq.size (by simp)
  cases hd : s.lm.victimLinePq.d s.lm.victimLinePq.size with
  | null =>
    rw [visited_concat_null hd, h.visited_members] at hb
    exact iff_of_true trivial hb.1
  | wild =>
    rw [hd] at hr
    cases hr
  | ptr a =>
    rw [hd] at hr
    have ha : a < c.sp.ttLines := by
      rw [derefLine] at hr
      split_ifs at hr with ha
      exact ha
    rw [visited_concat_ptr hd, h.visited_members] at hb hranks
    rw [h.harmless_ptr_iff, hb.mem_iff hranks]
    exact and_iff_right ha

/-! ## The selection -/

/-- What the selection from a queue with members returns. -/
structure SelectedBest (c : Cfg) (s : ConvFtl) (pl : ℕ → Place) (r : Option ℕ × ConvFtl) (b : ℕ) : Prop where
  some_eq : r.1 = some b
  readable : Readable c s (scanSlots s.lm.victimLinePq)
  best : IsBest (s.Better c) (visited s (scanSlots s.lm.victimLinePq)) (some b)
  member_iff : HarmlessSlot c s (s.lm.victimLinePq.d s.lm.victimLinePq.size) ↔ b ∈ linesAt c pl .victim
  phys : b ∈ linesAt c pl .victim → Phys c r.2 (update pl b .gone) (posOf c r.2)

theorem selectVictimLine_eq (hpol : c.build.policy ≠ .greedy) (s : ConvFtl) (force : Bool) :
    selectVictimLine c s force = selectVictimCostBenefit c s force := by
  unfold selectVictimLine
  cases hp : c.build.policy with
  | greedy => exact absurd hp hpol
  | ageCb profile => rfl
  | isotonic table => rfl

theorem selectVictimLine_empty (hpol : c.build.policy ≠ .greedy) (h : s.lm.victimLinePq.size = 1) :
    selectVictimLine c s true = .ok (none, s) := by
  rw [selectVictimLine_eq hpol, selectVictimCostBenefit, if_neg (by omega), pqueuePeek, if_pos h]
  rfl

/-- **A queue with members**: the selection returns the best line that the scan visits. -/
theorem FtlOk.selectVictimLine_best (hpol : c.build.policy ≠ .greedy) (h : FtlOk c s pl)
    (hlt : 1 < s.lm.victimLinePq.size) :
    Sat (fun _ => ¬ HarmlessSlot c s (s.lm.victimLinePq.d s.lm.victimLinePq.size))
      (fun r => ∃ b, SelectedBest c s pl r b) (selectVictimLine c s true) := by
  have hsh := h.phys.shelved
  obtain ⟨g, hg, hd, -⟩ := hsh.linked.slot 1 le_rfl hlt
  have hunread : ¬ Readable c s (scanSlots s.lm.victimLinePq) →
      ¬ HarmlessSlot c s (s.lm.victimLinePq.d s.lm.victimLinePq.size) := mt hsh.readable_of_harmless
  rw [selectVictimLine_eq hpol, selectVictimCostBenefit, if_neg (by omega), pqueuePeek, if_neg (by omega), hd,
    derefLine_ptr hg.1, ok_bind]
  dsimp only
  rw [if_neg (by simp)]
  refine ((isotonicSampleCandidates_readable s).mono (fun _ => hunread) fun _ hs => hs).bind ?_
  intro s₁ hs
  refine ((scan_best hsh hs _).mono (fun _ => hunread) fun _ hb => hb).bind ?_
  rintro ⟨best, stats⟩ ⟨hread, o, ho, hbest⟩
  cases o with
  | none =>
    -- the head of the queue is visited
    have hhead : g ∈ visited s (scanSlots s.lm.victimLinePq) :=
      ⟨1, List.mem_range'_1.2 ⟨le_rfl, by omega⟩, hd⟩
    rw [show visited s (scanSlots s.lm.victimLinePq) = ∅ from hbest] at hhead
    exact absurd hhead (Set.notMem_empty g)
  | some b =>
    obtain rfl : best = some (candidate c s b) := ho
    have hiff := hsh.harmless_iff hread hbest
    dsimp only
    rw [show (candidate c s b).line = b from rfl]
    by_cases hb : b ∈ linesAt c pl .victim
    · have hp₁ := hs.phys h.phys
      obtain ⟨q, ls, he, hpo, hsh₁⟩ := hp₁.shelved.remove hb.1 hb.2
      obtain ⟨-, -, hwp, hgc, -⟩ := hs.ftl
      rw [he, ok_bind]
      refine ⟨b, rfl, hread, hbest, hiff, fun _ => ?_⟩
      rw [← posOf_congr (c := c) hwp hgc] at hp₁
      exact (hp₁.take hb.2 hsh₁ hpo).congr rfl rfl fun io => ConvFtl.getWp_congr rfl rfl io
    · cases s₁.lm.withPq (s₁.lm.victimLinePq.pqueueRemove victimLine s₁.lm.lines b) with
      | error e => exact mt hiff.1 hb
      | ok lm => exact ⟨b, rfl, hread, hbest, hiff, fun hmem => absurd hmem hb⟩

theorem FtlOk.garbage_empty_iff (h : FtlOk c s pl) : garbage c s = ∅ ↔ s.lm.victimLinePq.size = 1 := by
  have hlinked := h.phys.shelved.linked
  rw [h.garbage_eq]
  constructor
  · intro hempty
    by_contra hne
    obtain ⟨a, ha, -⟩ := hlinked.slot 1 le_rfl (lt_of_le_of_ne hlinked.size_pos (Ne.symm hne))
    exact Set.notMem_empty a (hempty ▸ ha)
  · intro hsize
    refine Set.eq_empty_of_forall_notMem fun a ha => ?_
    obtain ⟨h₁, hlt, -⟩ := hlinked.node a ha
    omega

theorem SelectedBest.bestVictim {r : Option ℕ × ConvFtl} {b : ℕ} (hr : SelectedBest c s pl r b)
    (h : FtlOk c s pl) (hsel : Selection c s true r) (hb : b ∈ linesAt c pl .victim) : BestVictim c s r := by
  obtain ⟨r₁, r₂⟩ := r
  obtain rfl : r₁ = some b := hr.some_eq
  have hsub : linesAt c pl .victim ⊆ visited s (scanSlots s.lm.victimLinePq) := by
    rw [← h.phys.shelved.visited_members, scanSlots_eq h.phys.shelved.linked.size_pos]
    rintro a ⟨k, hk, hd⟩
    exact ⟨k, List.mem_append_left _ hk, hd⟩
  have hphys := hr.phys hb
  refine ⟨?_, fun hnone => (nomatch hnone), ?_, ?_, ?_⟩
  · rw [h.garbage_eq]
    exact ⟨fun hnone => (nomatch hnone), fun hempty => absurd (hempty ▸ hb) (Set.notMem_empty b)⟩
  · rintro v ⟨⟩
    rw [h.garbage_eq]
    exact ⟨hb, fun i hi => hr.best.2 i (hsub hi)⟩
  · rintro v ⟨⟩
    refine ⟨hphys.shelved.pos_eq b hb.1 (by rw [update_self]; simp), ?_⟩
    have hrest := hphys.shelved.queueHolds
    rwa [linesAt_update_leave (by simp), ← h.garbage_eq] at hrest
  · exact fun i => ⟨(hsel.2.line i).vpc, (hsel.2.line i).ipc⟩

/-- **The selection is right** exactly if the slot is harmless. -/
theorem FtlOk.bestVictim_iff (hpol : c.build.policy ≠ .greedy) (h : FtlOk c s pl) :
    (∃ r, selectVictimLine c s true = .ok r ∧ BestVictim c s r) ↔ StaleHarmless c s := by
  by_cases h1 : s.lm.victimLinePq.size = 1
  · refine iff_of_true ⟨_, selectVictimLine_empty hpol h1, ?_⟩ (.inl h1)
    have hempty := h.garbage_empty_iff.2 h1
    exact ⟨⟨fun _ => hempty, fun _ => rfl⟩, fun _ => rfl, fun v hv => (nomatch hv),
      fun v hv => (nomatch hv), fun _ => ⟨rfl, rfl⟩⟩
  have hlt : 1 < s.lm.victimLinePq.size := lt_of_le_of_ne h.phys.shelved.linked.size_pos (Ne.symm h1)
  have hspec := h.selectVictimLine_best hpol hlt
  constructor
  · rintro ⟨r, hr, hbest⟩
    obtain ⟨b, hsel⟩ := hspec.of_ok hr
    have hb := (hbest.best b hsel.some_eq).1
    rw [h.garbage_eq] at hb
    exact .inr (hsel.member_iff.2 hb)
  · intro hh
    have hharm := hh.resolve_left h1
    obtain ⟨r, hr, b, hsel⟩ := hspec.exists_ok fun _ hn => hn hharm
    have hselection := (selectVictimLine_yields s true).of_ok hr
    exact ⟨r, hr, hsel.bestVictim h hselection (hsel.member_iff.1 hharm)⟩

/-- A collection from a queue whose slot is harmless takes a member. -/
theorem collectable_of_harmless (hpol : c.build.policy ≠ .greedy) (hh : StaleHarmless c s) :
    Collectable c (fun _ => False) s := by
  intro pl h
  have hyields := selectVictimLine_yields (c := c) s true
  unfold Selects
  by_cases h1 : s.lm.victimLinePq.size = 1
  · have hrun := selectVictimLine_empty hpol h1
    rw [hrun] at hyields ⊢
    exact ⟨hyields, fun v hv => (nomatch hv)⟩
  have hlt : 1 < s.lm.victimLinePq.size := lt_of_le_of_ne h.phys.shelved.linked.size_pos (Ne.symm h1)
  have hharm := hh.resolve_left h1
  obtain ⟨r, hr, b, hsel⟩ := (h.selectVictimLine_best hpol hlt).exists_ok fun _ hn => hn hharm
  have hb := hsel.member_iff.1 hharm
  rw [hr] at hyields ⊢
  refine ⟨hyields, fun v hv => ?_⟩
  refine Selection.taken hyields (fun w hw => ?_) hv
  obtain rfl : b = w := Option.some.inj (hsel.some_eq.symm.trans hw)
  exact ⟨hb.1, hb.2, hsel.phys hb⟩

/-! ## The slots that are read -/

theorem FtlOk.setSlot (h : FtlOk c s pl) {k : ℕ} (hk : s.lm.victimLinePq.size ≤ k) (x : Slot) :
    FtlOk c (s.setSlot k x) pl := by
  have hsh := h.phys.shelved
  have hslot {j : ℕ} (hj : j < s.lm.victimLinePq.size) :
      (s.setSlot k x).lm.victimLinePq.d j = s.lm.victimLinePq.d j := update_of_ne (by omega) _ _
  have hlinked : Linked victimLine (s.setSlot k x).lm.victimLinePq s.lm.lines (linesAt c pl .victim) := by
    refine ⟨hsh.linked.size_pos, fun j h₁ hj => ?_, fun a ha => ?_⟩
    · rw [hslot hj]
      exact hsh.linked.slot j h₁ hj
    · obtain ⟨h₁, hlt, hd⟩ := hsh.linked.node a ha
      exact ⟨h₁, hlt, (hslot hlt).trans hd⟩
  have horder : Sorted victimLine (s.setSlot k x).lm.victimLinePq s.lm.lines := by
    intro j h₂ hj
    have hjs : j < s.lm.victimLinePq.size := hj
    have hord := hsh.order j h₂ hj
    unfold slotPri at hord ⊢
    rwa [hslot hjs, hslot (by omega)]
  exact { h with phys := { h.phys with shelved := { hsh with linked := hlinked, order := horder } } }

theorem FtlOk.readsMembersOnly_iff (hpol : c.build.policy ≠ .greedy) (h : FtlOk c s pl) :
    ReadsMembersOnly c s ↔ garbage c s = ∅ := by
  rw [h.garbage_empty_iff]
  constructor
  · intro hreads
    by_contra h1
    -- `NULL` in the slot after the last member is skipped, a stray pointer is dereferenced
    have hnull := hreads s.lm.victimLinePq.size .null le_rfl
    have hwild := hreads s.lm.victimLinePq.size .wild le_rfl
    have hslot (x : Slot) : (s.setSlot s.lm.victimLinePq.size x).lm.victimLinePq.d s.lm.victimLinePq.size = x :=
      update_self _ _ _
    have hharm : HarmlessSlot c (s.setSlot s.lm.victimLinePq.size .null)
        ((s.setSlot s.lm.victimLinePq.size .null).lm.victimLinePq.d s.lm.victimLinePq.size) := by
      rw [hslot]
      trivial
    obtain ⟨r, hr, -⟩ := ((h.setSlot le_rfl .null).bestVictim_iff hpol).2 (.inr hharm)
    rw [hr, ← hwild] at hnull
    obtain ⟨r', hr', -⟩ := exists_ok_of_map hnull.symm
    have hlt : 1 < s.lm.victimLinePq.size := lt_of_le_of_ne h.phys.shelved.linked.size_pos (Ne.symm h1)
    obtain ⟨b, hsel⟩ := ((h.setSlot le_rfl .wild).selectVictimLine_best hpol hlt).of_ok hr'
    have hmem : s.lm.victimLinePq.size ∈ List.range' 1 s.lm.victimLinePq.size :=
      List.mem_range'_1.2 ⟨hlt.le, by omega⟩
    obtain ⟨r'', hderef⟩ := hsel.readable _ hmem
    rw [hslot] at hderef
    cases hderef
  · intro h1 k x hk
    rw [selectVictimLine_empty hpol h1, selectVictimLine_empty (s := s.setSlot k x) hpol h1]
    rfl

/-- **The cost-benefit and the isotonic selection**: as long as the slot after the last member was
    harmless at each collection, the queue holds the garbage; the best line of it is selected
    exactly if the slot is harmless; and only an empty queue is not read beyond its members. -/
theorem cost_benefit_best (hpol : c.build.policy ≠ .greedy) (hinit : convInitNamespace c junk clock = .ok dev)
    (hsel : (device c).Along (GcIn c (StaleHarmless c)) ⟨dev, none⟩ es)
    (hrun : (device c).run ⟨dev, none⟩ es = .ok d) (hpart : part < c.nrParts) :
    QueueHolds (d.dev.ftls part) (garbage c (d.dev.ftls part)) ∧
      ((∃ r, selectVictimLine c (d.dev.ftls part) true = .ok r ∧ BestVictim c (d.dev.ftls part) r) ↔
        StaleHarmless c (d.dev.ftls part)) ∧
      (ReadsMembersOnly c (d.dev.ftls part) ↔ garbage c (d.dev.ftls part) = ∅) := by
  have h₀ : DevInv c (fun _ => FtlInv c) ⟨dev, none⟩ := devInv_init (initial_inv c) hinit
  have hG : (device c).Along (GcIn c (Collectable c fun _ => False)) ⟨dev, none⟩ es :=
    hsel.mono fun d e h part hpart => collectable_of_harmless hpol (h part hpart)
  obtain ⟨⟨pl, hok⟩, -⟩ := (((ftlInv_rules c _).run h₀ hG).of_ok hrun).ftl part hpart
  refine ⟨?_, hok.bestVictim_iff hpol, hok.readsMembersOnly_iff hpol⟩
  rw [hok.garbage_eq]
  exact hok.phys.shelved.queueHolds

/-! ## Two queue arrays -/

/-- The build that selects by costs and benefits, on the device with four lines. -/
def duoCostBenefitCfg : Cfg := duoCfg ⟨.ageCb .flat, false, 0⟩

instance (c : Cfg) (G : ConvFtl → Prop) [DecidablePred G] (d : Device) (e : Event) :
    Decidable (GcIn c G d e) :=
  inferInstanceAs (Decidable (∀ part ∈ gcCall c d e, G (d.dev.ftls part)))

/-- `NULL` in all slots: a line is collected, and the queue holds the garbage then. -/
theorem cost_benefit_best_rewriteRun : ∃ dev d,
    convInitNamespace duoCostBenefitCfg (fun _ _ => .null) (fun _ => 0) = .ok dev ∧
      (device duoCostBenefitCfg).run ⟨dev, none⟩ rewriteRun = .ok d ∧
      QueueHolds (d.dev.ftls 0) (garbage duoCostBenefitCfg (d.dev.ftls 0)) := by
  have hcond : (convInitNamespace duoCostBenefitCfg (fun _ _ => .null) (fun _ => 0) >>= fun dev =>
      ((device duoCostBenefitCfg).run ⟨dev, none⟩ rewriteRun).map fun _ =>
        decide ((device duoCostBenefitCfg).Along (GcIn duoCostBenefitCfg (StaleHarmless duoCostBenefitCfg))
          ⟨dev, none⟩ rewriteRun)) = .ok true := by
    decide +kernel
  obtain ⟨dev, hinit, hcond⟩ := bind_eq_ok hcond
  obtain ⟨d, hrun, hcond⟩ := exists_ok_of_map hcond
  have hpol : GcPolicy.ageCb .flat ≠ .greedy := nofun
  have hbest := cost_benefit_best hpol hinit (of_decide_eq_true hcond) hrun Nat.one_pos
  exact ⟨dev, d, hinit, hrun, hbest.1⟩

/-- The pointer to line 3 in all slots: line 3 is selected, and it is free. -/
theorem cost_benefit_selects_free : ∃ d, Reachable duoCostBenefitCfg d ∧
    (∃ r, selectVictimLine duoCostBenefitCfg (d.dev.ftls 0) true = .ok r ∧ r.1 = some 3 ∧
      3 ∈ (d.dev.ftls 0).lm.freeLineList) ∧
    ¬ ∃ r, selectVictimLine duoCostBenefitCfg (d.dev.ftls 0) true = .ok r ∧
      BestVictim duoCostBenefitCfg (d.dev.ftls 0) r := by
  have hsel : (convInitNamespace duoCostBenefitCfg (fun _ _ => .ptr 3) (fun _ => 0) >>= fun dev =>
      (device duoCostBenefitCfg).run ⟨dev, none⟩ (rewriteRun.take 6) >>= fun d =>
        (selectVictimLine duoCostBenefitCfg (d.dev.ftls 0) true).map fun r =>
          (r.1, decide (3 ∈ (d.dev.ftls 0).lm.freeLineList))) = .ok (some 3, true) := by
    decide +kernel
  obtain ⟨dev, hinit, hsel⟩ := bind_eq_ok hsel
  obtain ⟨d, hrun, hsel⟩ := bind_eq_ok hsel
  obtain ⟨r, hr, hsel⟩ := exists_ok_of_map hsel
  obtain ⟨hsome, hfree⟩ := Prod.mk.inj hsel
  have hfree := of_decide_eq_true hfree
  refine ⟨d, ⟨_, _, dev, _, hinit, hrun⟩, ⟨r, hr, hsome, hfree⟩, ?_⟩
  rintro ⟨r', hr', hbest⟩
  rw [hr] at hr'
  obtain rfl := Except.ok.inj hr'
  exact (hbest.best 3 hsome).1.1.2.1 hfree

end WaitGc

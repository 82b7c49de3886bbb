/-
  WAITGC verification — the invariant of the whole system.

  * `ConvFtl.initial` is the FTL that `conv_init_ftl` builds.
  * `FtlInv` holds of it and is kept by host writes, deallocates and
    collections, as long as the lines that are selected come from the queue
    (`Collectable`).  The greedy policy always selects such a line.
  * `greedy_inv` and `greedy_faults`: the invariant holds in every reachable
    state, and no assertion fails but the one on the size of a transfer.
-/
import WaitGc.Proof.Device
import WaitGc.Proof.Room

namespace WaitGc

open Outcome Function

variable {c : Cfg} {s s' : ConvFtl} {d : Device} {E : Fault → Prop} {part : ℕ} {junk : ℕ → Slot}

/-! ## The initial state -/

/-- The FTL after `conv_init_ftl`: the first two lines are open. -/
def ConvFtl.initial (c : Cfg) (partId : ℕ) (junk : ℕ → Slot) : ConvFtl where
  maptbl _ := .unmapped
  rmap _ := INVALID_LPN
  blk _ := ⟨fun _ => .free, 0, 0, 0⟩
  wp := .fresh 0
  gcWp := .fresh 1
  lm :=
    { lines := fun i => ⟨i, 0, 0, 0, 0, false, 0, 0, 0⟩
      freeLineList := List.range' 2 (c.sp.blksPerPl - 2)
      victimLinePq := .init c.sp.ttLines junk
      fullLineList := []
      ttLines := c.sp.blksPerPl
      freeLineCnt := c.sp.blksPerPl - 2
      victimLineCnt := 0
      fullLineCnt := 0 }
  wfc := ⟨u32 c.sp.pgsPerLine, u32 c.sp.pgsPerLine⟩
  partId := partId
  curNsecs := 0
  dsmInvalidatedPages := 0
  stats := .init
  isoLog := []

/-- **`conv_init_ftl`** needs two lines. -/
theorem convInitFtl_eq (c : Cfg) (partId : ℕ) (junk : ℕ → Slot) :
    convInitFtl c partId junk =
      if 2 ≤ c.sp.blksPerPl then .ok (.initial c partId junk)
      else .error (.assert .prepareWritePointer) := by
  unfold convInitFtl initLines
  rw [nvmevAssert_pos Geometry.ttLines_eq'.symm]
  have hpos := c.geo.blks_pos
  by_cases h : 2 ≤ c.sp.blksPerPl
  · obtain ⟨n, hn⟩ : ∃ n, c.sp.blksPerPl = n + 2 := ⟨c.sp.blksPerPl - 2, by omega⟩
    rw [if_pos h, ConvFtl.initial, hn]
    simp only [List.range_eq_range', List.range'_succ, Nat.add_sub_cancel]
    rfl
  · have hn : c.sp.blksPerPl = 1 := by
      change 0 < c.sp.blksPerPl at hpos
      omega
    rw [if_neg h, hn]
    rfl

theorem convInitFtl_yields (c : Cfg) (partId : ℕ) (junk : ℕ → Slot) :
    Yields (fun s => s = .initial c partId junk ∧ 2 ≤ c.sp.blksPerPl)
      (convInitFtl c partId junk) := by
  rw [convInitFtl_eq]
  split_ifs with h
  · exact ⟨rfl, h⟩
  · trivial

/-- The places of the lines at the start. -/
def initialPlace (i : ℕ) : Place :=
  if i = 0 then .opened .userIo else if i = 1 then .opened .gcIo else .free

theorem initialPlace_free {i : ℕ} : initialPlace i = .free ↔ 2 ≤ i := by
  unfold initialPlace
  split_ifs <;> simp <;> omega

theorem initialPlace_ne {i : ℕ} : initialPlace i ≠ .full ∧ initialPlace i ≠ .victim ∧
    initialPlace i ≠ .gone := by
  unfold initialPlace
  split_ifs <;> simp

theorem initial_shelved (partId : ℕ) (junk : ℕ → Slot) :
    Shelved c (ConvFtl.initial c partId junk).lm initialPlace := by
  refine ⟨fun i _ => rfl, List.nodup_range', ?_, List.nodup_nil, ?_, ⟨le_rfl, ?_, ?_⟩,
    Heap.ordered_one _, fun i _ _ => rfl, ?_, rfl, rfl⟩
  · intro i
    change i ∈ List.range' 2 (c.sp.blksPerPl - 2) ↔ i < c.sp.blksPerPl ∧ initialPlace i = .free
    rw [List.mem_range'_1, initialPlace_free]
    omega
  · intro i
    refine ⟨fun h => (nomatch h), ?_⟩
    rintro ⟨-, hi⟩
    exact absurd hi initialPlace_ne.1
  · intro k h₁ hk
    exact absurd hk (Nat.not_lt.2 h₁)
  · rintro a ⟨-, ha⟩
    exact absurd ha initialPlace_ne.2.1
  · change c.sp.blksPerPl - 2 = (List.range' 2 (c.sp.blksPerPl - 2)).length
    rw [List.length_range']

theorem initial_posOf (hB : 2 ≤ c.sp.blksPerPl) (partId : ℕ) (junk : ℕ → Slot) (io : IoType) :
    posOf c (.initial c partId junk) io = 0 := by
  cases io with
  | userIo => exact (wpOk_fresh (c := c) (i := 0) (by omega)).2
  | gcIo => exact (wpOk_fresh (c := c) (i := 1) (by omega)).2

/-- **The initial state** is in the invariant. -/
theorem initial_ok (hB : 2 ≤ c.sp.blksPerPl) (partId : ℕ) (junk : ℕ → Slot) :
    FtlOk c (.initial c partId junk) initialPlace := by
  refine ⟨⟨initial_shelved partId junk, ?_, ?_, ?_, ?_, ?_, ?_⟩, ?_, ?_⟩
  · intro io
    cases io with
    | userIo => exact (wpOk_fresh (by omega)).1
    | gcIo => exact (wpOk_fresh (by omega)).1
  · intro io i _
    cases io with
    | userIo =>
      change initialPlace i = .opened .userIo ↔ i = 0
      unfold initialPlace
      split_ifs <;> simp_all
    | gcIo =>
      change initialPlace i = .opened .gcIo ↔ i = 1
      unfold initialPlace
      split_ifs <;> simp_all
  · intro io
    rw [initial_posOf hB]
    exact Nat.zero_le _
  · intro p _
    exact counted_free fun k _ => rfl
  · intro i _ _
    exact counted_free fun k _ => rfl
  · intro i _
    unfold initialPlace
    split_ifs
    · intro k _
      rw [initial_posOf hB]
      exact ⟨fun h => absurd rfl h, fun h => absurd h (Nat.not_lt_zero k)⟩
    · intro k _
      rw [initial_posOf hB]
      exact ⟨fun h => absurd rfl h, fun h => absurd h (Nat.not_lt_zero k)⟩
    · intro k _
      rfl
  · intro i _
    exact initialPlace_ne.2.2
  · exact mapOk_init (fun lpn _ => mappedPpa_unmapped) fun p _ => rfl

theorem initial_spaceLeft (hB : 2 ≤ c.sp.blksPerPl) (partId : ℕ) (junk : ℕ → Slot) :
    spaceLeft c (.initial c partId junk) = c.sp.ttPgs := by
  obtain ⟨n, hn⟩ : ∃ n, c.sp.blksPerPl = n + 2 := ⟨c.sp.blksPerPl - 2, by omega⟩
  rw [spaceLeft, openRoom, initial_posOf hB, initial_posOf hB, Geometry.ttPgs_eq_lines,
    Geometry.ttLines_eq']
  change (c.sp.blksPerPl - 2) * c.sp.pgsPerLine + c.sp.pgsPerLine + c.sp.pgsPerLine =
    c.sp.blksPerPl * c.sp.pgsPerLine
  rw [hn, Nat.add_sub_cancel]
  ring

theorem initial_waf (hB : 2 ≤ c.sp.blksPerPl) (partId : ℕ) (junk : ℕ → Slot) :
    Waf c (.initial c partId junk) where
  copied := rfl
  written := by
    rw [initial_spaceLeft hB]
    change 0 + 0 + c.sp.ttPgs = 0 * c.sp.pgsPerLine + c.sp.ttPgs
    ring
  erased := by
    rw [erases, devSum_eq]
    change ∑ i ∈ Finset.range c.sp.blksPerPl, lineSum c i (fun _ => 0) = 0 * c.sp.blksPerLine
    simp [lineSum_const]

/-! ## The invariant of an FTL -/

/-- The lines are shelved, the tables are right and the counters add up. -/
def FtlInv (c : Cfg) (s : ConvFtl) : Prop := (∃ pl, FtlOk c s pl) ∧ Waf c s

/-- `do_gc` will select a line of the queue. -/
def Collectable (c : Cfg) (E : Fault → Prop) (s : ConvFtl) : Prop :=
  ∀ pl, FtlOk c s pl → Selects c s pl E true

theorem FtlInv.congr (h : FtlInv c s) (hm : s'.maptbl = s.maptbl) (hr : s'.rmap = s.rmap)
    (hb : s'.blk = s.blk) (hlm : s'.lm = s.lm) (hwp : s'.wp = s.wp) (hgc : s'.gcWp = s.gcWp)
    (hst : s'.stats = s.stats) : FtlInv c s' := by
  obtain ⟨⟨pl, hok⟩, hwaf⟩ := h
  refine ⟨⟨pl, hok.congr hm hr hb hlm hwp hgc⟩, hwaf.congr ?_ ?_ (posOf_congr hwp hgc) ?_⟩
  · rw [hst]
  · rw [hlm]
  · intro b; rw [hb]

theorem doGc_inv (h : FtlInv c s) (hsel : Collectable c E s) (t : Timing) :
    Sat (fun e => E e ∨ e = .noFreeLine) (fun r => FtlInv c r.2.1) (doGc c s t true) := by
  obtain ⟨⟨pl, hok⟩, hwaf⟩ := h
  refine (doGc_done hok (hsel pl hok) t).mono ?_ ?_
  · rintro e (he | ⟨he, -⟩)
    · exact .inl he
    · exact .inr he
  · rintro ⟨done, s', t'⟩ ⟨pl', hdone⟩
    refine ⟨⟨pl', hdone.ftlOk hok⟩, ?_⟩
    cases hdone with
    | idle => exact hwaf
    | collected _ hT hE => exact hE.waf_ok hT.lt hwaf

/-- **Every step of an FTL keeps the invariant.** -/
theorem ftlInv_rules (c : Cfg) (E : Fault → Prop) :
    FtlRules c (fun e => E e ∨ e = .noFreeLine) (Collectable c E) fun _ => FtlInv c where
  write s lpn nsecs h hlpn := by
    obtain ⟨⟨pl, hok⟩, hwaf⟩ := h
    refine (convWriteFtl_ok hok hlpn nsecs).mono (fun e he => .inr he.1) ?_
    rintro ⟨p, s'⟩ ⟨pl', hw⟩
    have h' : FtlInv c s' := ⟨⟨pl', hw.ok⟩, hw.waf hwaf⟩
    obtain ⟨wfc, hcredit⟩ : ∃ wfc, consumeWriteCredit s' = { s' with wfc := wfc } := ⟨_, rfl⟩
    change FtlInv c (consumeWriteCredit s')
    rw [hcredit]
    exact h'.congr rfl rfl rfl rfl rfl rfl rfl
  discard s lpn now h hlpn := by
    obtain ⟨⟨pl, hok⟩, hwaf⟩ := h
    obtain ⟨s', he, rfl | ⟨pl', hd⟩⟩ := discardFtl_ok hok hlpn now
    · rw [he]; exact ⟨⟨pl, hok⟩, hwaf⟩
    · rw [he]; exact ⟨⟨pl', hd.ok⟩, hd.waf hwaf⟩
  refill s t h hsel := by
    rw [checkAndRefill_eq]
    split_ifs with h0 hlow
    · refine (doGc_inv h (hsel ⟨h0, hlow⟩) t).map_ok ?_
      rintro ⟨done, s', t'⟩ hr
      change FtlInv c s'.refill
      exact hr.congr rfl rfl rfl rfl rfl rfl rfl
    · change FtlInv c s.refill
      exact h.congr rfl rfl rfl rfl rfl rfl rfl
    · exact h

theorem initial_inv (c : Cfg) (partId : ℕ) (junk : ℕ → Slot) :
    Yields (FtlInv c) (convInitFtl c partId junk) := by
  refine (convInitFtl_yields c partId junk).mono (fun _ h => h) ?_
  rintro s ⟨rfl, hB⟩
  exact ⟨⟨_, initial_ok hB partId junk⟩, initial_waf hB partId junk⟩

/-! ## The greedy build -/

/-- The faults that are left. -/
def GreedyFault (c : Cfg) (e : Fault) : Prop :=
  e = .noFreeLine ∨ e = .assert .bufferSize ∨ c.build.isoLogSamples = true ∧ e = .wildPointer

theorem collectable_greedy (hpol : c.build.policy = .greedy) (s : ConvFtl) :
    Collectable c (fun e => c.build.isoLogSamples = true ∧ e = .wildPointer) s :=
  fun _ h => selects_greedy hpol h true

/-- **Every run of the greedy build** from its initialisation. -/
theorem greedy_run (hpol : c.build.policy = .greedy) {junk : ℕ → ℕ → Slot} {clock : ℕ → ℕ}
    {dev : Dev} (hinit : convInitNamespace c junk clock = .ok dev) (es : List Event) :
    Sat (GreedyFault c) (DevInv c fun _ => FtlInv c) ((device c).run ⟨dev, none⟩ es) := by
  have h₀ : DevInv c (fun _ => FtlInv c) ⟨dev, none⟩ := devInv_init (initial_inv c) hinit
  have hG : (device c).Along (GcIn c (Collectable c fun e =>
      c.build.isoLogSamples = true ∧ e = .wildPointer)) ⟨dev, none⟩ es :=
    (Machine.along_true _ es).mono fun d e _ part _ => collectable_greedy hpol _
  refine ((ftlInv_rules c _).run h₀ hG).mono ?_ fun _ h => h
  rintro e ((he | he) | he)
  · exact .inr (.inr he)
  · exact .inl he
  · exact .inr (.inl he)

/-- **The invariant holds in every reachable state.** -/
theorem greedy_inv (hpol : c.build.policy = .greedy) (h : Reachable c d) (hpart : part < c.nrParts) :
    FtlInv c (d.dev.ftls part) := by
  obtain ⟨junk, clock, dev, es, hinit, hrun⟩ := h
  exact ((greedy_run hpol hinit es).of_ok hrun).ftl part hpart

end WaitGc

/-
  WAITGC verification — admin commands are completed once.

  Every handler posts one completion, with two exceptions.  There is none for an
  abort: `__nvmev_proc_admin_req` leaves its case without a word.  And the handler
  that identifies a zoned namespace stops the kernel where the namespace id of the
  host leads behind the array, to a type that is zoned and a command set that is not.
  `admin_completed_iff`: a run gets to its end, and the completions answer the
  processed entries one by one, in order and with the phase of their lap, if and
  only if no entry that a doorbell announces is one of the two.
-/
import WaitGc.Io.Admin
import WaitGc.Lib.Ring

namespace WaitGc

open Outcome Function

variable {d d' e : AdminDev} {eid : ℤ} {q n : ℕ} {answered : List (ℤ × AdminCommand)}

/-- The `k`-th completion, `p`, answers the entry `c`: it stands in the next slot
    of a ring of `q` slots, on the `k / q`-th lap. -/
structure Answers (q k : ℕ) (c : ℤ × AdminCommand) (p : ℤ × NvmeCompletion) : Prop where
  slot : p.1 = (k % q : ℕ)
  commandId : p.2.commandId = c.2.commandId.toNat
  sqHead : p.2.sqHead = (c.1 % 2 ^ 16).toNat
  phase : p.2.phase = Ring.phase q k

/-- The completions answer the entries one by one, and the last lap of them is in
    the ring. -/
structure AnswersAll (q : ℕ) (d : AdminDev) (entries : List (ℤ × AdminCommand)) : Prop where
  length : d.posted.length = entries.length
  answers : ∀ k p c, d.posted[k]? = some p → entries[k]? = some c → Answers q k c p
  kept : ∀ k p, d.posted[k]? = some p → d.posted.length ≤ k + q → d.adminQ.nvmeCq p.1 = p.2

/-! ## One entry -/

/-- What a handler does to the queue: it posts one completion for `eid`. -/
def PostsOnce (d d' : AdminDev) (eid : ℤ) : Prop :=
  ∃ e ret result0 result1, d' = makeCqEntryResults e eid ret result0 result1 ∧
    e.adminQ = d.adminQ ∧ e.posted = d.posted ∧ e.toNamespaces = d.toNamespaces

/-- Behind the array of the namespaces `cmd` finds a zoned one without the command
    set of one. -/
def Namespaces.Stray (n : Namespaces) (cmd : AdminCommand) : Prop :=
  cmd.adminOpcode = .identify ∧ cmd.cns = 0x05 ∧ ¬ n.Has cmd.nsIndex ∧
    (n.ns cmd.nsIndex).ssdType = .zns ∧ (n.ns cmd.nsIndex).csi ≠ NVME_CSI_ZNS

/-- `BUG_ON` stops the kernel behind the array only: a zoned namespace of the device
    has the command set of one. -/
theorem Namespaces.stray_iff (n : Namespaces) (cmd : AdminCommand) :
    n.Stray cmd ↔ cmd.adminOpcode = .identify ∧ cmd.cns = 0x05 ∧
      (n.ns cmd.nsIndex).ssdType = .zns ∧ (n.ns cmd.nsIndex).csi ≠ NVME_CSI_ZNS := by
  constructor
  · rintro ⟨hop, hcns, -, htype, hcsi⟩
    exact ⟨hop, hcns, htype, hcsi⟩
  · rintro ⟨hop, hcns, htype, hcsi⟩
    refine ⟨hop, hcns, ?_, htype, hcsi⟩
    rintro ⟨hpos, hlt⟩
    obtain ⟨i, hi⟩ := Int.eq_ofNat_of_zero_le hpos
    rw [hi] at hlt htype hcsi
    exact hcsi (n.csi_zns i (by omega) htype)

theorem identifyZnsNamespace_posts
    (h : (d.ns (d.sqEntry eid).nsIndex).ssdType = .zns →
      (d.ns (d.sqEntry eid).nsIndex).csi = NVME_CSI_ZNS) :
    ∃ d', nvmevAdminIdentifyZnsNamespace d eid = some d' ∧ PostsOnce d d' eid := by
  unfold nvmevAdminIdentifyZnsNamespace
  dsimp only
  by_cases htype : (d.ns (d.sqEntry eid).nsIndex).ssdType = .zns
  · rw [if_neg (not_not.2 htype), if_neg (not_not.2 (h htype))]
    exact ⟨_, rfl, _, _, _, _, rfl, rfl, rfl, rfl⟩
  · rw [if_pos htype]
    exact ⟨_, rfl, _, _, _, _, rfl, rfl, rfl, rfl⟩

theorem identify_posts (hop : (d.sqEntry eid).adminOpcode = .identify) (h : ¬ d.Stray (d.sqEntry eid)) :
    ∃ d', nvmevAdminIdentify d eid = some d' ∧ PostsOnce d d' eid := by
  unfold nvmevAdminIdentify
  split
  case h_5 hcns =>
    refine identifyZnsNamespace_posts fun htype => ?_
    by_contra hcsi
    exact h ((d.stray_iff _).2 ⟨hop, hcns, htype, hcsi⟩)
  all_goals exact ⟨_, rfl, _, _, _, _, rfl, rfl, rfl, rfl⟩

theorem setFeatures_posts (d : AdminDev) (eid : ℤ) : PostsOnce d (nvmevAdminSetFeatures d eid) eid := by
  unfold nvmevAdminSetFeatures
  dsimp only
  split
  · exact ⟨_, _, _, _, rfl, rfl, rfl, rfl⟩
  · exact ⟨_, _, _, _, rfl, rfl, rfl, rfl⟩

/-- **The dispatch.** Every other entry ends in one completion. -/
theorem procAdminReq_posts (h : (d.sqEntry eid).adminOpcode ≠ .abortCmd)
    (hstray : ¬ d.Stray (d.sqEntry eid)) :
    ∃ d', nvmevProcAdminReq d eid = some d' ∧ PostsOnce d d' eid := by
  unfold nvmevProcAdminReq
  cases hop : (d.sqEntry eid).adminOpcode with
  | abortCmd => exact absurd hop h
  | identify => exact identify_posts hop hstray
  | setFeatures => exact ⟨_, rfl, setFeatures_posts d eid⟩
  | deleteSq | createSq | getLogPage | deleteCq | createCq | getFeatures | asyncEvent | other =>
    exact ⟨_, rfl, _, _, _, _, rfl, rfl, rfl, rfl⟩

theorem procAdminReq_stray (h : d.Stray (d.sqEntry eid)) : nvmevProcAdminReq d eid = none := by
  obtain ⟨hop, hcns, -, htype, hcsi⟩ := h
  have hzns : nvmevAdminIdentifyZnsNamespace d eid = none := by
    unfold nvmevAdminIdentifyZnsNamespace
    dsimp only
    rw [if_neg (not_not.2 htype), if_pos hcsi]
  have hid : nvmevAdminIdentify d eid = nvmevAdminIdentifyZnsNamespace d eid := by
    unfold nvmevAdminIdentify
    rw [hcns]
    rfl
  simp only [nvmevProcAdminReq, hop, hid, hzns]

theorem procAdminReq_abort (h : (d.sqEntry eid).adminOpcode = .abortCmd) :
    nvmevProcAdminReq d eid = some d := by
  unfold nvmevProcAdminReq
  rw [h]

/-! ## The invariant -/

/-- The head and the phase of the ring count the completions. -/
structure AdminInv (q : ℕ) (d : AdminDev) (answered : List (ℤ × AdminCommand)) : Prop
    extends AnswersAll q d answered where
  pos : 0 < q
  depth : d.adminQ.cqDepth = q
  head : d.adminQ.cqHead = (d.posted.length % q : ℕ)
  tag : d.adminQ.phase = Ring.phase q d.posted.length

theorem AdminCommand.phase_cqe (cmd : AdminCommand) (eid : ℤ) (phase : Bool) (ret result0 result1 : ℕ) :
    (cmd.cqe eid phase ret result0 result1).phase = phase := by
  cases phase <;> simp [NvmeCompletion.phase, AdminCommand.cqe, u16]

namespace AdminInv

theorem congr (h : AdminInv q d answered) (hq : e.adminQ = d.adminQ) (hp : e.posted = d.posted) :
    AdminInv q e answered where
  length := by rw [hp]; exact h.length
  answers := by rw [hp]; exact h.answers
  kept := by rw [hp, hq]; exact h.kept
  pos := h.pos
  depth := by rw [hq]; exact h.depth
  head := by rw [hp, hq]; exact h.head
  tag := by rw [hp, hq]; exact h.tag

theorem post (h : AdminInv q d answered) (eid : ℤ) (ret result0 result1 : ℕ) :
    AdminInv q (makeCqEntryResults d eid ret result0 result1)
      (answered ++ [(eid, d.sqEntry eid)]) := by
  have hnext := Ring.next_mod h.pos d.posted.length
  have hwrap : d.adminQ.cqHead + 1 = d.adminQ.cqDepth ↔ d.posted.length % q + 1 = q := by
    rw [h.head, h.depth]
    omega
  have hlen : (makeCqEntryResults d eid ret result0 result1).posted.length = d.posted.length + 1 := by
    simp [makeCqEntryResults]
  refine { pos := h.pos, depth := h.depth, length := ?_, answers := ?_, kept := ?_, head := ?_, tag := ?_ }
  · simp [hlen, h.length]
  · intro k p c hp hc
    simp only [makeCqEntryResults] at hp
    rcases Nat.lt_trichotomy k d.posted.length with hlt | rfl | hgt
    · rw [List.getElem?_append_left hlt] at hp
      rw [List.getElem?_append_left (h.length ▸ hlt)] at hc
      exact h.answers k p c hp hc
    · rw [List.getElem?_concat_length, Option.some.injEq] at hp
      rw [h.length, List.getElem?_concat_length, Option.some.injEq] at hc
      subst hp hc
      exact ⟨h.head, rfl, rfl, by rw [AdminCommand.phase_cqe, h.tag]⟩
    · rw [List.getElem?_eq_none (by simp; omega)] at hp
      cases hp
  · intro k p hp hk
    rw [hlen] at hk
    simp only [makeCqEntryResults] at hp ⊢
    rcases Nat.lt_trichotomy k d.posted.length with hlt | rfl | hgt
    · -- an older entry of the lap is in another slot
      rw [List.getElem?_append_left hlt] at hp
      obtain ⟨c, hc⟩ : ∃ c, answered[k]? = some c := ⟨_, List.getElem?_eq_getElem (h.length ▸ hlt)⟩
      have hslot : k % q ≠ d.posted.length % q := fun heq => by
        have := Ring.eq_of_slot_eq heq hlt.le (by omega)
        omega
      have hne : p.1 ≠ d.adminQ.cqHead := by
        rw [(h.answers k p c hp hc).slot, h.head]
        exact_mod_cast hslot
      rw [update_of_ne hne]
      exact h.kept k p hp (by omega)
    · rw [List.getElem?_concat_length, Option.some.injEq] at hp
      rw [← hp, update_self]
    · rw [List.getElem?_eq_none (by simp; omega)] at hp
      cases hp
  · rw [hlen, ← hnext, Ring.next]
    simp only [makeCqEntryResults, hwrap]
    split_ifs <;> simp [h.head]
  · rw [hlen, Ring.phase_succ h.pos]
    simp only [makeCqEntryResults, hwrap, h.tag]

/-- The processed entries that are answered. -/
def answerable (entries : List (ℤ × AdminCommand)) : List (ℤ × AdminCommand) :=
  entries.filter fun c => c.2.adminOpcode ≠ .abortCmd

/-- **Step.** An entry is answered, unless it is an abort. -/
theorem procAdminReq (h : AdminInv q d answered) (hstray : ¬ d.Stray (d.sqEntry eid)) :
    ∃ d', nvmevProcAdminReq d eid = some d' ∧
      AdminInv q d' (answered ++ answerable [(eid, d.sqEntry eid)]) ∧
      d'.adminQ.nvmeSq = d.adminQ.nvmeSq ∧ d'.adminQ.sqDepth = d.adminQ.sqDepth ∧
      d'.toNamespaces = d.toNamespaces := by
  by_cases hop : (d.sqEntry eid).adminOpcode = .abortCmd
  · refine ⟨d, procAdminReq_abort hop, ?_, rfl, rfl, rfl⟩
    simpa [answerable, hop] using h
  · obtain ⟨d', he, e, ret, result0, result1, rfl, hq, hp, hn⟩ := procAdminReq_posts hop hstray
    refine ⟨_, he, ?_, by rw [← hq]; rfl, by rw [← hq]; rfl, hn⟩
    have hentry : e.sqEntry eid = d.sqEntry eid := by rw [AdminDev.sqEntry, hq, AdminDev.sqEntry]
    have hpost := (h.congr hq hp).post eid ret result0 result1
    rw [hentry] at hpost
    simpa [answerable, hop] using hpost

/-- The entries the loop visits. -/
def visited (d : AdminDev) (n : ℕ) (curr : ℤ) : List (ℤ × AdminCommand) :=
  (adminSlots d.adminQ.sqDepth n curr).map fun eid => (eid, d.sqEntry eid)

/-- The handlers leave the submission ring as it is. -/
theorem visited_succ {d₁ : AdminDev} (hsq : d₁.adminQ.nvmeSq = d.adminQ.nvmeSq)
    (hdepth : d₁.adminQ.sqDepth = d.adminQ.sqDepth) (n : ℕ) (curr : ℤ) :
    visited d (n + 1) curr = (curr, d.sqEntry curr) ::
      visited d₁ n (if curr + 1 = d₁.adminQ.sqDepth then 0 else curr + 1) := by
  have hentry (i : ℤ) : d₁.sqEntry i = d.sqEntry i := by rw [AdminDev.sqEntry, hsq, AdminDev.sqEntry]
  simp only [visited, adminSlots, hdepth, hentry, List.map_cons]

/-- **Loop.** It gets to its end exactly if no entry leads behind the namespaces. -/
theorem loop : ∀ (n : ℕ) {d : AdminDev} {answered : List (ℤ × AdminCommand)} (_ : AdminInv q d answered)
    (curr : ℤ), (∀ c ∈ visited d n curr, ¬ d.Stray c.2) → ∃ d', adminSqLoop n d curr = some d' ∧
      AdminInv q d' (answered ++ answerable (visited d n curr))
  | 0, d, answered, h, curr, _ => by
    refine ⟨d, rfl, ?_⟩
    simpa [visited, adminSlots, answerable] using h
  | n + 1, d, answered, h, curr, hall => by
    have hstray : ¬ d.Stray (d.sqEntry curr) := hall (curr, d.sqEntry curr) List.mem_cons_self
    obtain ⟨d₁, he, h₁, hsq, hdepth, hn⟩ := h.procAdminReq hstray
    rw [visited_succ hsq hdepth] at hall ⊢
    obtain ⟨d₂, he', h₂⟩ := loop n h₁ (if curr + 1 = d₁.adminQ.sqDepth then 0 else curr + 1)
      fun c hc => by rw [hn]; exact hall c (List.mem_cons_of_mem _ hc)
    refine ⟨d₂, ?_, ?_⟩
    · simp only [adminSqLoop, he, Option.bind_eq_bind, Option.bind_some, he']
    · rw [List.append_assoc] at h₂
      simpa [answerable, ← List.filter_append] using h₂

theorem loop_stray : ∀ (n : ℕ) {d : AdminDev} {answered : List (ℤ × AdminCommand)}
    (_ : AdminInv q d answered) (curr : ℤ), (∃ c ∈ visited d n curr, d.Stray c.2) →
      adminSqLoop n d curr = none
  | 0, d, answered, h, curr, hc => by simp [visited, adminSlots] at hc
  | n + 1, d, answered, h, curr, hc => by
    by_cases hstray : d.Stray (d.sqEntry curr)
    · simp only [adminSqLoop, procAdminReq_stray hstray, Option.bind_eq_bind, Option.bind_none]
    · obtain ⟨d₁, he, h₁, hsq, hdepth, hn⟩ := h.procAdminReq hstray
      rw [visited_succ hsq hdepth] at hc
      simp only [adminSqLoop, he, Option.bind_eq_bind, Option.bind_some]
      obtain ⟨c, hmem, hc⟩ := hc
      rcases List.mem_cons.1 hmem with rfl | hmem
      · exact absurd hc hstray
      · exact loop_stray n h₁ _ ⟨c, hmem, by rw [hn]; exact hc⟩

/-- **A look at the doorbell.** -/
theorem poll (h : AdminInv q d answered) (hall : ∀ c ∈ d.announced, ¬ d.Stray c.2) :
    ∃ d', nvmevProcDbsAdminSq d = some d' ∧ AdminInv q d' (answered ++ answerable d.announced) := by
  unfold nvmevProcDbsAdminSq
  unfold AdminDev.announced at hall ⊢
  dsimp only
  by_cases hdb : d.dbs 0 ≠ d.oldDbs 0
  · rw [if_pos hdb] at hall ⊢
    obtain ⟨d₁, he, h₁⟩ := h.loop (adminNumProc d (d.dbs 0) (d.oldDbs 0)) (d.oldDbs 0) hall
    rw [if_pos hdb, nvmevProcAdminSq, he]
    exact ⟨_, rfl, h₁.congr rfl rfl⟩
  · rw [if_neg hdb, if_neg hdb]
    exact ⟨d, rfl, by simpa [answerable] using h⟩

theorem poll_stray (h : AdminInv q d answered) (hc : ∃ c ∈ d.announced, d.Stray c.2) :
    nvmevProcDbsAdminSq d = none := by
  unfold nvmevProcDbsAdminSq
  unfold AdminDev.announced at hc
  dsimp only
  by_cases hdb : d.dbs 0 ≠ d.oldDbs 0
  · rw [if_pos hdb] at hc
    rw [if_pos hdb, nvmevProcAdminSq, h.loop_stray _ _ hc, Option.map_none]
  · rw [if_neg hdb] at hc
    simp at hc

theorem pollCq (h : AdminInv q d answered) : AdminInv q (nvmevProcDbsAdminCq d) answered := by
  unfold nvmevProcDbsAdminCq
  dsimp only
  split
  · exact h.congr rfl rfl
  · exact h

/-- All processed entries are answered when none of them is an abort. -/
theorem answersAll_iff {entries : List (ℤ × AdminCommand)} (h : AdminInv q d (answerable entries)) :
    AnswersAll q d entries ↔ ∀ c ∈ entries, c.2.adminOpcode ≠ .abortCmd := by
  have hall : (∀ c ∈ entries, c.2.adminOpcode ≠ .abortCmd) ↔ answerable entries = entries := by
    simp [answerable]
  rw [hall]
  constructor
  · intro hd
    exact List.filter_sublist.eq_of_length (h.length.symm.trans hd.length)
  · intro heq
    rw [heq] at h
    exact h.toAnswersAll

end AdminInv

/-! ## Runs -/

/-- What a poll processes is no abort and stays within the namespaces. -/
def Answerable (s : AdminRun) (ev : AdminEvent) : Prop :=
  ev = .poll → ∀ c ∈ s.dev.announced, c.2.adminOpcode ≠ .abortCmd ∧ ¬ s.dev.Stray c.2

/-- The run gets to its end, where all processed entries are answered. -/
def CompletedOnce (q : ℕ) (s : AdminRun) (es : List AdminEvent) : Prop :=
  ∃ s', adminMachine.run s es = .ok s' ∧ AnswersAll q s'.dev s'.processed

/-- **Run.** -/
theorem AdminInv.completed_iff {s : AdminRun} (es : List AdminEvent)
    (h : AdminInv q s.dev (answerable s.processed)) :
    CompletedOnce q s es ↔ (∀ c ∈ s.processed, c.2.adminOpcode ≠ .abortCmd) ∧
      adminMachine.Along Answerable s es := by
  induction es generalizing s with
  | nil => simp [CompletedOnce, Machine.Along, h.answersAll_iff]
  | cons ev es ih =>
    -- what the host writes keeps the invariant and processes nothing
    have hhost (s₁ : AdminRun) (he : adminMachine.step s ev = .ok s₁) (hev : ev ≠ .poll)
        (h₁ : AdminInv q s₁.dev (answerable s₁.processed)) (hp : s₁.processed = s.processed) :
        CompletedOnce q s (ev :: es) ↔ (∀ c ∈ s.processed, c.2.adminOpcode ≠ .abortCmd) ∧
          adminMachine.Along Answerable s (ev :: es) := by
      have hih := ih h₁
      rw [CompletedOnce, Machine.run_cons, he, ok_bind, ← CompletedOnce, hih, hp]
      simp [Machine.Along, Answerable, hev, he]
    cases ev with
    | submit i cmd =>
      exact hhost _ rfl (by simp) ⟨⟨h.length, h.answers, h.kept⟩, h.pos, h.depth, h.head, h.tag⟩ rfl
    | ring v => exact hhost _ rfl (by simp) (h.congr rfl rfl) rfl
    | ringCq v => exact hhost _ rfl (by simp) (h.congr rfl rfl) rfl
    | poll =>
      by_cases hstray : ∃ c ∈ s.dev.announced, s.dev.Stray c.2
      · -- the kernel stops, and an announced entry is at fault
        have he : adminMachine.step s .poll = .error () := by
          simp only [adminMachine, h.poll_stray hstray]
        obtain ⟨c, hmem, hc⟩ := hstray
        refine iff_of_false ?_ fun hright => (hright.2.1 rfl c hmem).2 hc
        rintro ⟨s', hs', -⟩
        rw [Machine.run_cons, he] at hs'
        cases hs'
      · push Not at hstray
        obtain ⟨d', hd', h'⟩ := h.poll hstray
        have he : adminMachine.step s .poll =
            .ok ⟨nvmevProcDbsAdminCq d', s.processed ++ s.dev.announced⟩ := by
          simp only [adminMachine, hd']
        have hih := @ih ⟨nvmevProcDbsAdminCq d', s.processed ++ s.dev.announced⟩ (by
          rw [AdminInv.answerable, List.filter_append]
          exact h'.pollCq)
        rw [CompletedOnce, Machine.run_cons, he, ok_bind, ← CompletedOnce, hih]
        simp only [Machine.Along, he, Except.ok.injEq, forall_eq', Answerable, List.mem_append]
        constructor
        · rintro ⟨hnone, halong⟩
          exact ⟨fun c hc => hnone c (.inl hc), fun _ c hc => ⟨hnone c (.inr hc), hstray c hc⟩, halong⟩
        · rintro ⟨hnone, hnow, halong⟩
          exact ⟨fun c hc => hc.elim (hnone c) fun hc => (hnow trivial c hc).1, halong⟩

section
variable (asqs acqs mdts : ℕ) (namespaces : Namespaces) (nvmeSq : ℤ → AdminCommand)
  (nvmeCq : ℤ → NvmeCompletion) (ringAt : UInt64 → ℤ → NvmeCompletion)

theorem adminInv_init :
    AdminInv (acqs + 1) (.init asqs acqs mdts namespaces nvmeSq nvmeCq ringAt) [] where
  length := rfl
  answers := by simp [AdminDev.init]
  kept := by simp [AdminDev.init]
  pos := Nat.succ_pos _
  depth := rfl
  head := by simp [AdminDev.init, AdminQueue.create]
  tag := by simp [AdminDev.init, AdminQueue.create]

end

/-! ## An abort -/

/-- An abort of the command 7 of queue 1. -/
def abortEntry : AdminCommand := ⟨0x08, 9, 0, 0, 0x70001, 0⟩

/-- One zoned namespace, and memory behind it that is none. -/
def oneNamespace : Namespaces where
  ns i := ⟨.zns, if i = 0 then NVME_CSI_ZNS else 0, 0, ⟨0, 0, 0, 0, 0, 0⟩⟩
  nrNs := 1
  csi_zns i hi _ := by simp [show i = 0 by omega]

/-- The other kind: the host identifies a second namespace where there is one. -/
def strayEntry : AdminCommand := ⟨0x06, 9, 2, 0, 0x05, 0⟩

example : oneNamespace.Stray strayEntry := by
  refine ⟨by decide, by decide, by decide, rfl, by decide⟩

end WaitGc

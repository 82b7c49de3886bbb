/-
  WAITGC verification — the safety of completion queues.

  `__fill_cq_result` posts whether or not there is room.  `completions_safe`:
  as long as every post finds room — fewer entries than the ring has slots were
  posted and not yet passed by the host's doorbell — no entry is overwritten
  before it is passed, and the host reads what was posted, in order.
  `completions_unsafe`: with three submission queues on one completion queue of
  two entries, a host that obeys every rule loses a completion.
-/
import WaitGc.Lib.Ring
import WaitGc.Io.Completion

namespace WaitGc

open Outcome Function

variable {s s' : Completion} {cqid q k n : ℕ} {cq : CompletionQueue} {w : IoWork}
  {posted : List NvmeCompletion} {host : CqReader} {passed : ℕ} {cqe : NvmeCompletion}

/-- The host keeps a submission queue from running full, and passes entries it
    has read; a worker completes a command that is outstanding, on the completion
    queue of its submission queue. -/
def CqRule (s : Completion) : CqEvent → Prop
  | .submit sqid => ∃ sq ∈ s.sqes sqid, ((s.submitted sqid : ℕ) : ℤ) + 1 <
      ((s.host sq.cqid).read.countP fun cqe => cqe.sqId = sqid : ℕ) + sq.queueSize
  | .post w => ∃ sq ∈ s.sqes w.sqid, w.cqid = sq.cqid ∧ s.completed w.sqid < s.submitted w.sqid
  | .ring cqid n => s.passed cqid ≤ n ∧ n ≤ (s.host cqid).read.length
  | _ => True

/-- A post finds room. -/
def CqRoom (s : Completion) : CqEvent → Prop
  | .post w => ∀ cq ∈ s.cqes w.cqid,
      ((s.posted w.cqid).length : ℤ) < s.passed w.cqid + cq.queueSize
  | _ => True

/-- A completion queue is safe: what is posted stays until the host's doorbell has
    passed it; what the host read is what was posted, and it finds the next entry
    whenever there is one. -/
structure CqSafe (cq : CompletionQueue) (posted : List NvmeCompletion) (host : CqReader)
    (passed : ℕ) : Prop where
  kept : ∀ k cqe, passed ≤ k → posted[k]? = some cqe → cq.cq (k % cq.queueSize) = cqe
  inOrder : host.read <+: posted
  ready : (cq.cq host.head).phase = host.phase ↔ host.read.length < posted.length
  next : ∀ cqe, posted[host.read.length]? = some cqe → cq.cq host.head = cqe

/-- The completion queues were just created, over memory whose phase tags are clear. -/
structure Completion.Fresh (s : Completion) : Prop where
  cqes : ∀ cqid cq, s.cqes cqid = some cq →
    ∃ qsize mem, cq = .create qsize mem ∧ ∀ i, (mem i).phase = false
  host : ∀ cqid, s.host cqid = ⟨0, true, []⟩
  posted : ∀ cqid, s.posted cqid = []
  passed : ∀ cqid, s.passed cqid = 0
  submitted : ∀ sqid, s.submitted sqid = 0
  completed : ∀ sqid, s.completed sqid = 0

/-! ## The invariant -/

/-- The ring holds the last lap of what was posted, and the host is less than a
    lap behind. -/
structure CqInv (cq : CompletionQueue) (posted : List NvmeCompletion) (host : CqReader) (passed q : ℕ) :
    Prop where
  pos : 0 < q
  size : cq.queueSize = q
  head : cq.cqHead = (posted.length % q : ℕ)
  phase : cq.phase = Ring.phase q posted.length
  lap : ∀ k cqe, posted[k]? = some cqe → posted.length ≤ k + q → cq.cq (k % q : ℕ) = cqe
  phases : ∀ k cqe, posted[k]? = some cqe → cqe.phase = Ring.phase q k
  fresh : ∀ k, posted.length ≤ k → k < q → (cq.cq k).phase = false
  hostHead : host.head = (host.read.length % q : ℕ)
  hostPhase : host.phase = Ring.phase q host.read.length
  read : host.read = posted.take host.read.length
  behind : passed ≤ host.read.length
  room : posted.length ≤ passed + q

theorem IoWork.phase_cqe (w : IoWork) (phase : Bool) : (w.cqe phase).phase = phase := by
  cases phase <;> simp [NvmeCompletion.phase, IoWork.cqe, u16, u32]

namespace CqInv

theorem read_le (h : CqInv cq posted host passed q) : host.read.length ≤ posted.length := by
  have hlen := congrArg List.length h.read
  rw [List.length_take] at hlen
  omega

theorem ready (h : CqInv cq posted host passed q) :
    (cq.cq host.head).phase = host.phase ↔ host.read.length < posted.length := by
  have hle := h.read_le
  have hpassed := h.behind
  have hroom := h.room
  rw [h.hostHead, h.hostPhase]
  constructor
  · intro heq
    by_contra hlt
    have hm : host.read.length = posted.length := by omega
    rw [hm] at heq
    rcases Nat.lt_or_ge posted.length q with hq | hq
    · rw [Nat.mod_eq_of_lt hq, h.fresh _ le_rfl hq] at heq
      simp [Ring.phase, Nat.div_eq_of_lt hq] at heq
    · -- a lap ago, with the other tag
      have hk : posted.length - q < posted.length := by have := h.pos; omega
      have hslot : posted.length % q = (posted.length - q) % q := by
        rw [Nat.mod_eq_sub_mod hq]
      have hlap := Ring.phase_add_lap h.pos (posted.length - q)
      rw [Nat.sub_add_cancel hq] at hlap
      rw [hslot, h.lap _ _ (List.getElem?_eq_getElem hk) (by omega),
        h.phases _ _ (List.getElem?_eq_getElem hk), hlap] at heq
      simp at heq
  · intro hlt
    rw [h.lap _ _ (List.getElem?_eq_getElem hlt) (by omega),
      h.phases _ _ (List.getElem?_eq_getElem hlt)]

theorem safe (h : CqInv cq posted host passed q) : CqSafe cq posted host passed := by
  have hroom := h.room
  have hpassed := h.behind
  refine ⟨?_, ?_, h.ready, ?_⟩
  · intro k cqe hk hcqe
    have hslot : (k : ℤ) % cq.queueSize = (k % q : ℕ) := by rw [h.size, Int.natCast_mod]
    rw [hslot]
    exact h.lap k cqe hcqe (by omega)
  · rw [h.read]
    exact List.take_prefix _ _
  · intro cqe hcqe
    rw [h.hostHead]
    exact h.lap _ cqe hcqe (by omega)

theorem post (h : CqInv cq posted host passed q) (hroom : posted.length < passed + q) (w : IoWork) :
    CqInv (fillCqResult cq w) (posted ++ [w.cqe cq.phase]) host passed q := by
  have hbehind := h.behind
  have hle := h.read_le
  have hnext := Ring.next_mod h.pos posted.length
  have hlen : (posted ++ [w.cqe cq.phase]).length = posted.length + 1 := by simp
  have hwrap : cq.cqHead + 1 = cq.queueSize ↔ posted.length % q + 1 = q := by
    rw [h.head, h.size]
    omega
  refine ⟨h.pos, h.size, ?_, ?_, ?_, ?_, ?_, h.hostHead, h.hostPhase, ?_, h.behind, ?_⟩
  · rw [hlen, ← hnext, Ring.next]
    simp only [fillCqResult, hwrap]
    split_ifs <;> simp [h.head]
  · rw [hlen, Ring.phase_succ h.pos]
    simp only [fillCqResult, hwrap, h.phase]
  · intro k cqe hcqe hk
    rw [hlen] at hk
    simp only [fillCqResult, h.head]
    rcases Nat.lt_trichotomy k posted.length with hlt | rfl | hgt
    · -- an older entry of the lap is in another slot
      have hslot : k % q ≠ posted.length % q := fun heq => by
        have := Ring.eq_of_slot_eq heq hlt.le (by omega)
        omega
      rw [List.getElem?_append_left hlt] at hcqe
      rw [update_of_ne (by exact_mod_cast hslot)]
      exact h.lap k cqe hcqe (by omega)
    · simp only [List.getElem?_concat_length, Option.some.injEq] at hcqe
      rw [update_self, hcqe]
    · rw [List.getElem?_eq_none (by rw [hlen]; omega)] at hcqe
      cases hcqe
  · intro k cqe hcqe
    rcases Nat.lt_trichotomy k posted.length with hlt | rfl | hgt
    · rw [List.getElem?_append_left hlt] at hcqe
      exact h.phases k cqe hcqe
    · simp only [List.getElem?_concat_length, Option.some.injEq] at hcqe
      rw [← hcqe, w.phase_cqe, h.phase]
    · rw [List.getElem?_eq_none (by rw [hlen]; omega)] at hcqe
      cases hcqe
  · intro k hk hkq
    rw [hlen] at hk
    have hslot : (k : ℤ) ≠ (posted.length % q : ℕ) := by
      rw [Nat.mod_eq_of_lt (by omega)]
      omega
    simp only [fillCqResult, h.head]
    rw [update_of_ne hslot]
    exact h.fresh k (by omega) hkq
  · rw [List.take_append_of_le_length hle]
    exact h.read
  · rw [hlen]
    omega

/-- The host reads the entry at its head. -/
theorem advance (h : CqInv cq posted host passed q) (hready : (cq.cq host.head).phase = host.phase) :
    CqInv cq posted ⟨if host.head + 1 = cq.queueSize then 0 else host.head + 1,
      if host.head + 1 = cq.queueSize then !host.phase else host.phase,
      host.read ++ [cq.cq host.head]⟩ passed q := by
  have hlt := h.ready.1 hready
  have hroom := h.room
  have hbehind := h.behind
  have hnext := Ring.next_mod h.pos host.read.length
  have hlen : (host.read ++ [cq.cq host.head]).length = host.read.length + 1 := by simp
  have hwrap : host.head + 1 = cq.queueSize ↔ host.read.length % q + 1 = q := by
    rw [h.hostHead, h.size]
    omega
  refine { h with hostHead := ?_, hostPhase := ?_, read := ?_, behind := ?_ }
  · rw [hlen, ← hnext, Ring.next]
    simp only [hwrap]
    split_ifs <;> simp [h.hostHead]
  · rw [hlen, Ring.phase_succ h.pos]
    simp only [hwrap, h.hostPhase]
  · have hslot : cq.cq host.head = posted[host.read.length] := by
      rw [h.hostHead]
      exact h.lap _ _ (List.getElem?_eq_getElem hlt) (by omega)
    rw [hlen, List.take_succ_eq_append_getElem hlt, hslot]
    exact congrArg (· ++ [posted[host.read.length]]) h.read
  · rw [hlen]
    omega

theorem pass (h : CqInv cq posted host passed q) (hle : passed ≤ n) (hn : n ≤ host.read.length) :
    CqInv cq posted host n q :=
  { h with
    behind := hn
    room := by have := h.room; omega }

/-- The dispatcher notes the host's doorbell, which nothing reads. -/
theorem note (h : CqInv cq posted host passed q) (tail : ℤ) :
    CqInv { cq with cqTail := tail } posted host passed q :=
  ⟨h.pos, h.size, h.head, h.phase, h.lap, h.phases, h.fresh, h.hostHead, h.hostPhase, h.read,
    h.behind, h.room⟩

end CqInv

/-- The invariant of the machine. -/
def CqsInv (s : Completion) : Prop :=
  ∀ cqid cq, s.cqes cqid = some cq →
    ∃ q, CqInv cq (s.posted cqid) (s.host cqid) (s.passed cqid) q

theorem Completion.Fresh.inv (h : s.Fresh) : CqsInv s := by
  intro cqid cq hcq
  obtain ⟨qsize, mem, rfl, hmem⟩ := h.cqes cqid cq hcq
  refine ⟨qsize + 1, ?_⟩
  rw [h.posted, h.host, h.passed]
  exact {
    pos := Nat.succ_pos _
    size := rfl
    head := by simp [CompletionQueue.create]
    phase := by simp [CompletionQueue.create]
    lap := by simp
    phases := by simp
    fresh := fun k _ _ => hmem k
    hostHead := by simp
    hostPhase := by simp
    read := by simp
    behind := by simp
    room := by simp }

theorem cqsInv_post (h : CqsInv s) (hroom : CqRoom s (.post w)) :
    Sat (· = .wildPointer) CqsInv (s.post w) := by
  unfold Completion.post
  cases hcq : s.cqes w.cqid with
  | none => rfl
  | some cq =>
    obtain ⟨q, hinv⟩ := h w.cqid cq hcq
    have hlt := hroom cq hcq
    rw [hinv.size] at hlt
    intro cqid cq' hcq'
    by_cases hid : cqid = w.cqid
    · subst hid
      simp only [update_self, Option.some.injEq] at hcq' ⊢
      subst hcq'
      exact ⟨q, hinv.post (by omega) w⟩
    · simp only [update_of_ne hid] at hcq' ⊢
      exact h cqid cq' hcq'

theorem cqsInv_read (h : CqsInv s) (cqid : ℕ) : CqsInv (s.read cqid) := by
  unfold Completion.read
  split
  · exact h
  · rename_i cq hcq
    dsimp only
    split
    · rename_i hready
      intro cqid' cq' hcq'
      obtain ⟨q, hinv⟩ := h cqid' cq' hcq'
      by_cases hid : cqid' = cqid
      · subst hid
        obtain rfl : cq' = cq := Option.some.inj (hcq'.symm.trans hcq)
        simp only [update_self]
        exact ⟨q, hinv.advance hready⟩
      · simp only [update_of_ne hid]
        exact ⟨q, hinv⟩
    · exact h

theorem cqsInv_ring (h : CqsInv s) (hrule : CqRule s (.ring cqid n)) : CqsInv (s.ring cqid n) := by
  unfold Completion.ring
  split
  · exact h
  · intro cqid' cq' hcq'
    obtain ⟨q, hinv⟩ := h cqid' cq' hcq'
    by_cases hid : cqid' = cqid
    · subst hid
      simp only [update_self]
      exact ⟨q, hinv.pass hrule.1 hrule.2⟩
    · simp only [update_of_ne hid]
      exact ⟨q, hinv⟩

theorem cqsInv_poll (h : CqsInv s) (cqid : ℕ) : CqsInv (s.poll cqid) := by
  unfold Completion.poll
  split
  · exact h
  · rename_i cq hcq
    dsimp only
    split
    · intro cqid' cq' hcq'
      by_cases hid : cqid' = cqid
      · subst hid
        simp only [update_self, Option.some.injEq] at hcq'
        obtain ⟨q, hinv⟩ := h cqid' cq hcq
        subst hcq'
        exact ⟨q, hinv.note _⟩
      · simp only [update_of_ne hid] at hcq'
        exact h cqid' cq' hcq'
    · exact h

theorem cqsInv_step (s : Completion) (e : CqEvent) (h : CqsInv s) (hrule : CqRule s e ∧ CqRoom s e) :
    Sat (· = .wildPointer) CqsInv (completion.step s e) := by
  cases e with
  | submit sqid => exact h
  | post w => exact cqsInv_post h hrule.2
  | read cqid => exact cqsInv_read h cqid
  | ring cqid n => exact cqsInv_ring h hrule.1
  | poll cqid => exact cqsInv_poll h cqid

/-! ## The theorem -/

/-- **Completion queues are safe as long as every post finds room**, whatever
    submission queues are created onto them. -/
theorem completions_safe {es : List CqEvent} (hs : s.Fresh)
    (hrule : completion.Along (fun s e => CqRule s e ∧ CqRoom s e) s es)
    (hrun : completion.run s es = .ok s') (hcq : s'.cqes cqid = some cq) :
    CqSafe cq (s'.posted cqid) (s'.host cqid) (s'.passed cqid) := by
  obtain ⟨q, hinv⟩ := (Machine.run_sat cqsInv_step hs.inv hrule).of_ok hrun cqid cq hcq
  exact hinv.safe

instance (s : Completion) : ∀ e, Decidable (CqRule s e)
  | .submit sqid => inferInstanceAs (Decidable (∃ sq ∈ s.sqes sqid,
      ((s.submitted sqid : ℕ) : ℤ) + 1 <
        ((s.host sq.cqid).read.countP fun cqe => cqe.sqId = sqid : ℕ) + sq.queueSize))
  | .post w => inferInstanceAs (Decidable (∃ sq ∈ s.sqes w.sqid,
      w.cqid = sq.cqid ∧ s.completed w.sqid < s.submitted w.sqid))
  | .ring cqid n =>
    inferInstanceAs (Decidable (s.passed cqid ≤ n ∧ n ≤ (s.host cqid).read.length))
  | .read _ => .isTrue trivial
  | .poll _ => .isTrue trivial

instance (s : Completion) : ∀ e, Decidable (CqRoom s e)
  | .post w => inferInstanceAs (Decidable (∀ cq ∈ s.cqes w.cqid,
      ((s.posted w.cqid).length : ℤ) < s.passed w.cqid + cq.queueSize))
  | .submit _ => .isTrue trivial
  | .read _ => .isTrue trivial
  | .ring _ _ => .isTrue trivial
  | .poll _ => .isTrue trivial

/-- Three submission queues of two entries, all on one completion queue of two
    entries. -/
def sharedCq : Completion where
  sqes sqid := if 1 ≤ sqid ∧ sqid ≤ 3 then some ⟨1, 2, ⟨0, 0, 0, 0, 0⟩⟩ else none
  cqes cqid := if cqid = 1 then some (.create 1 fun _ => ⟨0, 0, 0, 0, 0, 0⟩) else none
  dbs _ := 0
  oldDbs _ := 0
  host _ := ⟨0, true, []⟩
  submitted _ := 0
  completed _ := 0
  posted _ := []
  passed _ := 0

theorem sharedCq_fresh : sharedCq.Fresh := by
  refine ⟨?_, fun _ => rfl, fun _ => rfl, fun _ => rfl, fun _ => rfl, fun _ => rfl⟩
  intro cqid cq hcq
  simp only [sharedCq] at hcq
  split_ifs at hcq
  cases hcq
  exact ⟨1, _, rfl, fun _ => rfl⟩

/-- A command of queue `sqid`, done. -/
def sharedWork (sqid commandId : ℕ) : IoWork :=
  { IoWork.zero with sqid, cqid := 1, commandId, isCopied := true }

/-- A command is completed, read and passed, and another one is completed. -/
def sharedRun : List CqEvent :=
  [.submit 1, .post (sharedWork 1 7), .read 1, .ring 1 1, .poll 1, .submit 2, .post (sharedWork 2 8)]

theorem completions_safe_sharedRun : ∃ s cq, completion.run sharedCq sharedRun = .ok s ∧
    s.cqes 1 = some cq ∧ CqSafe cq (s.posted 1) (s.host 1) (s.passed 1) := by
  have hrule : completion.Along (fun s e => CqRule s e ∧ CqRoom s e) sharedCq sharedRun := by decide
  exact ⟨_, _, rfl, rfl, completions_safe sharedCq_fresh hrule rfl rfl⟩

/-- One command in each of the three queues, and their completions. -/
def crowdedRun : List CqEvent :=
  [.submit 1, .submit 2, .submit 3, .post (sharedWork 1 7), .post (sharedWork 2 8),
    .post (sharedWork 3 9)]

/-- A completion queue is not safe in every run of a host that obeys the rules. -/
theorem completions_unsafe : ¬ ∀ (s s' : Completion) (es : List CqEvent) (cqid : ℕ)
    (cq : CompletionQueue), s.Fresh → completion.Along CqRule s es → completion.run s es = .ok s' →
      s'.cqes cqid = some cq → CqSafe cq (s'.posted cqid) (s'.host cqid) (s'.passed cqid) := by
  intro h
  have hrule : completion.Along CqRule sharedCq crowdedRun := by decide
  have hsafe := h sharedCq _ crowdedRun 1 _ sharedCq_fresh hrule rfl rfl
  have hkept := hsafe.kept 0 ((sharedWork 1 7).cqe true) le_rfl rfl
  exact absurd hkept (by decide)

end WaitGc

/-
  WAITGC verification — submission queues are dispatched in order.

  A host that never has more than `queue_size - 1` entries in a queue writes
  its doorbell, and the handler takes or refuses entries, in any order.
  `InOrder` says that the entries taken so far are the ring's, one after the
  other from where the queue started.  `SqInv` adds what the dispatcher's
  locals mean while it is inside the queue; each event of the machine keeps
  it.
-/
import WaitGc.Lib.Ring
import WaitGc.Io.Dispatcher

namespace WaitGc

open Outcome Function

variable {s s' : Dispatch} {qid q o : ℕ}

/-- The entries of queue `qid`, of size `q` and started at entry `o`, have been
    taken exactly once and in the order of the ring. -/
structure InOrder (s : Dispatch) (qid q o : ℕ) : Prop where
  accepted : s.accepted qid = (Ring.slots q o (s.accepted qid).length).map (↑)
  posted : (s.accepted qid).length ≤ s.posted qid
  doorbell : s.dev.dbs (sqDbsIdx qid) = ((o + s.posted qid) % q : ℕ)
  between : (∀ r, s.dev.round = some r → r.sqid ≠ qid) →
    s.dev.oldDbs (sqDbsIdx qid) = ((o + (s.accepted qid).length) % q : ℕ)
  inside : ∀ r, s.dev.round = some r → r.sqid = qid →
    (s.accepted qid).length < s.posted qid ∧
      r.sqEntry = ((o + (s.accepted qid).length) % q : ℕ) ∧
      (r.oldDb + r.seq).tmod q = ((o + (s.accepted qid).length) % q : ℕ)

/-- The host writes values of the ring, and keeps a slot of it free. -/
def HostRule (s : Dispatch) : DbEvent → Prop
  | .ring qid v => ∀ sq ∈ s.dev.sqes qid, 0 ≤ v ∧ v < sq.queueSize ∧
      s.posted qid + s.added qid v < (s.accepted qid).length + sq.queueSize.toNat
  | _ => True

instance (s : Dispatch) : ∀ e, Decidable (HostRule s e)
  | .ring qid v => inferInstanceAs (Decidable (∀ sq ∈ s.dev.sqes qid, 0 ≤ v ∧ v < sq.queueSize ∧
      s.posted qid + s.added qid v < (s.accepted qid).length + sq.queueSize.toNat))
  | .poll _ => .isTrue trivial
  | .handle _ => .isTrue trivial

/-- No queue holds an entry, and the dispatcher is in none. -/
structure Dispatcher.Idle (d : Dispatcher) : Prop where
  round : d.round = none
  size : ∀ qid sq, d.sqes qid = some sq → 0 < sq.queueSize
  start : ∀ qid sq, d.sqes qid = some sq → 0 ≤ d.oldDbs (sqDbsIdx qid) ∧
    d.oldDbs (sqDbsIdx qid) < sq.queueSize ∧ d.dbs (sqDbsIdx qid) = d.oldDbs (sqDbsIdx qid)

/-- A run starts. -/
def Dispatch.start (d : Dispatcher) : Dispatch := ⟨d, fun _ => 0, fun _ => []⟩

/-! ## Inside a round -/

/-- The locals of `nvmev_proc_io_sq` after `k` of the `m` entries of the round,
    when `n` of the `p` entries of the queue have been taken. -/
structure SqRound.At (r : SqRound) (q o n p k m : ℕ) : Prop where
  seq : r.seq = k
  numProc : r.numProc = m
  entry : r.sqEntry = ((o + n) % q : ℕ)
  oldDb : r.oldDb = ((o + (n - k)) % q : ℕ)
  first : k ≤ n
  last : n + (m - k) ≤ p

variable {r : SqRound} {sq : SubmissionQueue} {n p k m : ℕ}

theorem SqRound.At.latest (h : r.At q o n p k m) :
    (r.oldDb + r.seq).tmod q = ((o + n) % q : ℕ) := by
  obtain ⟨hseq, -, -, hold, hfirst, -⟩ := h
  rw [hold, hseq, ← Int.natCast_add, ← Int.ofNat_tmod, Nat.mod_add_mod,
    show o + (n - k) + k = o + n by omega]

theorem SqRound.At.took (h : r.At q o n p k m) (hq : 0 < q) (hsize : sq.queueSize = q)
    (hk : k < m) (ioSize : ℕ) : (sq.took r ioSize).2.At q o (n + 1) p (k + 1) m := by
  obtain ⟨hseq, hnum, hentry, hold, hfirst, hlast⟩ := h
  refine ⟨?_, hnum, ?_, ?_, by omega, by omega⟩
  · simp [SubmissionQueue.took, hseq]
  · have hnext : ((o + (n + 1)) % q : ℕ) = Ring.next q ((o + n) % q) := by
      rw [Ring.next_mod hq, Nat.add_assoc]
    simp only [SubmissionQueue.took, hentry, hsize, hnext, Ring.next]
    split_ifs <;> omega
  · simp only [SubmissionQueue.took, hold, show n + 1 - (k + 1) = n - k by omega]

theorem SqRound.At.enter (hle : n ≤ p) (hlt : p < n + q) (hsize : sq.queueSize = q) :
    (sq.enter qid ((o + p) % q : ℕ) ((o + n) % q : ℕ)).At q o n p 0 (p - n) := by
  have hdist : o + p - (o + n) = if (o + p) % q < (o + n) % q then
      (o + p) % q + q - (o + n) % q else (o + p) % q - (o + n) % q :=
    Ring.slot_sub (by omega) (by omega)
  have hlen : o + p - (o + n) = p - n := by omega
  refine ⟨rfl, ?_, rfl, rfl, by omega, by omega⟩
  simp only [SubmissionQueue.enter, hsize]
  rw [← hlen, hdist]
  have := Nat.mod_lt (o + n) (show 0 < q by omega)
  split_ifs <;> omega

/-! ## The invariant -/

/-- What the dispatcher knows of queue `qid`, when `n` of the `p` entries of the
    queue have been taken. -/
structure Dispatcher.At (d : Dispatcher) (qid q o n p : ℕ) : Prop where
  size : ∃ sq, d.sqes qid = some sq ∧ sq.queueSize = q
  doorbell : d.dbs (sqDbsIdx qid) = ((o + p) % q : ℕ)
  between : (∀ r, d.round = some r → r.sqid ≠ qid) →
    d.oldDbs (sqDbsIdx qid) = ((o + n) % q : ℕ)
  inside : ∀ r, d.round = some r → r.sqid = qid → ∃ k m, r.At q o n p k m ∧ k < m

variable {d d' : Dispatcher}

theorem sqDbsIdx_ne {qid' : ℕ} (h : qid' ≠ qid) : sqDbsIdx qid' ≠ sqDbsIdx qid := by
  unfold sqDbsIdx
  omega

/-- A round ends where its last entry was taken. -/
theorem Dispatcher.at_finish (hdb : d.dbs (sqDbsIdx qid) = ((o + p) % q : ℕ))
    (hr : r.At q o n p k m) (hqid : r.sqid = qid) (hsize : sq.queueSize = q) :
    (d.finish sq r).At qid q o n p where
  size := ⟨(sq.leave r).1, by simp [Dispatcher.finish, hqid], hsize⟩
  doorbell := hdb
  between := by
    intro _
    simp only [Dispatcher.finish, SubmissionQueue.leave, hqid, update_self, hsize, hr.latest]
  inside := by
    rintro r' hr'
    simp [Dispatcher.finish] at hr'

/-- The test of the loop: the round goes on with an entry left, or ends. -/
theorem Dispatcher.at_turn (hdb : d.dbs (sqDbsIdx qid) = ((o + p) % q : ℕ))
    (hr : r.At q o n p k m) (hqid : r.sqid = qid) (hsize : sq.queueSize = q) :
    (d.turn sq r).At qid q o n p := by
  unfold Dispatcher.turn
  split
  · rename_i hlt
    refine ⟨⟨sq, by simp [hqid], hsize⟩, hdb, ?_, ?_⟩
    · intro hother
      exact absurd hqid (hother r rfl)
    · rintro r' hr' -
      cases hr'
      rw [hr.seq, hr.numProc] at hlt
      exact ⟨k, m, hr, by omega⟩
  · exact Dispatcher.at_finish hdb hr hqid hsize

theorem Dispatcher.At.other_finish (h : d.At qid q o n p) (hqid : r.sqid ≠ qid)
    (hround : ∀ r', d.round = some r' → r'.sqid ≠ qid) : (d.finish sq r).At qid q o n p where
  size := by simpa [Dispatcher.finish, update_of_ne hqid.symm] using h.size
  doorbell := h.doorbell
  between := by
    intro _
    simpa [Dispatcher.finish, update_of_ne (sqDbsIdx_ne hqid).symm] using h.between hround
  inside := by
    intro r' hr'
    simp [Dispatcher.finish] at hr'

theorem Dispatcher.At.other_turn (h : d.At qid q o n p) (hqid : r.sqid ≠ qid)
    (hround : ∀ r', d.round = some r' → r'.sqid ≠ qid) : (d.turn sq r).At qid q o n p := by
  unfold Dispatcher.turn
  split
  · refine ⟨?_, h.doorbell, ?_, ?_⟩
    · simpa [update_of_ne hqid.symm] using h.size
    · intro _
      exact h.between hround
    · rintro r' hr' hqid'
      cases hr'
      exact absurd hqid' hqid
  · exact h.other_finish hqid hround

theorem Dispatcher.At.poll (h : d.At qid q o n p) (hle : n ≤ p) (hlt : p < n + q) (qid' : ℕ) :
    (d.poll qid').At qid q o n p := by
  unfold Dispatcher.poll
  split
  · rename_i sq hround hsq
    have hno : ∀ r', d.round = some r' → r'.sqid ≠ qid := by simp [hround]
    dsimp only
    split
    · by_cases hqid : qid' = qid
      · subst hqid
        obtain ⟨sq', hsq', hsize⟩ := h.size
        obtain rfl : sq' = sq := Option.some.inj (hsq'.symm.trans hsq)
        rw [h.doorbell, h.between hno]
        exact Dispatcher.at_turn h.doorbell (SqRound.At.enter hle hlt hsize) rfl hsize
      · exact h.other_turn hqid hno
    · exact h
  · exact h

/-- The invariant of a queue. -/
structure SqInv (s : Dispatch) (qid q o : ℕ) : Prop where
  accepted : s.accepted qid = (Ring.slots q o (s.accepted qid).length).map (↑)
  posted : (s.accepted qid).length ≤ s.posted qid
  free : s.posted qid < (s.accepted qid).length + q
  dev : s.dev.At qid q o (s.accepted qid).length (s.posted qid)

theorem SqInv.inOrder (h : SqInv s qid q o) : InOrder s qid q o := by
  refine ⟨h.accepted, h.posted, h.dev.doorbell, h.dev.between, ?_⟩
  intro r hr hqid
  obtain ⟨k, m, hat, hk⟩ := h.dev.inside r hr hqid
  refine ⟨?_, hat.entry, hat.latest⟩
  have := hat.last
  omega

theorem SqInv.ring (h : SqInv s qid q o) {qid' : ℕ} {v : ℤ} (hhost : HostRule s (.ring qid' v)) :
    SqInv { s with
      dev := s.dev.ring qid' v
      posted := update s.posted qid' (s.posted qid' + s.added qid' v) } qid q o := by
  obtain ⟨sq, hsq, hsize⟩ := h.dev.size
  by_cases hqid : qid' = qid
  · subst hqid
    obtain ⟨hv, hvq, hroom⟩ := hhost sq hsq
    rw [hsize] at hvq hroom
    have hadded : s.added qid' v = ((v - ((o + s.posted qid') % q : ℕ)) % q).toNat := by
      simp [Dispatch.added, hsq, hsize, h.dev.doorbell]
    have hdb : v = ((o + s.posted qid' + s.added qid' v) % q : ℕ) := by
      rw [hadded]
      exact Ring.eq_slot_add hv hvq
    refine ⟨h.accepted, ?_, ?_, ⟨⟨sq, hsq, hsize⟩, ?_, h.dev.between, ?_⟩⟩
    · have := h.posted
      simp only [update_self]
      omega
    · simpa using hroom
    · simp only [Dispatcher.ring, update_self]
      rw [← Nat.add_assoc]
      exact hdb
    · intro r hr hr'
      obtain ⟨k, m, hat, hk⟩ := h.dev.inside r hr hr'
      have := hat.last
      refine ⟨k, m, { hat with last := ?_ }, hk⟩
      simp only [update_self]
      omega
  · have hposted : update s.posted qid' (s.posted qid' + s.added qid' v) qid = s.posted qid :=
      update_of_ne (Ne.symm hqid) _ _
    refine ⟨h.accepted, ?_, ?_, ⟨⟨sq, hsq, hsize⟩, ?_, h.dev.between, ?_⟩⟩
    · simpa only [hposted] using h.posted
    · simpa only [hposted] using h.free
    · simp only [Dispatcher.ring, hposted, update_of_ne (sqDbsIdx_ne hqid).symm]
      exact h.dev.doorbell
    · intro r hr hr'
      simpa only [hposted] using h.dev.inside r hr hr'

theorem SqInv.poll (h : SqInv s qid q o) (qid' : ℕ) :
    SqInv { s with dev := s.dev.poll qid' } qid q o :=
  ⟨h.accepted, h.posted, h.free, h.dev.poll h.posted h.free qid'⟩

theorem SqInv.handle (h : SqInv s qid q o) (answer : Option ℕ) :
    SqInv { s with
      dev := s.dev.handle answer
      accepted := s.note (s.dev.accepts answer) } qid q o := by
  obtain ⟨hacc, hposted, hfree, hdev⟩ := h
  obtain ⟨sq, hsq, hsize⟩ := hdev.size
  cases hround : s.dev.round with
  | none =>
    have hnote : s.note (s.dev.accepts answer) = s.accepted := by
      cases answer <;> simp [Dispatcher.accepts, hround, Dispatch.note]
    simp only [Dispatcher.handle, hround, hnote]
    exact ⟨hacc, hposted, hfree, hdev⟩
  | some r =>
    by_cases hqid : r.sqid = qid
    · obtain ⟨k, m, hat, hk⟩ := hdev.inside r hround hqid
      cases answer with
      | none =>
        simp only [Dispatcher.handle, hround, hqid, hsq, Dispatcher.accepts, Dispatch.note]
        exact ⟨hacc, hposted, hfree, Dispatcher.at_finish hdev.doorbell hat hqid hsize⟩
      | some ioSize =>
        have hnote : s.note (s.dev.accepts (some ioSize)) qid = s.accepted qid ++ [r.sqEntry] := by
          simp [Dispatcher.accepts, hround, Dispatch.note, hqid]
        have hlen : (s.note (s.dev.accepts (some ioSize)) qid).length =
            (s.accepted qid).length + 1 := by simp [hnote]
        have hlast := hat.last
        refine ⟨?_, ?_, ?_, ?_⟩ <;> dsimp only
        · rw [hlen, Ring.slots_succ, List.map_append, ← hacc, hnote, hat.entry]
          rfl
        · rw [hlen]
          omega
        · rw [hlen]
          omega
        · rw [hlen]
          simp only [Dispatcher.handle, hround, hqid, hsq]
          have hq : 0 < q := by omega
          exact Dispatcher.at_turn hdev.doorbell (hat.took hq hsize hk ioSize) hqid hsize
    · have hno : ∀ r', s.dev.round = some r' → r'.sqid ≠ qid := by
        rintro r' hr'
        rw [hround] at hr'
        cases hr'
        exact hqid
      have hnote : s.note (s.dev.accepts answer) qid = s.accepted qid := by
        cases answer with
        | none => rfl
        | some ioSize =>
          simp [Dispatcher.accepts, hround, Dispatch.note, update_of_ne (Ne.symm hqid)]
      refine ⟨?_, ?_, ?_, ?_⟩ <;> dsimp only
      · rwa [hnote]
      · rwa [hnote]
      · rwa [hnote]
      · rw [hnote]
        simp only [Dispatcher.handle, hround]
        cases hsq' : s.dev.sqes r.sqid with
        | none => exact hdev
        | some sq' =>
          cases answer with
          | none => exact hdev.other_finish hqid hno
          | some ioSize => exact hdev.other_turn hqid hno

/-! ## The theorem -/

theorem Dispatcher.Idle.sqInv (hd : d.Idle) (hsq : d.sqes qid = some sq) :
    SqInv (Dispatch.start d) qid sq.queueSize.toNat (d.oldDbs (sqDbsIdx qid)).toNat := by
  obtain ⟨hold, hlt, hdb⟩ := hd.start qid sq hsq
  have hpos := hd.size qid sq hsq
  have hslot : d.oldDbs (sqDbsIdx qid) =
      (((d.oldDbs (sqDbsIdx qid)).toNat + 0) % sq.queueSize.toNat : ℕ) := by
    rw [Nat.add_zero, Nat.mod_eq_of_lt (by omega)]
    omega
  refine ⟨rfl, le_rfl, ?_, ⟨⟨sq, hsq, by omega⟩, ?_, ?_, ?_⟩⟩
  · simp only [Dispatch.start, List.length_nil]
    omega
  · exact hdb.trans hslot
  · intro _
    exact hslot
  · intro r hr
    simp [Dispatch.start, hd.round] at hr

theorem sqInv_step (qid q o : ℕ) (s : Dispatch) (e : DbEvent) (h : SqInv s qid q o)
    (hhost : HostRule s e) : Sat (fun _ => False) (SqInv · qid q o) (dispatcher.step s e) := by
  cases e with
  | ring qid' v => exact h.ring hhost
  | poll qid' => exact h.poll qid'
  | handle answer => exact h.handle answer

/-- **Every submission queue is dispatched exactly once and in order**, whatever the
    handler refuses and however the doorbells move. -/
theorem dispatched_in_order {es : List DbEvent} (hd : d.Idle)
    (hhost : dispatcher.Along HostRule (Dispatch.start d) es)
    (hrun : dispatcher.run (Dispatch.start d) es = .ok s) (hsq : d.sqes qid = some sq) :
    InOrder s qid sq.queueSize.toNat (d.oldDbs (sqDbsIdx qid)).toNat :=
  ((Machine.run_sat (sqInv_step qid _ _) (hd.sqInv hsq) hhost).of_ok hrun).inOrder

/-- One queue of two entries. -/
def pairDispatcher : Dispatcher where
  sqes qid := if qid = 1 then some ⟨1, 2, ⟨0, 0, 0, 0, 0⟩⟩ else none
  dbs _ := 0
  oldDbs _ := 0
  round := none

theorem pairDispatcher_idle : pairDispatcher.Idle := by
  refine ⟨rfl, ?_, ?_⟩
  all_goals
    intro qid sq hsq
    simp only [pairDispatcher] at hsq
    split_ifs at hsq
    cases hsq
    simp [pairDispatcher]

/-- An entry is refused and then taken, and the doorbell wraps. -/
def wrapRun : List DbEvent :=
  [.ring 1 1, .poll 1, .handle none, .poll 1, .handle (some 512), .ring 1 0, .poll 1,
    .handle (some 512)]

theorem dispatched_in_order_wrapRun :
    ∃ s, dispatcher.run (Dispatch.start pairDispatcher) wrapRun = .ok s ∧ s.accepted 1 = [0, 1] ∧
      InOrder s 1 2 0 := by
  have hqueue : pairDispatcher.sqes 1 = some ⟨1, 2, ⟨0, 0, 0, 0, 0⟩⟩ := rfl
  have hhost : dispatcher.Along HostRule (Dispatch.start pairDispatcher) wrapRun := by decide
  exact ⟨_, rfl, by decide, dispatched_in_order pairDispatcher_idle hhost rfl hqueue⟩

end WaitGc

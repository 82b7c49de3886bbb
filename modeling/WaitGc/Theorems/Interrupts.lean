/-
  WAITGC verification — no completion goes unannounced.

  A worker clears `interrupt_ready` before it raises the interrupt, so what is posted in
  between is announced by it, and what is posted later sets the flag again.  One worker
  is responsible for a queue, and it alone clears its flag; so `Owed` is kept by every
  event: what was posted is announced, or the flag is set and the worker has yet to
  come to it, or it is about to raise the interrupt.
-/
import WaitGc.Io.Interrupts
import WaitGc.Theorems.Completion

namespace WaitGc

open Outcome Function

variable {s s' s₀ : IrqLoops} {c k bound wid : ℕ}

namespace IrqLoops

/-- The worker that is responsible for the queue. -/
def owner (s : IrqLoops) (c : ℕ) : ℕ := getIoWorker s.nrIoWorkers c

/-- The queue exists, and has an interrupt. -/
def Served (s : IrqLoops) (c : ℕ) : Prop :=
  0 < c ∧ c ≤ s.nrCq ∧ s.irqEnabled c = true ∧ (s.queues.cqes c).isSome

/-- An interrupt was raised when the first `k` completions of the queue had been posted. -/
def Announced (s : IrqLoops) (c k : ℕ) : Prop := 0 < k → ∃ m ∈ s.signals c, k ≤ m

/-- The device was just set up. -/
structure Fresh (s : IrqLoops) : Prop where
  queues : s.queues.Fresh
  irqLock : ∀ c, s.irqLock c = false
  pc : ∀ wid, s.pc wid = .pass
  passes : ∀ wid, s.passes wid = 0
  signals : ∀ c, s.signals c = []

end IrqLoops

/-! ## What the queues do to the flag -/

theorem Completion.ready_of_cqes {q q' : Completion} (h : q'.cqes c = q.cqes c) : q'.ready c = q.ready c :=
  congrArg (fun cq => Option.elim cq false CompletionQueue.interruptReady) h

/-- An event of the completion queues posts at most one completion to `c`, and sets its flag
    when it does. -/
theorem completion_step_ready {q q' : Completion} {e : CqEvent} (h : completion.step q e = .ok q') (c : ℕ) :
    (q'.cqes c).isSome = (q.cqes c).isSome ∧
      ((q'.posted c = q.posted c ∧ q'.ready c = q.ready c) ∨
        (∃ cqe, q'.posted c = q.posted c ++ [cqe]) ∧ q'.ready c = true) := by
  have hquiet (q' : Completion) (hposted : q'.posted c = q.posted c) (hcqes : q'.cqes c = q.cqes c) :
      (q'.cqes c).isSome = (q.cqes c).isSome ∧
        ((q'.posted c = q.posted c ∧ q'.ready c = q.ready c) ∨
          (∃ cqe, q'.posted c = q.posted c ++ [cqe]) ∧ q'.ready c = true) :=
    ⟨by rw [hcqes], .inl ⟨hposted, Completion.ready_of_cqes hcqes⟩⟩
  cases e with
  | submit sqid =>
    cases h
    exact hquiet _ rfl rfl
  | post w =>
    change q.post w = .ok q' at h
    unfold Completion.post at h
    cases hcq : q.cqes w.cqid with
    | none => rw [hcq] at h; cases h
    | some cq =>
      rw [hcq] at h
      cases h
      by_cases heq : c = w.cqid
      · subst heq
        refine ⟨by simp [hcq], .inr ⟨⟨w.cqe cq.phase, by simp⟩, ?_⟩⟩
        simp [Completion.ready, fillCqResult]
      · exact hquiet _ (update_of_ne heq ..) (update_of_ne heq ..)
  | read cqid =>
    cases h
    unfold Completion.read
    split
    · exact hquiet _ rfl rfl
    · rename_i cq hcq
      by_cases hready : (cq.cq (q.host cqid).head).phase = (q.host cqid).phase
      · rw [if_pos hready]
        exact hquiet _ rfl rfl
      · rw [if_neg hready]
        exact hquiet _ rfl rfl
  | ring cqid n =>
    cases h
    unfold Completion.ring
    split
    · exact hquiet _ rfl rfl
    · exact hquiet _ rfl rfl
  | poll cqid =>
    cases h
    unfold Completion.poll
    split
    · exact hquiet _ rfl rfl
    · rename_i cq hcq
      dsimp only
      split_ifs
      · by_cases heq : c = cqid
        · subst heq
          refine ⟨by simp [hcq], .inl ⟨rfl, ?_⟩⟩
          simp [Completion.ready, hcq, nvmevProcIoCq]
        · exact hquiet _ rfl (update_of_ne heq ..)
      · exact hquiet _ rfl rfl

theorem Completion.ready_clear (q : Completion) (c : ℕ) : (q.clear c).ready c = false := by
  cases hcq : q.cqes c <;> simp [Completion.ready, Completion.clear, hcq]

theorem Completion.clear_cqes_of_ne (q : Completion) {c c' : ℕ} (h : c ≠ c') : (q.clear c').cqes c = q.cqes c :=
  update_of_ne h ..

/-! ## Who looks at a queue -/

/-- The worker is at the queue `c`, with its lock. -/
def IrqPc.At (c : ℕ) (pc : IrqPc) : Prop :=
  pc = .locked c ∨ pc = .ready c ∨ pc = .cleared c ∨ pc = .unlock c

/-- The worker is about to raise the interrupt of `c`: 1 if it is. -/
def IrqPc.due (c : ℕ) : IrqPc → ℕ
  | .cleared qidx => if qidx = c then 1 else 0
  | _ => 0

theorem IrqPc.due_cleared (c : ℕ) : (IrqPc.cleared c).due c = 1 := if_pos rfl

/-- The queue `c` is looked at by its worker only, under its lock; the flag stays set until
    that worker clears it, and every interrupt takes a flag that a completion set. -/
structure IrqInv (s : IrqLoops) (c : ℕ) : Prop where
  served : s.Served c
  owner : ∀ wid, (s.pc wid).At c → wid = s.owner c
  lock : s.irqLock c = true → (s.pc (s.owner c)).At c
  ready : s.pc (s.owner c) = .ready c → s.queues.ready c = true
  economy : (s.signals c).length + (s.queues.ready c).toNat + (s.pc (s.owner c)).due c ≤
    (s.queues.posted c).length

namespace IrqInv

theorem due_of_not_at {pc : IrqPc} (h : ¬ pc.At c) : pc.due c = 0 := by
  cases pc with
  | cleared qidx => exact if_neg fun heq => h (.inr (.inr (.inl (congrArg IrqPc.cleared heq))))
  | _ => rfl

theorem not_at (h : IrqInv s c) (hne : wid ≠ s.owner c) : ¬ (s.pc wid).At c := fun hat => hne (h.owner wid hat)

/-- The owner of the queue moves. -/
theorem here (h : IrqInv s c) {pc : IrqPc} (hpc : s'.pc = update s.pc (s.owner c) pc)
    (hnr : s'.nrIoWorkers = s.nrIoWorkers) (hserved : s'.Served c) (hlock : s'.irqLock c = true → pc.At c)
    (hready : pc = .ready c → s'.queues.ready c = true)
    (heconomy : (s'.signals c).length + (s'.queues.ready c).toNat + pc.due c ≤ (s'.queues.posted c).length) :
    IrqInv s' c := by
  have howner : s'.owner c = s.owner c := congrArg (getIoWorker · c) hnr
  refine ⟨hserved, ?_, ?_, ?_, ?_⟩
  · intro wid hat
    rw [howner]
    by_contra hne
    rw [hpc, update_of_ne hne] at hat
    exact h.not_at hne hat
  · rw [howner, hpc, update_self]
    exact hlock
  · rw [howner, hpc, update_self]
    exact hready
  · rw [howner, hpc, update_self]
    exact heconomy

/-- A worker moves that was not at the queue `c`, and is not. -/
theorem away (h : IrqInv s c) {pc : IrqPc} (hpc : s'.pc = update s.pc wid pc) (hold : ¬ (s.pc wid).At c)
    (hnew : ¬ pc.At c) (hnr : s'.nrIoWorkers = s.nrIoWorkers) (hserved : s'.Served c)
    (hlock : s'.irqLock c = s.irqLock c) (hflag : s'.queues.ready c = s.queues.ready c)
    (hsignals : s'.signals c = s.signals c) (hposted : s'.queues.posted c = s.queues.posted c) :
    IrqInv s' c := by
  by_cases hown : wid = s.owner c
  · subst hown
    refine h.here hpc hnr hserved ?_ ?_ ?_
    · rw [hlock]
      exact fun hlocked => absurd (h.lock hlocked) hold
    · rintro rfl
      exact absurd (.inr (.inl rfl)) hnew
    · have heconomy := h.economy
      rw [due_of_not_at hold] at heconomy
      rw [due_of_not_at hnew, hsignals, hflag, hposted]
      exact heconomy
  · have hsame : s'.pc (s.owner c) = s.pc (s.owner c) := by rw [hpc, update_of_ne (Ne.symm hown)]
    have hid : s'.pc = update s'.pc (s.owner c) (s.pc (s.owner c)) := by rw [← hsame, update_eq_self]
    refine ⟨hserved, ?_, ?_, ?_, ?_⟩
    · intro wid' hat
      change wid' = getIoWorker s'.nrIoWorkers c
      rw [hnr]
      refine h.owner wid' ?_
      by_cases heq : wid' = wid
      · subst heq
        rw [hpc, update_self] at hat
        exact absurd hat hnew
      · rwa [hpc, update_of_ne heq] at hat
    all_goals rw [show s'.owner c = s.owner c from congrArg (getIoWorker · c) hnr, hsame]
    · rw [hlock]
      exact h.lock
    · rw [hflag]
      exact h.ready
    · rw [hsignals, hflag, hposted]
      exact h.economy

theorem away_pass : ¬ IrqPc.At c .pass := by
  rintro (h | h | h | h) <;> cases h

theorem away_look (qidx : ℕ) : ¬ IrqPc.At c (.look qidx) := by
  rintro (h | h | h | h) <;> cases h

/-- **A worker moves.** -/
theorem turn (h : IrqInv s c) (wid : ℕ) : IrqInv (s.turn wid) c := by
  have hserved := h.served
  unfold IrqLoops.turn
  cases hpc : s.pc wid with
  | pass => exact h.away rfl (hpc ▸ away_pass) (away_look 1) rfl hserved rfl rfl rfl rfl
  | look qidx =>
    have hold : ¬ (s.pc wid).At c := hpc ▸ away_look qidx
    dsimp only
    split_ifs with hlast hmine hskip hlocked
    · exact h.away rfl hold away_pass rfl hserved rfl rfl rfl rfl
    · exact h.away rfl hold (away_look _) rfl hserved rfl rfl rfl rfl
    · exact h.away rfl hold (away_look _) rfl hserved rfl rfl rfl rfl
    · exact h.away rfl hold (away_look _) rfl hserved rfl rfl rfl rfl
    · by_cases heq : qidx = c
      · subst heq
        obtain rfl : wid = s.owner qidx := not_not.1 hmine
        have heconomy := h.economy
        rw [hpc] at heconomy
        exact h.here rfl rfl hserved (fun _ => .inl rfl) (fun heq => nomatch heq) heconomy
      · refine h.away rfl hold ?_ rfl hserved (update_of_ne (Ne.symm heq) ..) rfl rfl rfl
        rintro (h | h | h | h) <;> cases h
        exact heq rfl
  | locked qidx =>
    by_cases heq : qidx = c
    · subst heq
      obtain rfl := h.owner wid (hpc ▸ .inl rfl)
      have heconomy := h.economy
      rw [hpc] at heconomy
      dsimp only
      split_ifs with hready
      · exact h.here rfl rfl hserved (fun _ => .inr (.inl rfl)) (fun _ => hready) heconomy
      · exact h.here rfl rfl hserved (fun _ => .inr (.inr (.inr rfl))) (fun heq => nomatch heq) heconomy
    · have hold : ¬ (s.pc wid).At c := by
        rw [hpc]
        rintro (h | h | h | h) <;> cases h
        exact heq rfl
      refine h.away rfl hold ?_ rfl hserved rfl rfl rfl rfl
      split_ifs
      all_goals
        rintro (h | h | h | h) <;> cases h
        exact heq rfl
  | ready qidx =>
    by_cases heq : qidx = c
    · subst heq
      obtain rfl := h.owner wid (hpc ▸ .inr (.inl rfl))
      have heconomy := h.economy
      rw [hpc, h.ready hpc] at heconomy
      refine h.here rfl rfl ?_ (fun _ => .inr (.inr (.inl rfl))) (fun heq => nomatch heq) ?_
      · refine ⟨hserved.1, hserved.2.1, hserved.2.2.1, ?_⟩
        change (update s.queues.cqes qidx _ qidx).isSome = true
        rw [update_self, Option.isSome_map]
        exact hserved.2.2.2
      · change _ + ((s.queues.clear qidx).ready qidx).toNat + _ ≤ _
        rw [s.queues.ready_clear, IrqPc.due_cleared]
        exact heconomy
    · have hold : ¬ (s.pc wid).At c := by
        rw [hpc]
        rintro (h | h | h | h) <;> cases h
        exact heq rfl
      have hcqes := s.queues.clear_cqes_of_ne (Ne.symm heq)
      refine h.away rfl hold ?_ rfl ?_ rfl (Completion.ready_of_cqes hcqes) rfl rfl
      · rintro (h | h | h | h) <;> cases h
        exact heq rfl
      · refine ⟨hserved.1, hserved.2.1, hserved.2.2.1, ?_⟩
        change ((s.queues.clear qidx).cqes c).isSome = true
        rw [hcqes]
        exact hserved.2.2.2
  | cleared qidx =>
    by_cases heq : qidx = c
    · subst heq
      obtain rfl := h.owner wid (hpc ▸ .inr (.inr (.inl rfl)))
      have heconomy := h.economy
      rw [hpc, IrqPc.due_cleared] at heconomy
      refine h.here rfl rfl hserved (fun _ => .inr (.inr (.inr rfl))) (fun heq => nomatch heq) ?_
      change (update s.signals qidx _ qidx).length + (s.queues.ready qidx).toNat + 0 ≤ (s.queues.posted qidx).length
      rw [update_self, List.length_append, List.length_singleton]
      omega
    · have hold : ¬ (s.pc wid).At c := by
        rw [hpc]
        rintro (h | h | h | h) <;> cases h
        exact heq rfl
      refine h.away rfl hold ?_ rfl hserved rfl rfl (update_of_ne (Ne.symm heq) ..) rfl
      rintro (h | h | h | h) <;> cases h
      exact heq rfl
  | unlock qidx =>
    by_cases heq : qidx = c
    · subst heq
      obtain rfl := h.owner wid (hpc ▸ .inr (.inr (.inr rfl)))
      have heconomy := h.economy
      rw [hpc] at heconomy
      refine h.here rfl rfl hserved ?_ (fun heq => nomatch heq) heconomy
      intro hlocked
      change update s.irqLock qidx false qidx = true at hlocked
      rw [update_self] at hlocked
      cases hlocked
    · have hold : ¬ (s.pc wid).At c := by
        rw [hpc]
        rintro (h | h | h | h) <;> cases h
        exact heq rfl
      exact h.away rfl hold (away_look _) rfl hserved (update_of_ne (Ne.symm heq) ..) rfl rfl rfl

theorem queue (h : IrqInv s c) {e : CqEvent} {queues : Completion} (hstep : completion.step s.queues e = .ok queues) :
    IrqInv { s with queues := queues } c := by
  obtain ⟨hserved, howner, hlock, hready, heconomy⟩ := h
  obtain ⟨hsome, ⟨hposted, hflag⟩ | ⟨⟨cqe, hposted⟩, hflag⟩⟩ := completion_step_ready hstep c
  · refine ⟨⟨hserved.1, hserved.2.1, hserved.2.2.1, hsome.trans hserved.2.2.2⟩, howner, hlock, ?_, ?_⟩
    · intro hat
      exact hflag.trans (hready hat)
    · change _ + (queues.ready c).toNat + _ ≤ (queues.posted c).length
      rw [hposted, hflag]
      exact heconomy
  · refine ⟨⟨hserved.1, hserved.2.1, hserved.2.2.1, hsome.trans hserved.2.2.2⟩, howner, hlock, fun _ => hflag, ?_⟩
    change (s.signals c).length + (queues.ready c).toNat + (s.pc (s.owner c)).due c ≤ (queues.posted c).length
    rw [hposted, hflag, List.length_append, List.length_singleton, Bool.toNat_true]
    omega

end IrqInv

theorem irqInv_step (c : ℕ) (s : IrqLoops) (e : IrqEvent) (h : IrqInv s c) :
    Yields (IrqInv · c) (irqLoops.step s e) := by
  cases e with
  | queue e =>
    refine yields_iff.2 fun s' hs' => ?_
    obtain ⟨queues, hstep, rfl⟩ := exists_ok_of_map hs'
    exact h.queue hstep
  | turn wid =>
    change IrqInv (if wid < s.nrIoWorkers then s.turn wid else s) c
    split_ifs
    · exact h.turn wid
    · exact h

/-! ## What is owed -/

/-- The worker comes to the queue `c` before its loop over the queues ends. -/
def IrqPc.Before (c : ℕ) : IrqPc → Prop
  | .pass => True
  | .look qidx | .locked qidx => qidx ≤ c
  | .ready qidx | .cleared qidx | .unlock qidx => qidx < c

/-- The first `k` completions of the queue are announced, or will be before its worker has
    ended `bound` passes. -/
def Owed (c k bound : ℕ) (s : IrqLoops) : Prop :=
  k ≤ (s.queues.posted c).length ∧
    (s.Announced c k ∨
      (s.queues.ready c = true ∧ ((s.pc (s.owner c)).Before c ∧ s.passes (s.owner c) + 1 ≤ bound ∨
        s.passes (s.owner c) + 2 ≤ bound)) ∨
      ((s.pc (s.owner c) = .ready c ∨ s.pc (s.owner c) = .cleared c) ∧ s.passes (s.owner c) + 1 ≤ bound))

namespace Owed

/-- Nothing changes for the queue and its worker. -/
theorem congr (h : Owed c k bound s) (howner : s'.owner c = s.owner c)
    (hposted : s'.queues.posted c = s.queues.posted c) (hflag : s'.queues.ready c = s.queues.ready c)
    (hsignals : s'.signals c = s.signals c) (hpc : s'.pc (s.owner c) = s.pc (s.owner c))
    (hpasses : s'.passes (s.owner c) = s.passes (s.owner c)) : Owed c k bound s' := by
  unfold Owed IrqLoops.Announced at h ⊢
  rw [howner, hposted, hflag, hsignals, hpc, hpasses]
  exact h

theorem turn_other (h : Owed c k bound s) (hinv : IrqInv s c) (hne : wid ≠ s.owner c) :
    Owed c k bound (s.turn wid) := by
  have hat := hinv.not_at hne
  have hpc (pc : IrqPc) : update s.pc wid pc (s.owner c) = s.pc (s.owner c) := update_of_ne (Ne.symm hne) ..
  unfold IrqLoops.turn
  cases hwid : s.pc wid with
  | pass => exact h.congr rfl rfl rfl rfl (hpc _) rfl
  | look qidx =>
    dsimp only
    split_ifs
    · exact h.congr rfl rfl rfl rfl (hpc _) (update_of_ne (Ne.symm hne) ..)
    · exact h.congr rfl rfl rfl rfl (hpc _) rfl
    · exact h.congr rfl rfl rfl rfl (hpc _) rfl
    · exact h.congr rfl rfl rfl rfl (hpc _) rfl
    · exact h.congr rfl rfl rfl rfl (hpc _) rfl
  | locked qidx => exact h.congr rfl rfl rfl rfl (hpc _) rfl
  | ready qidx =>
    have hq : c ≠ qidx := fun heq => hat (hwid ▸ heq ▸ .inr (.inl rfl))
    exact h.congr rfl rfl (Completion.ready_of_cqes (s.queues.clear_cqes_of_ne hq)) rfl (hpc _) rfl
  | cleared qidx =>
    have hq : c ≠ qidx := fun heq => hat (hwid ▸ heq ▸ .inr (.inr (.inl rfl)))
    exact h.congr rfl rfl rfl (update_of_ne hq ..) (hpc _) rfl
  | unlock qidx => exact h.congr rfl rfl rfl rfl (hpc _) rfl

/-- The owner moves, and its place keeps the promise. -/
theorem step {pc : IrqPc} {passes : ℕ} (hk : k ≤ (s.queues.posted c).length) (howner : s'.owner c = s.owner c)
    (hposted : s'.queues.posted c = s.queues.posted c) (hpc : s'.pc (s.owner c) = pc)
    (hpasses : s'.passes (s.owner c) = passes)
    (h : s'.Announced c k ∨
      (s'.queues.ready c = true ∧ (pc.Before c ∧ passes + 1 ≤ bound ∨ passes + 2 ≤ bound)) ∨
      ((pc = .ready c ∨ pc = .cleared c) ∧ passes + 1 ≤ bound)) : Owed c k bound s' := by
  refine ⟨hposted ▸ hk, ?_⟩
  rw [howner, hpc, hpasses]
  exact h

theorem turn_posted (s : IrqLoops) (wid : ℕ) : (s.turn wid).queues.posted = s.queues.posted := by
  unfold IrqLoops.turn
  cases s.pc wid with
  | look qidx =>
    dsimp only
    split_ifs <;> rfl
  | _ => rfl

theorem turn_announced (h : s.Announced c k) (wid : ℕ) : (s.turn wid).Announced c k := by
  unfold IrqLoops.turn
  cases s.pc wid with
  | look qidx =>
    dsimp only
    split_ifs <;> exact h
  | cleared qidx =>
    intro hk
    obtain ⟨m, hm, hle⟩ := h hk
    refine ⟨m, ?_, hle⟩
    change m ∈ update s.signals qidx _ c
    by_cases heq : c = qidx
    · subst heq
      rw [update_self]
      exact List.mem_append_left _ hm
    · rwa [update_of_ne heq]
  | _ => exact h

theorem turn_signal (hk : k ≤ (s.queues.posted c).length) (hpc : s.pc wid = .cleared c) :
    Owed c k bound (s.turn wid) := by
  unfold IrqLoops.turn
  rw [hpc]
  refine ⟨hk, .inl fun _ => ⟨(s.queues.posted c).length, ?_, hk⟩⟩
  change _ ∈ update s.signals c _ c
  rw [update_self]
  exact List.mem_append_right _ (List.mem_singleton_self _)

theorem turn_clear (hk : k ≤ (s.queues.posted c).length) (hpc : s.pc (s.owner c) = .ready c)
    (hle : s.passes (s.owner c) + 1 ≤ bound) : Owed c k bound (s.turn (s.owner c)) := by
  unfold IrqLoops.turn
  rw [hpc]
  exact step hk rfl rfl (update_self ..) rfl (.inr (.inr ⟨.inr rfl, hle⟩))

theorem turn_owner (h : Owed c k bound s) (hinv : IrqInv s c) : Owed c k bound (s.turn (s.owner c)) := by
  obtain ⟨hk, hann | ⟨hflag, hplace⟩ | ⟨hready | hcleared, hle⟩⟩ := h
  · exact ⟨turn_posted s (s.owner c) ▸ hk, .inl (turn_announced hann (s.owner c))⟩
  · obtain ⟨hpos, hnr, henabled, hsome⟩ := hinv.served
    have hpast : s.passes (s.owner c) + 1 ≤ bound := by
      rcases hplace with hplace | hplace
      · exact hplace.2
      · omega
    cases hpc : s.pc (s.owner c) with
    | pass =>
      unfold IrqLoops.turn
      rw [hpc]
      exact step hk rfl rfl (update_self ..) rfl (.inr (.inl ⟨hflag, .inl ⟨hpos, hpast⟩⟩))
    | look qidx =>
      rw [hpc] at hplace
      have hnext (hne : qidx ≠ c) : (IrqPc.look (qidx + 1)).Before c ∧ s.passes (s.owner c) + 1 ≤ bound ∨
          s.passes (s.owner c) + 2 ≤ bound :=
        hplace.imp_left fun ⟨hbefore, hle⟩ => ⟨lt_of_le_of_ne hbefore hne, hle⟩
      unfold IrqLoops.turn
      rw [hpc]
      dsimp only
      split_ifs with hlast hmine hskip hlocked
      · -- the loop over the queues ends
        have hlate : s.passes (s.owner c) + 2 ≤ bound := by
          rcases hplace with ⟨hbefore, -⟩ | hplace
          · exact absurd (hbefore.trans hnr) (Nat.not_le_of_lt hlast)
          · exact hplace
        exact step hk rfl rfl (update_self ..) (update_self ..) (.inr (.inl ⟨hflag, .inl ⟨trivial, hlate⟩⟩))
      · have hne : qidx ≠ c := by
          rintro rfl
          exact hmine rfl
        exact step hk rfl rfl (update_self ..) rfl (.inr (.inl ⟨hflag, hnext hne⟩))
      · have hne : qidx ≠ c := by
          rintro rfl
          rcases hskip with hnone | hoff
          · rw [Option.isNone_iff_eq_none.1 hnone] at hsome
            cases hsome
          · rw [henabled] at hoff
            cases hoff
        exact step hk rfl rfl (update_self ..) rfl (.inr (.inl ⟨hflag, hnext hne⟩))
      · have hne : qidx ≠ c := by
          rintro rfl
          exact IrqInv.away_look qidx (hpc ▸ hinv.lock hlocked)
        exact step hk rfl rfl (update_self ..) rfl (.inr (.inl ⟨hflag, hnext hne⟩))
      · exact step hk rfl rfl (update_self ..) rfl (.inr (.inl ⟨hflag, hplace⟩))
    | locked qidx =>
      rw [hpc] at hplace
      unfold IrqLoops.turn
      rw [hpc]
      by_cases heq : qidx = c
      · subst heq
        refine step hk rfl rfl (update_self ..) rfl (.inr (.inr ⟨.inl ?_, hpast⟩))
        rw [if_pos hflag]
      · refine step hk rfl rfl (update_self ..) rfl
          (.inr (.inl ⟨hflag, hplace.imp_left fun ⟨hbefore, hle⟩ => ⟨?_, hle⟩⟩))
        have hlt : qidx < c := lt_of_le_of_ne hbefore heq
        split_ifs
        · exact hlt
        · exact hlt
    | ready qidx =>
      by_cases heq : qidx = c
      · subst heq
        exact turn_clear hk hpc hpast
      · rw [hpc] at hplace
        unfold IrqLoops.turn
        rw [hpc]
        have hkeep := Completion.ready_of_cqes (s.queues.clear_cqes_of_ne (Ne.symm heq))
        exact step hk rfl rfl (update_self ..) rfl (.inr (.inl ⟨hkeep.trans hflag, hplace⟩))
    | cleared qidx =>
      by_cases heq : qidx = c
      · subst heq
        exact turn_signal hk hpc
      · rw [hpc] at hplace
        unfold IrqLoops.turn
        rw [hpc]
        exact step hk rfl rfl (update_self ..) rfl (.inr (.inl ⟨hflag, hplace⟩))
    | unlock qidx =>
      rw [hpc] at hplace
      unfold IrqLoops.turn
      rw [hpc]
      exact step hk rfl rfl (update_self ..) rfl (.inr (.inl ⟨hflag, hplace⟩))
  · exact turn_clear hk hready hle
  · exact turn_signal hk hcleared

theorem queue (h : Owed c k bound s) {e : CqEvent} {queues : Completion}
    (hstep : completion.step s.queues e = .ok queues) : Owed c k bound { s with queues := queues } := by
  obtain ⟨hk, howed⟩ := h
  obtain ⟨-, ⟨hposted, hflag⟩ | ⟨⟨cqe, hposted⟩, hflag⟩⟩ := completion_step_ready hstep c
  · refine ⟨hposted ▸ hk, howed.imp_right (Or.imp_left fun ⟨hset, hplace⟩ => ⟨hflag.trans hset, hplace⟩)⟩
  · refine ⟨?_, howed.imp_right (Or.imp_left fun ⟨_, hplace⟩ => ⟨hflag, hplace⟩)⟩
    change k ≤ (queues.posted c).length
    rw [hposted, List.length_append]
    omega

end Owed

theorem owed_step (c k bound : ℕ) (s : IrqLoops) (e : IrqEvent) (h : IrqInv s c ∧ Owed c k bound s) :
    Yields (fun s' => IrqInv s' c ∧ Owed c k bound s') (irqLoops.step s e) := by
  refine (irqInv_step c s e h.1).yields ?_
  cases e with
  | queue e =>
    refine yields_iff.2 fun s' hs' => ?_
    obtain ⟨queues, hstep, rfl⟩ := exists_ok_of_map hs'
    exact h.2.queue hstep
  | turn wid =>
    change Owed c k bound (if wid < s.nrIoWorkers then s.turn wid else s)
    split_ifs
    · by_cases heq : wid = s.owner c
      · subst heq
        exact h.2.turn_owner h.1
      · exact h.2.turn_other h.1 heq
    · exact h.2

/-! ## The theorem -/

/-- What was posted is announced or owed, in every state. -/
def Kept (c : ℕ) (s : IrqLoops) : Prop := ∃ bound, Owed c (s.queues.posted c).length bound s

theorem kept_step (c : ℕ) (s : IrqLoops) (e : IrqEvent) (h : IrqInv s c ∧ Kept c s) :
    Yields (fun s' => IrqInv s' c ∧ Kept c s') (irqLoops.step s e) := by
  obtain ⟨hinv, bound, howed⟩ := h
  refine (irqInv_step c s e hinv).yields (yields_iff.2 fun s' hs' => ?_)
  have howed' := ((owed_step c _ bound s e ⟨hinv, howed⟩).of_ok hs').2
  cases e with
  | queue e =>
    obtain ⟨queues, hstep, rfl⟩ := exists_ok_of_map hs'
    obtain ⟨-, ⟨hposted, -⟩ | ⟨-, hflag⟩⟩ := completion_step_ready hstep c
    · exact ⟨bound, by rw [hposted]; exact howed'⟩
    · -- a new completion has set the flag
      exact ⟨s.passes (s.owner c) + 2, le_rfl, .inr (.inl ⟨hflag, .inr le_rfl⟩)⟩
  | turn wid =>
    have hposted : s'.queues.posted c = s.queues.posted c := by
      cases hs'
      split_ifs
      · exact congrFun (Owed.turn_posted s wid) c
      · rfl
    exact ⟨bound, by rw [hposted]; exact howed'⟩

theorem IrqLoops.Fresh.inv (h : s.Fresh) (hserved : s.Served c) : IrqInv s c ∧ Kept c s := by
  have hpc : s.pc (s.owner c) = .pass := h.pc _
  obtain ⟨cq, hcq⟩ := Option.isSome_iff_exists.1 hserved.2.2.2
  obtain ⟨qsize, mem, rfl, -⟩ := h.queues.cqes c cq hcq
  have hflag : s.queues.ready c = false := by
    rw [Completion.ready, hcq]
    rfl
  refine ⟨⟨hserved, ?_, ?_, ?_, ?_⟩, 0, le_rfl, .inl ?_⟩
  · intro wid hat
    rw [h.pc] at hat
    exact absurd hat IrqInv.away_pass
  · rw [h.irqLock]
    exact fun hlocked => nomatch hlocked
  · rw [hpc]
    exact fun hready => nomatch hready
  · rw [h.signals, hflag, hpc, h.queues.posted]
    exact le_rfl
  · rw [h.queues.posted]
    exact fun hk => absurd hk (lt_irrefl 0)

theorem nrIoWorkers_step (n : ℕ) (s : IrqLoops) (e : IrqEvent) (h : s.nrIoWorkers = n) :
    Yields (fun s' => s'.nrIoWorkers = n) (irqLoops.step s e) := by
  cases e with
  | queue e =>
    refine yields_iff.2 fun s' hs' => ?_
    obtain ⟨queues, -, rfl⟩ := exists_ok_of_map hs'
    exact h
  | turn wid =>
    change (if wid < s.nrIoWorkers then s.turn wid else s).nrIoWorkers = n
    split_ifs
    · unfold IrqLoops.turn
      cases s.pc wid with
      | look qidx =>
        dsimp only
        split_ifs <;> exact h
      | _ => exact h
    · exact h

/-- **No completion goes unannounced**, whoever posts it and whenever: once the worker that is
    responsible for a queue has ended two more passes, an interrupt was raised after
    everything posted to the queue before them; and a queue never has more interrupts
    than completions. -/
theorem completions_announced {es es' : List IrqEvent} (hfresh : s₀.Fresh) (hserved : s₀.Served c)
    (hreach : irqLoops.run s₀ es = .ok s) (hrun : irqLoops.run s es' = .ok s')
    (hpasses : s.passes (s.owner c) + 2 ≤ s'.passes (s.owner c)) :
    s'.Announced c (s.queues.posted c).length ∧ (s'.signals c).length ≤ (s'.queues.posted c).length := by
  obtain ⟨hinv, bound, -, hkept⟩ := (Machine.run_sat (fun s e h _ => kept_step c s e h) (hfresh.inv hserved)
    (Machine.along_true s₀ es)).of_ok hreach
  -- what is owed in `s` is owed within two passes
  have howed : Owed c (s.queues.posted c).length (s.passes (s.owner c) + 2) s :=
    ⟨le_rfl, hkept.imp_right (Or.imp (fun ⟨hflag, _⟩ => ⟨hflag, .inr le_rfl⟩) fun ⟨hat, _⟩ => ⟨hat, by omega⟩)⟩
  obtain ⟨hinv', -, howed'⟩ := (Machine.run_sat (fun s e h _ => owed_step c _ _ s e h) ⟨hinv, howed⟩
    (Machine.along_true s es')).of_ok hrun
  have hnr : s'.nrIoWorkers = s.nrIoWorkers := (Machine.run_sat (I := fun s' => s'.nrIoWorkers = s.nrIoWorkers)
    (fun s' e h _ => nrIoWorkers_step s.nrIoWorkers s' e h) rfl (Machine.along_true s es')).of_ok hrun
  have howner : s'.owner c = s.owner c := congrArg (getIoWorker · c) hnr
  refine ⟨?_, ?_⟩
  · rw [howner] at howed'
    rcases howed' with hann | ⟨-, ⟨-, hle⟩ | hle⟩ | ⟨-, hle⟩
    · exact hann
    all_goals omega
  · have heconomy := hinv'.economy
    omega

/-- One queue, looked at by the only worker. -/
def oneInterrupt : IrqLoops where
  queues := sharedCq
  irqEnabled _ := true
  irqLock _ := false
  nrIoWorkers := 1
  nrCq := 1
  pc _ := .pass
  passes _ := 0
  signals _ := []

theorem oneInterrupt_fresh : oneInterrupt.Fresh :=
  ⟨sharedCq_fresh, fun _ => rfl, fun _ => rfl, fun _ => rfl, fun _ => rfl⟩

/-- A second completion is posted after the worker has tested the flag. -/
def lateRun : List IrqEvent :=
  [.queue (.post (sharedWork 1 7)), .turn 0, .turn 0, .turn 0, .queue (.post (sharedWork 1 8))]

theorem completions_announced_lateRun : ∃ s s', irqLoops.run oneInterrupt lateRun = .ok s ∧
    irqLoops.run s (List.replicate 10 (.turn 0)) = .ok s' ∧ s'.signals 1 = [2] ∧
    s'.Announced 1 (s.queues.posted 1).length ∧ (s'.signals 1).length ≤ (s'.queues.posted 1).length := by
  have hserved : oneInterrupt.Served 1 := ⟨Nat.one_pos, le_rfl, rfl, rfl⟩
  have hrun : (irqLoops.run oneInterrupt lateRun >>= fun s =>
      (irqLoops.run s (List.replicate 10 (.turn 0))).map fun s' =>
        (s'.signals 1, [s.nrIoWorkers, s.passes 0, s'.passes 0])) = .ok ([2], [1, 0, 2]) := by decide
  obtain ⟨s, hreach, hrun⟩ := bind_eq_ok hrun
  obtain ⟨s', hrun, hvals⟩ := exists_ok_of_map hrun
  simp only [Prod.mk.injEq, List.cons.injEq] at hvals
  obtain ⟨hsignals, hnr, hpasses, hpasses', -⟩ := hvals
  have howner : s.owner 1 = 0 := by rw [IrqLoops.owner, hnr]; rfl
  have hdone := completions_announced oneInterrupt_fresh hserved hreach hrun (by rw [howner, hpasses, hpasses'])
  exact ⟨s, s', hreach, hrun, hsignals, hdone⟩

end WaitGc

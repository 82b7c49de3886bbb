/-
  WAITGC verification — the handles of the iterators of a key-value namespace.

  `kv_iterator_handles_iff`: `iter_handle` is indexed where it has an element, its
  contexts are used while they are open, and a new iterator gets a handle of its
  own, exactly along runs that open at most sixteen iterators at a time, use
  handles up to 16, and meet no pointer that was there before.
-/
import WaitGc.Kv.Iter

namespace WaitGc

open Outcome Function

variable {c : KvCfg} {t : KvTable} {s s' : IterHandles} {cmd : KvIterCommand} {status i : ℕ}

/-- The command opens an iterator. -/
def KvIterCommand.opens (cmd : KvIterCommand) : Bool :=
  cmd.opcode = .iterReq ∧ cmd.option &&& ITER_OPTION_OPEN ≠ 0

/-- The command closes an iterator, or reads from one. -/
def KvIterCommand.uses (cmd : KvIterCommand) : Bool :=
  cmd.opcode = .iterRead ∨
    cmd.opcode = .iterReq ∧ cmd.option &&& ITER_OPTION_OPEN = 0 ∧ cmd.option &&& ITER_OPTION_CLOSE ≠ 0

def IterPtr.isOpen : IterPtr → Bool
  | ctx _ => true
  | _ => false

def IterPtr.isWild : IterPtr → Bool
  | wild => true
  | _ => false

/-- The iterators that are open. -/
def openCount (s : IterHandles) : ℕ := (List.range ITER_HANDLES).countP fun iter => (s iter).isOpen

/-- The iterators as a machine; the status of a command is 0 until it is set. -/
def iterMachine (c : KvCfg) (t : KvTable) : Machine IterHandles KvIterCommand IterFault where
  step s cmd := (doPerformKvIterIo c t s cmd 0).map Prod.snd

/-- The command indexes `iter_handle` within its bounds, dereferences and frees what is open
    only, and opens an iterator under a handle of its own if fewer than sixteen are open. -/
structure IterSafe (c : KvCfg) (t : KvTable) (s : IterHandles) (cmd : KvIterCommand) : Prop where
  index : doPerformKvIterIo c t s cmd 0 ≠ .error .handleIndex
  pointer : doPerformKvIterIo c t s cmd 0 ≠ .error .wildHandle
  opens : cmd.opens = true → ∀ r s', doPerformKvIterIo c t s cmd 0 = .ok (r, s') →
    (s r.result).isOpen = false ∧ (openCount s < 16 → r.status = 0 ∧ (s' r.result).isOpen = true)

/-- The handle of the command is one of 0 to 16, and its element was set. -/
def HandleSet (s : IterHandles) (cmd : KvIterCommand) : Prop :=
  cmd.iterHandle.toNat < ITER_HANDLES ∧ (s cmd.iterHandle.toNat).isWild = false

/-- One of the handles 1 to 16 is free for a new iterator, and a handle that is used was set. -/
structure IterCond (s : IterHandles) (cmd : KvIterCommand) : Prop where
  opens : cmd.opens = true → ∃ iter ∈ List.range' 1 16, (s iter).isNull = true
  uses : cmd.uses = true → HandleSet s cmd

/-! ## One command -/

theorem iterLoop_error {h : KvIterContext} {fuel : ℕ} {v : IterVars} {f : IterFault}
    (hrun : iterLoop c t h fuel v = .error f) : f = .endless := by
  induction fuel generalizing v with
  | zero => cases hrun; rfl
  | succ fuel ih =>
    rw [iterLoop] at hrun
    dsimp only at hrun
    split_ifs at hrun <;> exact ih hrun

theorem iterRead_error {h : KvIterContext} {value : HostData} {f : IterFault}
    (hrun : iterRead c t h value = .error f) : f = .endless := by
  rcases bind_eq_error_iff.1 hrun with hloop | ⟨r, -, hrun⟩
  · exact iterLoop_error hloop
  · cases hrun

/-- A command stops at its handle. -/
def StopsAtHandle (m : Except IterFault (KvResult × IterHandles)) : Prop :=
  m = .error .handleIndex ∨ m = .error .wildHandle

/-- What is done with the element of a handle: it stops there exactly if the handle was not set. -/
theorem handleAt_stops {m : IterPtr → Except IterFault (KvResult × IterHandles)}
    (hwild : m .wild = .error .wildHandle) (hset : ∀ p, p.isWild = false → ¬ StopsAtHandle (m p)) :
    StopsAtHandle (handleAt s cmd.iterHandle.toNat >>= m) ↔ ¬ HandleSet s cmd := by
  unfold HandleSet handleAt
  by_cases hlt : cmd.iterHandle.toNat < ITER_HANDLES
  · rw [require_pos hlt, ok_bind, pure_bind, and_iff_right hlt, Bool.not_eq_false]
    cases hp : (s cmd.iterHandle.toNat).isWild with
    | false => exact iff_of_false (hset _ hp) Bool.false_ne_true
    | true =>
      refine iff_of_true ?_ rfl
      cases hs : s cmd.iterHandle.toNat with
      | wild => exact .inr hwild
      | null => rw [hs] at hp; cases hp
      | ctx h => rw [hs] at hp; cases hp
  · rw [require_neg hlt]
    exact iff_of_true (.inl rfl) fun h => hlt h.1

theorem kvIterClose_stops : StopsAtHandle (kvIterClose s cmd) ↔ ¬ HandleSet s cmd := by
  refine handleAt_stops rfl fun p hp => ?_
  cases p with
  | null => rintro (h | h) <;> cases h
  | ctx h => rintro (h | h) <;> cases h
  | wild => cases hp

theorem kvIterRead_stops : StopsAtHandle (kvIterRead c t s cmd status) ↔ ¬ HandleSet s cmd := by
  refine handleAt_stops rfl fun p hp => ?_
  cases p with
  | null => rintro (h | h) <;> cases h
  | ctx h =>
    rintro (hf | hf) <;> rcases bind_eq_error_iff.1 hf with hf | ⟨r, -, hf⟩
    · cases iterRead_error hf
    · cases hf
    · cases iterRead_error hf
    · cases hf
  | wild => cases hp

theorem doPerform_opens (h : cmd.opens = true) :
    doPerformKvIterIo c t s cmd status = .ok (kvIterOpen s cmd status) := by
  simp only [KvIterCommand.opens, decide_eq_true_eq] at h
  unfold doPerformKvIterIo
  rw [h.1]
  exact if_pos h.2

theorem doPerform_uses (h : cmd.uses = true) :
    doPerformKvIterIo c t s cmd status = kvIterRead c t s cmd status ∨
      doPerformKvIterIo c t s cmd status = kvIterClose s cmd := by
  simp only [KvIterCommand.uses, decide_eq_true_eq] at h
  unfold doPerformKvIterIo
  rcases h with hop | ⟨hop, hopen, hclose⟩
  · rw [hop]
    exact .inl rfl
  · rw [hop]
    dsimp only
    rw [if_neg (not_not_intro hopen), if_pos hclose]
    exact .inr rfl

theorem doPerform_other (hopens : cmd.opens = false) (huses : cmd.uses = false) :
    doPerformKvIterIo c t s cmd status = .ok (kvDone status, s) := by
  simp only [KvIterCommand.opens, KvIterCommand.uses, decide_eq_false_iff_not] at hopens huses
  unfold doPerformKvIterIo
  cases hop : cmd.opcode with
  | iterRead => exact absurd (.inl hop) huses
  | other => rfl
  | iterReq =>
    have hopen : cmd.option &&& ITER_OPTION_OPEN = 0 := by
      by_contra h
      exact hopens ⟨hop, h⟩
    have hclose : cmd.option &&& ITER_OPTION_CLOSE = 0 := by
      by_contra h
      exact huses (.inr ⟨hop, hopen, h⟩)
    dsimp only
    rw [if_neg (not_not_intro hopen), if_neg (not_not_intro hclose)]

/-- A command that opens an iterator, or does nothing, uses no handle. -/
theorem stops_iff : StopsAtHandle (doPerformKvIterIo c t s cmd status) ↔ cmd.uses = true ∧ ¬ HandleSet s cmd := by
  cases huses : cmd.uses with
  | true =>
    rw [and_iff_right rfl]
    rcases doPerform_uses huses with h | h
    · rw [h]; exact kvIterRead_stops
    · rw [h]; exact kvIterClose_stops
  | false =>
    refine iff_of_false ?_ fun h => Bool.false_ne_true h.1
    cases hopens : cmd.opens with
    | true =>
      rw [doPerform_opens hopens]
      rintro (h | h) <;> cases h
    | false =>
      rw [doPerform_other hopens huses]
      rintro (h | h) <;> cases h

/-- A new iterator gets a free handle. -/
theorem kvIterOpen_free (cmd : KvIterCommand) (status : ℕ)
    (hfree : ∃ iter ∈ List.range' 1 16, (s iter).isNull = true) :
    ∃ iter ∈ List.range' 1 16, (s iter).isNull = true ∧
      kvIterOpen s cmd status = (⟨0, iter, fun _ => 0⟩, update s iter (.ctx (iterContext cmd))) := by
  unfold kvIterOpen
  cases hfind : (List.range' 1 16).find? fun iter => (s iter).isNull with
  | none =>
    obtain ⟨iter, hmem, hnull⟩ := hfree
    exact absurd hnull (List.find?_eq_none.1 hfind iter hmem)
  | some iter =>
    have hnull : (s iter).isNull = true := by simpa using List.find?_some hfind
    exact ⟨iter, List.mem_of_find?_eq_some hfind, hnull, rfl⟩

/-- If there is none, the handle that is returned is 1. -/
theorem kvIterOpen_full (cmd : KvIterCommand) (status : ℕ)
    (hfull : ¬ ∃ iter ∈ List.range' 1 16, (s iter).isNull = true) :
    kvIterOpen s cmd status = (⟨status, 1, fun _ => 0⟩, s) := by
  unfold kvIterOpen
  cases hfind : (List.range' 1 16).find? fun iter => (s iter).isNull with
  | none => rfl
  | some iter =>
    have hnull : (s iter).isNull = true := by simpa using List.find?_some hfind
    exact absurd ⟨iter, List.mem_of_find?_eq_some hfind, hnull⟩ hfull

/-! ## All commands -/

/-- Only the last element was not set. -/
def OnlyLastWild (s : IterHandles) : Prop := ∀ iter < 16, (s iter).isWild = false

theorem OnlyLastWild.update {p : IterPtr} (h : OnlyLastWild s) (hp : p.isWild = false) (j : ℕ) :
    OnlyLastWild (update s j p) := by
  intro iter hlt
  by_cases hj : iter = j
  · subst hj
    rw [update_self]
    exact hp
  · rw [update_of_ne hj]
    exact h iter hlt

theorem OnlyLastWild.kvIterOpen (h : OnlyLastWild s) (cmd : KvIterCommand) (status : ℕ) :
    OnlyLastWild (kvIterOpen s cmd status).2 := by
  by_cases hfree : ∃ iter ∈ List.range' 1 16, (s iter).isNull = true
  · obtain ⟨iter, -, -, hopen⟩ := kvIterOpen_free cmd status hfree
    rw [hopen]
    exact h.update rfl iter
  · rw [kvIterOpen_full cmd status hfree]
    exact h

theorem OnlyLastWild.kvIterClose {r : KvResult} (h : OnlyLastWild s)
    (hrun : kvIterClose s cmd = .ok (r, s')) : OnlyLastWild s' := by
  obtain ⟨p, -, hrun⟩ := bind_eq_ok hrun
  cases p with
  | null => cases hrun; exact h
  | ctx _ => cases hrun; exact h.update rfl _
  | wild => cases hrun

theorem OnlyLastWild.kvIterRead {r : KvResult} (h : OnlyLastWild s)
    (hrun : kvIterRead c t s cmd status = .ok (r, s')) : OnlyLastWild s' := by
  obtain ⟨p, -, hrun⟩ := bind_eq_ok hrun
  cases p with
  | null => cases hrun; exact h
  | ctx _ =>
    obtain ⟨_, -, hrun⟩ := bind_eq_ok hrun
    cases hrun
    exact h.update rfl _
  | wild => cases hrun

theorem OnlyLastWild.step (h : OnlyLastWild s) (hstep : (iterMachine c t).step s cmd = .ok s') :
    OnlyLastWild s' := by
  obtain ⟨⟨r, s₁⟩, hrun, rfl⟩ := exists_ok_of_map hstep
  cases hopens : cmd.opens with
  | true =>
    rw [doPerform_opens hopens] at hrun
    have hopen : WaitGc.kvIterOpen s cmd 0 = (r, s₁) := Except.ok.inj hrun
    have hs₁ := h.kvIterOpen cmd 0
    rwa [hopen] at hs₁
  | false => cases huses : cmd.uses with
    | true =>
      rcases doPerform_uses huses with hcall | hcall
      · exact h.kvIterRead (hcall.symm.trans hrun)
      · exact h.kvIterClose (hcall.symm.trans hrun)
    | false =>
      rw [doPerform_other hopens huses] at hrun
      cases hrun
      exact h

/-- **One command** is safe exactly if it meets the condition. -/
theorem OnlyLastWild.safe_iff (h : OnlyLastWild s) : IterSafe c t s cmd ↔ IterCond s cmd := by
  constructor
  · intro hsafe
    refine ⟨fun hopens => ?_, fun huses => ?_⟩
    · by_contra hfull
      have hrun : doPerformKvIterIo c t s cmd 0 = .ok (⟨0, 1, fun _ => 0⟩, s) := by
        rw [doPerform_opens hopens, kvIterOpen_full cmd 0 hfull]
      have hnot := (hsafe.opens hopens _ _ hrun).1
      -- the handle 1 is not free, so it is open
      have hnull : (s 1).isNull = false :=
        Bool.eq_false_iff.2 fun hnull => hfull ⟨1, by decide, hnull⟩
      have hwild := h 1 (by decide)
      dsimp only at hnot
      cases hs : s 1 with
      | null => rw [hs] at hnull; cases hnull
      | ctx _ => rw [hs] at hnot; cases hnot
      | wild => rw [hs] at hwild; cases hwild
    · by_contra hset
      exact (stops_iff.2 ⟨huses, hset⟩).elim hsafe.index hsafe.pointer
  · intro hcond
    have hgo : ¬ StopsAtHandle (doPerformKvIterIo c t s cmd 0) := fun hstop =>
      (stops_iff.1 hstop).2 (hcond.uses (stops_iff.1 hstop).1)
    refine ⟨fun herr => hgo (.inl herr), fun herr => hgo (.inr herr), fun hopens r s' hrun => ?_⟩
    obtain ⟨iter, -, hnull, hopen⟩ := kvIterOpen_free cmd 0 (hcond.opens hopens)
    rw [doPerform_opens hopens, hopen] at hrun
    cases hrun
    refine ⟨?_, fun _ => ⟨rfl, ?_⟩⟩
    · cases hs : s iter with
      | null => rfl
      | ctx _ => rw [hs] at hnull; cases hnull
      | wild => rfl
    · dsimp only
      rw [update_self]
      rfl

theorem onlyLastWild_init (lastIsNull : Bool) : OnlyLastWild (iterHandlesInit lastIsNull) := by
  intro iter hlt
  rw [iterHandlesInit, if_pos (.inl hlt)]
  rfl

theorem along_cond_of_safe {lastIsNull : Bool} {cmds : List KvIterCommand} :
    (iterMachine c t).Along (IterSafe c t) (iterHandlesInit lastIsNull) cmds →
      (iterMachine c t).Along IterCond (iterHandlesInit lastIsNull) cmds :=
  Machine.Along.imp (I := OnlyLastWild) (fun _ _ _ h _ hstep => h.step hstep) (fun _ _ h => h.safe_iff.1)
    (onlyLastWild_init lastIsNull)

theorem along_safe_of_cond {lastIsNull : Bool} {cmds : List KvIterCommand} :
    (iterMachine c t).Along IterCond (iterHandlesInit lastIsNull) cmds →
      (iterMachine c t).Along (IterSafe c t) (iterHandlesInit lastIsNull) cmds :=
  Machine.Along.imp (I := OnlyLastWild) (fun _ _ _ h _ hstep => h.step hstep) (fun _ _ h => h.safe_iff.2)
    (onlyLastWild_init lastIsNull)

/-- **Iterator handles are safe** exactly along runs whose commands meet the condition. -/
theorem kv_iterator_handles_iff (c : KvCfg) (t : KvTable) (lastIsNull : Bool) (cmds : List KvIterCommand) :
    (iterMachine c t).Along (IterSafe c t) (iterHandlesInit lastIsNull) cmds ↔
      (iterMachine c t).Along IterCond (iterHandlesInit lastIsNull) cmds :=
  ⟨along_cond_of_safe, along_safe_of_cond⟩

instance (s : IterHandles) (cmd : KvIterCommand) : Decidable (HandleSet s cmd) :=
  inferInstanceAs (Decidable (_ ∧ _))

instance (s : IterHandles) (cmd : KvIterCommand) : Decidable (IterCond s cmd) :=
  decidable_of_iff ((cmd.opens = true → ∃ iter ∈ List.range' 1 16, (s iter).isNull = true) ∧
    (cmd.uses = true → HandleSet s cmd)) ⟨fun h => ⟨h.1, h.2⟩, fun h => ⟨h.opens, h.uses⟩⟩

/-- A command on the handle. -/
def iterCommand (opcode : KvIterOpcode) (iterHandle option : BitVec 8) : KvIterCommand :=
  ⟨opcode, iterHandle, option, 0, 0, ⟨fun n => 4096 * n, fun _ => 0⟩⟩

/-- A read from handle 200; handle 16 is closed while its element is not set; the seventeenth
    iterator gets handle 1. -/
theorem kv_iterator_handles_fail :
    ¬ (iterMachine twoSlots fun _ => .init).Along (IterSafe twoSlots fun _ => .init) (iterHandlesInit true)
      [iterCommand .iterRead 200 0] ∧
    ¬ (iterMachine twoSlots fun _ => .init).Along (IterSafe twoSlots fun _ => .init) (iterHandlesInit false)
      [iterCommand .iterReq 16 ITER_OPTION_CLOSE] ∧
    ¬ (iterMachine twoSlots fun _ => .init).Along (IterSafe twoSlots fun _ => .init) (iterHandlesInit true)
      (.replicate 17 (iterCommand .iterReq 0 ITER_OPTION_OPEN)) := by
  refine ⟨fun h => ?_, fun h => ?_, fun h => ?_⟩
  · exact absurd (along_cond_of_safe h) (by decide +kernel)
  · exact absurd (along_cond_of_safe h) (by decide +kernel)
  · exact absurd (along_cond_of_safe h) (by decide +kernel)

end WaitGc

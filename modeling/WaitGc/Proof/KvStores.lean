/-
  WAITGC verification — stores of one key length.

  `__do_perform_kv_io` and `__do_perform_kv_batched_io` store in one way
  (`storeStep`), but for the length that an entry has after an update.
  `Chained` is what all commands keep, deletions that cut chains too; it is
  enough for a stored key to be found where it was stored.
-/
import WaitGc.Kv.Batch
import WaitGc.Proof.KvLog
import Mathlib.Data.List.Find

namespace WaitGc

open Outcome Function Chain

variable {σ : Type} {c : KvCfg} {a : KvAllocator σ} {s s' s₁ s₂ : KvFtl σ} {t t' : KvTable}
  {k : KvKey} {cmd : KvCommand} {j z : ℕ}

/-! ## Tables that differ in lengths -/

/-- The tables differ in the lengths of their entries only. -/
def SameShape (t t' : KvTable) : Prop := ∀ j, t' j = { t j with length := (t' j).length }

theorem SameShape.used (h : SameShape t t') (j : ℕ) : (t' j).used = (t j).used := by rw [h j]; rfl

theorem SameShape.next (h : SameShape t t') (j : ℕ) : (t' j).nextSlot = (t j).nextSlot := by rw [h j]

theorem SameShape.key_eq (h : SameShape t t') (j : ℕ) : (t' j).key = (t j).key := by rw [h j]

theorem SameShape.offset (h : SameShape t t') (j : ℕ) : (t' j).memOffset = (t j).memOffset := by rw [h j]

theorem SameShape.setLength (h : SameShape t t') (j m n : ℕ) :
    SameShape (update t j { t j with length := m }) (update t' j { t' j with length := n }) := by
  intro i
  by_cases hi : i = j
  · subst hi
    rw [update_self, update_self, h i]
  · rw [update_of_ne hi, update_of_ne hi]
    exact h i

theorem sameShape_setLength (t : KvTable) (j n : ℕ) : SameShape t (update t j { t j with length := n }) := by
  intro i
  by_cases hi : i = j
  · subst hi; rw [update_self]
  · rw [update_of_ne hi]

theorem SameShape.searchChain (h : SameShape t t') (key : KvKey) (fuel slot : ℕ) :
    searchChain t' key fuel slot = searchChain t key fuel slot := by
  induction fuel generalizing slot with
  | zero => rfl
  | succ fuel ih => rw [WaitGc.searchChain, WaitGc.searchChain, h.used, holds_congr (h.key_eq slot), h.next, ih]

theorem SameShape.findMapping (h : SameShape t t') (key : KvKey) : findMapping c t' key = findMapping c t key :=
  h.searchChain key _ _

theorem SameShape.findTail (h : SameShape t t') (fuel tail prevs : ℕ) :
    findTail t' fuel tail prevs = findTail t fuel tail prevs := by
  induction fuel generalizing tail prevs with
  | zero => rfl
  | succ fuel ih => rw [WaitGc.findTail, WaitGc.findTail, h.used, h.next, ih]

theorem SameShape.findFree (h : SameShape t t') (fuel slot : ℕ) :
    findFree c t' fuel slot = findFree c t fuel slot := by
  induction fuel generalizing slot with
  | zero => rfl
  | succ fuel ih => rw [WaitGc.findFree, WaitGc.findFree, h.used, ih]

theorem SameShape.chooseSlot (h : SameShape t t') (key : KvKey) : chooseSlot c t' key = chooseSlot c t key := by
  have hnext (slot : ℕ) : findNextSlot c t' slot = findNextSlot c t slot := by
    rw [findNextSlot, findNextSlot, h.findTail]
    simp only [h.findFree]
  rw [WaitGc.chooseSlot, WaitGc.chooseSlot, h.used, hnext]

/-- **A new entry** goes to the same slot. -/
theorem SameShape.newMapping (h : SameShape t t') (key : KvKey) (valLen valOffset : ℕ) :
    Rel SameShape (newMapping c t key valLen valOffset) (newMapping c t' key valLen valOffset) := by
  unfold WaitGc.newMapping
  rw [h.chooseSlot]
  refine Rel.bind_same _ fun _ => Rel.bind_same _ fun r => ?_
  have hfill : SameShape
      (update t r.1 { (t r.1).setKey key with memOffset := valOffset, length := valLen })
      (update t' r.1 { (t' r.1).setKey key with memOffset := valOffset, length := valLen }) := by
    intro i
    by_cases hi : i = r.1
    · subst hi
      rw [update_self, update_self, h r.1]
      rfl
    · rw [update_of_ne hi, update_of_ne hi]
      exact h i
  dsimp only
  split_ifs
  · intro i
    unfold chainMapping
    by_cases hi : i = r.2
    · subst hi
      rw [update_self, update_self, hfill r.2]
    · rw [update_of_ne hi, update_of_ne hi]
      exact hfill i
  · exact hfill

/-! ## Chained tables -/

theorem SameShape.chained (h : SameShape t t') (ht : Chained c t) : Chained c t' := by
  have hU : t'.Used = t.Used := funext fun j => by rw [KvTable.Used, h.used]
  have hN : t'.next = t.next := funext h.next
  refine ⟨?_, ?_, ?_⟩
  · rw [hU]; exact ht.bound
  · rw [hU, hN]; exact ht.free
  · intro a
    show ∃ l, Ended t'.Used t'.next a l
    rw [hU, hN]
    exact ht.chains a

theorem Chained.insert {key : KvKey} {valLen valOffset : ℕ} (h : Chained c t)
    (hn : NewEntry c t key valLen valOffset z t') :
    Chained c t' := by
  refine ⟨?_, ?_, ?_⟩
  · intro j hj
    exact ((hn.grows.used_iff j).1 hj).elim (h.bound j) fun heq => heq ▸ hn.lt
  · intro j hj
    have hfree := mt (hn.grows.used_iff j).2 hj
    rw [not_or] at hfree
    rw [KvTable.next, hn.rest j hfree.2 hfree.1]
    exact h.free j hfree.1
  · intro a
    obtain ⟨l, hl⟩ := h.chains a
    exact (hl.grow hn.grows).elim (fun h' => ⟨_, h'⟩) fun h' => ⟨_, h'⟩

theorem Chained.clear (h : Chained c t) (d : ℕ) : Chained c (update t d .none) := by
  have hs := shrinks_clear t d
  refine ⟨?_, ?_, ?_⟩
  · intro j hj
    exact h.bound j ((hs.used_iff j).1 hj).1
  · intro j hj
    by_cases hd : j = d
    · subst hd
      rw [KvTable.next, update_self]
      rfl
    · rw [KvTable.next, update_of_ne hd]
      exact h.free j fun hu => hj ((hs.used_iff j).2 ⟨hu, hd⟩)
  · intro a
    obtain ⟨l, hl⟩ := h.chains a
    exact ⟨_, hl.shrink hs⟩

theorem Chained.find_eq {key : KvKey} {l : List ℕ} (h : Chained c t) (hl : t.Slots (getHashSlot c key) l) :
    WaitGc.findMapping c t key = .ok (l.find? fun j => (t j).holds key) :=
  searchChain_eq h.noSlot hl (Nat.lt_succ_of_le (h.length_le hl))

section insert
variable {key : KvKey} {valLen valOffset : ℕ} (hn : NewEntry c t key valLen valOffset z t')
include hn

theorem find?_insert {l : List ℕ} (hl : t.Slots (getHashSlot c k) l) :
    (l.find? fun j => (t' j).holds k) = l.find? fun j => (t j).holds k := by
  refine List.find?_congr fun j hj => ?_
  have hjz : j ≠ z := fun heq => hn.grows.fresh (heq ▸ hl.used_of_mem hj)
  exact holds_congr (by rw [hn.others j hjz])

variable (h : Chained c t)
include h

/-- **The new entry is found**, if its key had none. -/
theorem Chained.find_new (hnone : WaitGc.findMapping c t key = .ok none) :
    WaitGc.findMapping c t' key = .ok (some z) := by
  obtain ⟨l, hl⟩ := h.chains (getHashSlot c key)
  have hz : (t' z).holds key = true := by
    rw [hn.entry]
    exact MappingEntry.setKey_holds _ _
  have hl' : t'.Slots (getHashSlot c key) (l ++ [z]) := by
    refine (hl.grow hn.grows).resolve_left fun h' => ?_
    exact hn.grows.fresh (hl.used_of_mem (hn.home l h'))
  rw [h.find_eq hl, Except.ok.injEq] at hnone
  rw [(h.insert hn).find_eq hl', List.find?_append, find?_insert hn hl, hnone]
  simp [hz]

/-- **Other keys of the length** are found where they were, or not. -/
theorem Chained.find_other (hk : k ≠ key) (hlen : k.bytes.length = key.bytes.length) :
    WaitGc.findMapping c t' k = WaitGc.findMapping c t k := by
  obtain ⟨l, hl⟩ := h.chains (getHashSlot c k)
  have hz : (t' z).holds k = false := by
    rw [hn.entry, MappingEntry.holds, MappingEntry.setKey, hlen, List.take_left']
    · exact decide_eq_false fun heq => hk (KvKey.ext_bytes heq.symm)
    · rfl
  rcases hl.grow hn.grows with hl' | hl'
  · rw [(h.insert hn).find_eq hl', h.find_eq hl, find?_insert hn hl]
  · rw [(h.insert hn).find_eq hl', h.find_eq hl, List.find?_append, find?_insert hn hl]
    simp [hz]

end insert

/-! ## One way to store -/

/-- A store of `cmd`.  `record` is the length that an entry has after an update, from the one
    that it had and that of the value. -/
def storeStep (record : ℕ → ℕ → ℕ) (c : KvCfg) (a : KvAllocator σ) (s : KvFtl σ) (cmd : KvCommand) :
    Except KvFault (KvFtl σ) := do
  let key ← cmd.kvKey
  match ← findMapping c s.table key with
  | some j =>
    require ((s.table j).memOffset + cmd.valueLength ≤ c.storageSize) .storageOverrun
    pure { s with
      table := update s.table j { s.table j with length := record (s.table j).length cmd.valueLength }
      storage := storeValue s.storage cmd (s.table j).memOffset }
  | none =>
    let r := allocateMemOffset a s.alloc cmd.valueLength
    require (r.1 + cmd.valueLength ≤ c.storageSize) .storageOverrun
    let table ← newMapping c s.table key cmd.valueLength r.1
    pure ⟨table, r.2, storeValue s.storage cmd r.1⟩

/-- When a store command records the length of its value. -/
def recordSmall (old new : ℕ) : ℕ :=
  if new ≠ old ∧ new ≤ SMALL_LENGTH ∧ old ≤ SMALL_LENGTH then new else old

/-- A store in a batch never does. -/
def recordNever (old _new : ℕ) : ℕ := old

/-- The sub-command that stores what `cmd` stores. -/
def batchedStore (c : KvCfg) (a : KvAllocator σ) (s : KvFtl σ) (cmd : KvCommand) : Except KvFault (KvFtl σ) := do
  let key ← cmd.kvKey
  doPerformKvBatchedIo c a s .store key (cmd.value.data cmd.valueLength) cmd.valueLength

theorem kvUpdate_eq {key : KvKey} (hfind : findMapping c s.table key = .ok (some j)) (cmd : KvCommand) :
    kvUpdate c s key (foundEntry s.table key (some j)) cmd.valueLength cmd.value =
      (do
        require ((s.table j).memOffset + cmd.valueLength ≤ c.storageSize) .storageOverrun
        pure { s with
          table := update s.table j { s.table j with length := recordSmall (s.table j).length cmd.valueLength }
          storage := storeValue s.storage cmd (s.table j).memOffset }) := by
  unfold kvUpdate writeValue
  rw [show (foundEntry s.table key (some j)).memOffset = (s.table j).memOffset from rfl,
    show (foundEntry s.table key (some j)).length = (s.table j).length from rfl]
  by_cases hle : (s.table j).memOffset + cmd.valueLength ≤ c.storageSize
  · rw [require_pos hle, ok_bind, ok_bind]
    unfold recordSmall
    split_ifs with hlen
    · rw [updateMappingEntry_eq hfind]
      rfl
    · rw [update_eq_self]
      rfl
  · rw [require_neg hle, error_bind, error_bind]
    rfl

theorem kvInsert_eq (key : KvKey) (cmd : KvCommand) :
    kvInsert c a s key cmd.valueLength cmd.value =
      (do
        require ((allocateMemOffset a s.alloc cmd.valueLength).1 + cmd.valueLength ≤ c.storageSize)
          .storageOverrun
        let table ← newMapping c s.table key cmd.valueLength (allocateMemOffset a s.alloc cmd.valueLength).1
        pure ⟨table, (allocateMemOffset a s.alloc cmd.valueLength).2,
          storeValue s.storage cmd (allocateMemOffset a s.alloc cmd.valueLength).1⟩) := by
  unfold kvInsert writeValue
  by_cases hle : (allocateMemOffset a s.alloc cmd.valueLength).1 + cmd.valueLength ≤ c.storageSize
  · rw [require_pos hle]
    dsimp only
    rw [require_pos hle]
    rfl
  · rw [require_neg hle]
    dsimp only
    rw [require_neg hle]
    rfl

/-- **A store command.** -/
theorem kvMachine_store (hop : cmd.opcode = .store) :
    (kvMachine c a).step s cmd = storeStep recordSmall c a s cmd := by
  have hmap (m : Except KvFault (KvFtl σ)) : (m >>= fun s => pure (kvDone 0, s)).map Prod.snd = m := by
    cases m <;> rfl
  show (doPerformKvIo c a s cmd).map Prod.snd = _
  unfold doPerformKvIo storeStep
  cases hkey : cmd.kvKey with
  | error f => rfl
  | ok key =>
    rw [ok_bind, ok_bind]
    cases hfind : findMapping c s.table key with
    | error f =>
      rw [getMappingEntry, hfind]
      rfl
    | ok r =>
      rw [getMappingEntry_eq hfind, ok_bind, ok_bind, hop]
      have hused := foundEntry_used hfind
      cases r with
      | some j =>
        dsimp only
        rw [if_pos (hused.trans Option.isSome_some), hmap, kvUpdate_eq hfind]
      | none =>
        dsimp only
        rw [if_neg (by rw [hused]; exact Bool.false_ne_true), hmap, kvInsert_eq]

theorem memcpy_data {offset : ℕ} (hle : offset + cmd.valueLength ≤ c.storageSize) (storage : ℕ → ℕ) :
    memcpy storage offset (cmd.value.data cmd.valueLength) cmd.valueLength = storeValue storage cmd offset := by
  have hsize := c.storageSize_lt
  have hlen : cmd.valueLength < 2 ^ 32 := (cmd.valueLen <<< 2).isLt
  funext j
  exact (cmd.value.performWrite_apply _ _ _ _ _ _ le_rfl hlen.le (by omega)).symm

/-- **A store in a batch.** -/
theorem batchedStore_eq : batchedStore c a s cmd = storeStep recordNever c a s cmd := by
  unfold batchedStore doPerformKvBatchedIo storeStep
  cases hkey : cmd.kvKey with
  | error f => rfl
  | ok key =>
    rw [ok_bind, ok_bind]
    have hget : getMappingEntryByKey c s.table key = getMappingEntry c s.table key := rfl
    cases hfind : findMapping c s.table key with
    | error f =>
      rw [hget, getMappingEntry, hfind]
      rfl
    | ok r =>
      rw [hget, getMappingEntry_eq hfind, ok_bind, ok_bind]
      have hused := foundEntry_used hfind
      cases r with
      | some j =>
        dsimp only
        rw [if_pos (hused.trans Option.isSome_some),
          show (foundEntry s.table key (some j)).memOffset = (s.table j).memOffset from rfl]
        by_cases hle : (s.table j).memOffset + cmd.valueLength ≤ c.storageSize
        · rw [require_pos hle, ok_bind, ok_bind, memcpy_data hle, recordNever, update_eq_self]
        · rw [require_neg hle, error_bind, error_bind]
      | none =>
        dsimp only
        rw [if_neg (by rw [hused]; exact Bool.false_ne_true),
          show allocateMemOffsetByLength a s.alloc cmd.valueLength =
            allocateMemOffset a s.alloc cmd.valueLength from rfl]
        by_cases hle : (allocateMemOffset a s.alloc cmd.valueLength).1 + cmd.valueLength ≤ c.storageSize
        · rw [require_pos hle, ok_bind, ok_bind, memcpy_data hle]
          rfl
        · rw [require_neg hle, error_bind, error_bind]

end WaitGc

/-
  WAITGC verification — what insertions, updates and deletions make of the
  mapping table.

  `kv_chains_end`: no chain returns to an entry of it, a free slot is linked to
  nothing, and the loops over the table end.
-/
import WaitGc.Proof.KvStores

namespace WaitGc

open Outcome Function Chain

/-- A function that changes the mapping table. -/
inductive ChainOp where
  | newMappingEntry (key : KvKey) (valueLength valOffset : ℕ)
  | newMappingEntryByKey (key : KvKey) (valLen valOffset : ℕ)
  | updateMappingEntry (key : KvKey) (valueLength : ℕ)
  | deleteMappingEntry (key : KvKey)

/-- The table as a machine. -/
def chainMachine (c : KvCfg) : Machine KvTable ChainOp KvFault where
  step t
    | .newMappingEntry key valueLength valOffset => newMappingEntry c t key valueLength valOffset
    | .newMappingEntryByKey key valLen valOffset => newMappingEntryByKey c t key valLen valOffset
    | .updateMappingEntry key valueLength => updateMappingEntry c t key valueLength
    | .deleteMappingEntry key => deleteMappingEntry c t key

variable {c : KvCfg} {t t' : KvTable} {key : KvKey} {ops : List ChainOp} {a z : ℕ}

/-! ## The links -/

/-- Chains end, and no link leaves the table. -/
structure InTable (c : KvCfg) (t : KvTable) : Prop where
  chained : Chained c t
  links : ∀ j, t.next j = NO_SLOT ∨ t.next j < c.hashSlots

theorem inTable_init (c : KvCfg) : InTable c fun _ => .init where
  chained := (indexed_init c).chained
  links _ := .inl rfl

theorem InTable.insert {valLen valOffset : ℕ} (h : InTable c t) (hn : NewEntry c t key valLen valOffset z t') :
    InTable c t' where
  chained := h.chained.insert hn
  links j := by
    by_cases hj : j = z
    · subst hj
      rw [KvTable.next, hn.entry]
      exact h.links j
    · by_cases hused : t.Used j
      · rcases hn.grows.keep j hused with hnext | ⟨hnext, -⟩
        · rw [hnext]
          exact h.links j
        · rw [hnext]
          exact .inr hn.lt
      · rw [KvTable.next, hn.rest j hj hused]
        exact h.links j

theorem SameShape.inTable (hs : SameShape t t') (h : InTable c t) : InTable c t' where
  chained := hs.chained h.chained
  links j := by
    rw [KvTable.next, hs.next]
    exact h.links j

theorem InTable.clear (h : InTable c t) (d : ℕ) : InTable c (update t d .none) where
  chained := h.chained.clear d
  links j := by
    by_cases hd : j = d
    · subst hd
      rw [KvTable.next, update_self]
      exact .inl rfl
    · rw [KvTable.next, update_of_ne hd]
      exact h.links j

theorem InTable.newMapping {valLen valOffset : ℕ} (h : InTable c t) :
    Yields (InTable c) (newMapping c t key valLen valOffset) := by
  refine yields_iff.2 fun t' hnew => ?_
  obtain ⟨z, hn⟩ := h.chained.newMapping hnew
  exact h.insert hn

theorem InTable.updateMappingEntry (h : InTable c t) (key : KvKey) (valueLength : ℕ) :
    ∃ t', updateMappingEntry c t key valueLength = .ok t' ∧ InTable c t' := by
  rw [WaitGc.updateMappingEntry, h.chained.findMapping]
  cases (keyChain c t key).find? fun j => (t j).holds key with
  | none => exact ⟨t, rfl, h⟩
  | some j => exact ⟨_, rfl, (sameShape_setLength t j valueLength).inTable h⟩

theorem InTable.deleteMappingEntry (h : InTable c t) (key : KvKey) :
    ∃ t', deleteMappingEntry c t key = .ok t' ∧ InTable c t' := by
  rw [WaitGc.deleteMappingEntry, h.chained.findMapping]
  cases (keyChain c t key).find? fun j => (t j).holds key with
  | none => exact ⟨t, rfl, h⟩
  | some j => exact ⟨_, rfl, h.clear j⟩

/-- **Every operation keeps the links in the table.** -/
theorem InTable.step (h : InTable c t) (op : ChainOp) : Yields (InTable c) ((chainMachine c).step t op) := by
  cases op with
  | newMappingEntry key valueLength valOffset => exact h.newMapping
  | newMappingEntryByKey key valLen valOffset => exact h.newMapping
  | updateMappingEntry key valueLength =>
    obtain ⟨t', hrun, ht'⟩ := h.updateMappingEntry key valueLength
    exact yields_iff.2 fun _ hstep => Except.ok.inj (hrun.symm.trans hstep) ▸ ht'
  | deleteMappingEntry key =>
    obtain ⟨t', hrun, ht'⟩ := h.deleteMappingEntry key
    exact yields_iff.2 fun _ hstep => Except.ok.inj (hrun.symm.trans hstep) ▸ ht'

theorem inTable_run : Yields (InTable c) ((chainMachine c).run (fun _ => .init) ops) :=
  Machine.run_sat (fun _ op h _ => h.step op) (inTable_init c) (Machine.along_true _ ops)

/-! ## The loops -/

/-- A path of links returns to the slot that it starts from. -/
def Returns (t : KvTable) (a : ℕ) : Prop := Relation.TransGen (fun i j => t.next i = j) a a

theorem Chained.not_returns (h : Chained c t) (ha : t.Used a) : ¬ Returns t a := by
  refine acyclic h.chains (fun b hb => ?_) ha
  rw [h.free b hb]
  exact h.noSlot

theorem Chained.searchChain (h : Chained c t) (key : KvKey) (slot : ℕ) :
    ∃ r, searchChain t key (c.hashSlots + 1) slot = .ok r := by
  obtain ⟨l, hl⟩ := h.chains slot
  exact ⟨_, searchChain_eq h.noSlot hl (Nat.lt_succ_of_le (h.length_le hl))⟩

/-- **A free slot is found** from every used slot, if there is one. -/
theorem Chained.findNextSlot (h : Chained c t) (ha : t.Used a) (hfree : ∃ z < c.hashSlots, ¬ t.Used z) :
    ∃ r, findNextSlot c t a = .ok r ∧ r.1 < c.hashSlots ∧ ¬ t.Used r.1 := by
  obtain ⟨l, hl⟩ := h.chains a
  -- the chain has an entry, and its last one is the tail
  obtain ⟨l₀, p, rfl⟩ : ∃ l₀ p, l = l₀ ++ [p] :=
    ⟨_, _, (List.dropLast_append_getLast fun hnil => ended_nil.1 (hnil ▸ hl) ha).symm⟩
  have hlen := h.length_le hl
  rw [List.length_append, List.length_singleton] at hlen
  have hp := h.bound p (hl.used_of_mem (List.mem_append_right _ (List.mem_singleton_self p)))
  unfold WaitGc.findNextSlot
  rw [findTail_eq h.noSlot hl (Nat.lt_succ_of_le hlen), ok_bind]
  cases hz : findFree c t (c.hashSlots + 1) p with
  | ok z => exact ⟨_, rfl, (findFree_ok hp hz).2, (findFree_ok hp hz).1⟩
  | error f =>
    obtain ⟨z, hlt, hz'⟩ := hfree
    exact absurd (findFree_error hp hz z hlt) hz'

/-- **Hash chains are acyclic**, and the loops over them end. -/
theorem kv_chains_end (hrun : (chainMachine c).run (fun _ => .init) ops = .ok t) :
    (∀ a, t.Used a → ¬ Returns t a) ∧
    (∀ j, t.next j = NO_SLOT ∨ t.next j < c.hashSlots) ∧
    (∀ j, ¬ t.Used j → t.next j = NO_SLOT) ∧
    (∀ key slot, ∃ r, searchChain t key (c.hashSlots + 1) slot = .ok r) ∧
    (∀ key, ∃ e, getMappingEntry c t key = .ok e) ∧
    (∀ key valueLength, ∃ t', updateMappingEntry c t key valueLength = .ok t') ∧
    (∀ key, ∃ t', deleteMappingEntry c t key = .ok t') ∧
    ∀ slot, t.Used slot → (∃ z < c.hashSlots, ¬ t.Used z) →
      ∃ r, findNextSlot c t slot = .ok r ∧ r.1 < c.hashSlots ∧ ¬ t.Used r.1 := by
  have h : InTable c t := inTable_run.of_ok hrun
  refine ⟨fun a => h.chained.not_returns, h.links, h.chained.free, h.chained.searchChain, fun key => ?_,
    fun key valueLength => ?_, fun key => ?_, fun slot => h.chained.findNextSlot⟩
  · exact ⟨_, getMappingEntry_eq (h.chained.findMapping key)⟩
  · obtain ⟨t', ht', -⟩ := h.updateMappingEntry key valueLength
    exact ⟨t', ht'⟩
  · obtain ⟨t', ht', -⟩ := h.deleteMappingEntry key
    exact ⟨t', ht'⟩

/-- Three slots. -/
def threeSlots : KvCfg where
  hashSlots := 3
  storageSize := 4096
  hashSlots_pos := by decide
  hashSlots_lt := by decide
  storageSize_lt := page_lt

/-- A chain loses its first entry and gets another one. -/
def cutChain : List ChainOp :=
  [.newMappingEntry (oneByte 1) 8 0, .newMappingEntryByKey (oneByte 4) 8 8,
    .updateMappingEntry (oneByte 4) 16, .deleteMappingEntry (oneByte 1),
    .newMappingEntry (oneByte 7) 8 16]

theorem kv_chains_end_cutChain :
    ∃ t, (chainMachine threeSlots).run (fun _ => .init) cutChain = .ok t ∧ t.Used 0 ∧ ¬ Returns t 0 := by
  have hmap : ((chainMachine threeSlots).run (fun _ => .init) cutChain).map
      (fun t => (t 0).used) = .ok true := by decide +kernel
  obtain ⟨t, hrun, ht⟩ := exists_ok_of_map hmap
  exact ⟨t, hrun, ht, (kv_chains_end hrun).1 0 ht⟩

end WaitGc

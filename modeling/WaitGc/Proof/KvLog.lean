/-
  WAITGC verification — key-value commands, step by step.

  `KvStep` lists what a command does to the namespace.  A log beside the
  machine, which nothing reads, records when the live entry of a key was
  inserted, for which command a slot was filled, and the latest value of a key.
-/
import WaitGc.Kv.Store
import WaitGc.Proof.KvIndex

namespace WaitGc

open Outcome Function Chain

variable {σ : Type} {c : KvCfg} {a : KvAllocator σ} {s s' : KvFtl σ} {t t' : KvTable}
  {key : KvKey} {cmd : KvCommand} {j : ℕ}

/-! ## What a command does -/

theorem kvKey_length (h : cmd.kvKey = .ok key) : key.bytes.length = cmd.keyLength := by
  unfold KvCommand.kvKey at h
  split_ifs at h with hle
  cases h
  change cmd.keyBytes.length = cmd.keyLength
  rw [KvCommand.keyBytes, List.length_take, List.length_ofFn]
  omega

/-- The copy that `get_mapping_entry` returns. -/
def foundEntry (t : KvTable) (key : KvKey) : Option ℕ → MappingEntry
  | some j => { t j with key := key.bytes ++ MappingEntry.none.key.drop key.bytes.length }
  | none => .none

theorem getMappingEntry_eq {r : Option ℕ} (h : findMapping c t key = .ok r) :
    getMappingEntry c t key = .ok (foundEntry t key r) := by
  rw [getMappingEntry, h]
  cases r <;> rfl

theorem getMappingEntry_ok {e : MappingEntry} (h : getMappingEntry c t key = .ok e) :
    ∃ r, findMapping c t key = .ok r ∧ e = foundEntry t key r := by
  obtain ⟨r, hr, -⟩ := bind_eq_ok h
  exact ⟨r, hr, Except.ok.inj (h.symm.trans (getMappingEntry_eq hr))⟩

theorem searchChain_some {fuel slot : ℕ} (h : searchChain t key fuel slot = .ok (some j)) :
    t.Used j ∧ (t j).holds key = true := by
  induction fuel generalizing slot with
  | zero => cases h
  | succ fuel ih =>
    rw [searchChain] at h
    by_cases hused : (t slot).used = true
    · rw [if_pos hused] at h
      by_cases hk : (t slot).holds key = true
      · rw [if_pos hk] at h
        cases h
        exact ⟨hused, hk⟩
      · rw [if_neg hk] at h
        split_ifs at h
        · cases h
        · exact ih h
    · rw [if_neg hused] at h
      cases h

theorem foundEntry_used {r : Option ℕ} (h : findMapping c t key = .ok r) :
    (foundEntry t key r).used = r.isSome := by
  cases r with
  | none => rfl
  | some j => exact (searchChain_some h).1

/-- The storage after a store of `cmd` at `offset`. -/
def storeValue (storage : ℕ → ℕ) (cmd : KvCommand) (offset : ℕ) : ℕ → ℕ :=
  cmd.value.performWrite cmd.valueLength 0 offset cmd.valueLength storage

/-- The length an entry has after a store of `cmd`. -/
def updatedLength (e : MappingEntry) (cmd : KvCommand) : ℕ :=
  if cmd.valueLength ≠ e.length ∧ cmd.valueLength ≤ SMALL_LENGTH ∧ e.length ≤ SMALL_LENGTH then
    cmd.valueLength
  else e.length

theorem updatedLength_small {e : MappingEntry} (h : cmd.valueLength ≤ SMALL_LENGTH)
    (he : e.length ≤ SMALL_LENGTH) : updatedLength e cmd = cmd.valueLength := by
  unfold updatedLength
  split_ifs with hlen
  · rfl
  · by_contra hne
    exact hlen ⟨Ne.symm hne, h, he⟩

/-- **What a command does.** -/
inductive KvStep (c : KvCfg) (a : KvAllocator σ) (s : KvFtl σ) (key : KvKey) (cmd : KvCommand) :
    KvFtl σ → Prop where
  | insert (table : KvTable) : cmd.opcode = .store → findMapping c s.table key = .ok none →
      (allocateMemOffset a s.alloc cmd.valueLength).1 + cmd.valueLength ≤ c.storageSize →
      newMapping c s.table key cmd.valueLength (allocateMemOffset a s.alloc cmd.valueLength).1 = .ok table →
      KvStep c a s key cmd ⟨table, (allocateMemOffset a s.alloc cmd.valueLength).2,
        storeValue s.storage cmd (allocateMemOffset a s.alloc cmd.valueLength).1⟩
  | update (j : ℕ) : cmd.opcode = .store → findMapping c s.table key = .ok (some j) →
      (s.table j).memOffset + cmd.valueLength ≤ c.storageSize →
      KvStep c a s key cmd { s with
        table := update s.table j { s.table j with length := updatedLength (s.table j) cmd }
        storage := storeValue s.storage cmd (s.table j).memOffset }
  | delete (d : ℕ) : cmd.opcode = .delete → findMapping c s.table key = .ok (some d) →
      KvStep c a s key cmd { s with table := update s.table d .none }
  | same : cmd.opcode ≠ .store → (cmd.opcode = .delete → findMapping c s.table key = .ok none) →
      KvStep c a s key cmd s

theorem writeValue_ok {value : HostData} {storage storage' : ℕ → ℕ} {offset length : ℕ}
    (h : writeValue c value storage offset length = .ok storage') :
    offset + length ≤ c.storageSize ∧ storage' = value.performWrite length 0 offset length storage := by
  unfold writeValue at h
  by_cases hle : offset + length ≤ c.storageSize
  · rw [require_pos hle] at h
    exact ⟨hle, (Except.ok.inj h).symm⟩
  · rw [require_neg hle] at h
    cases h

theorem kvInsert_step (hop : cmd.opcode = .store) (hfind : findMapping c s.table key = .ok none)
    (h : kvInsert c a s key cmd.valueLength cmd.value = .ok s') : KvStep c a s key cmd s' := by
  unfold kvInsert at h
  dsimp only at h
  obtain ⟨storage, hwrite, h⟩ := bind_eq_ok h
  obtain ⟨table, hnew, h⟩ := bind_eq_ok h
  obtain ⟨hle, rfl⟩ := writeValue_ok hwrite
  cases h
  exact .insert table hop hfind hle hnew

theorem updateMappingEntry_eq {length : ℕ} (hfind : findMapping c t key = .ok (some j)) :
    updateMappingEntry c t key length = .ok (update t j { t j with length }) := by
  rw [updateMappingEntry, hfind]
  rfl

theorem deleteMappingEntry_eq (hfind : findMapping c t key = .ok (some j)) :
    deleteMappingEntry c t key = .ok (update t j .none) := by
  rw [deleteMappingEntry, hfind]
  rfl

theorem kvUpdate_step {entry : MappingEntry} (hop : cmd.opcode = .store)
    (hfind : findMapping c s.table key = .ok (some j)) (hoff : entry.memOffset = (s.table j).memOffset)
    (hlength : entry.length = (s.table j).length)
    (h : kvUpdate c s key entry cmd.valueLength cmd.value = .ok s') : KvStep c a s key cmd s' := by
  unfold kvUpdate at h
  obtain ⟨storage, hwrite, h⟩ := bind_eq_ok h
  obtain ⟨hle, rfl⟩ := writeValue_ok hwrite
  rw [hoff] at hle
  have hstep : KvStep c a s key cmd _ := .update j hop hfind hle
  rw [updatedLength, ← hlength, storeValue, ← hoff] at hstep
  split_ifs at hstep with hlen
  · rw [if_pos hlen, updateMappingEntry_eq hfind] at h
    cases h
    exact hstep
  · rw [hlength, update_eq_self] at hstep
    rw [if_neg hlen] at h
    cases h
    exact hstep

/-- **A command** that returns took one of these steps. -/
theorem doPerformKvIo_step {r : KvResult × KvFtl σ} (hkey : cmd.kvKey = .ok key)
    (h : doPerformKvIo c a s cmd = .ok r) : KvStep c a s key cmd r.2 := by
  unfold doPerformKvIo at h
  rw [hkey, ok_bind] at h
  obtain ⟨e, hget, h⟩ := bind_eq_ok h
  obtain ⟨found, hfind, rfl⟩ := getMappingEntry_ok hget
  have hused := foundEntry_used hfind
  have hnone : ¬ ((none : Option ℕ).isSome = true) := Bool.false_ne_true
  cases hop : cmd.opcode with
  | store =>
    rw [hop] at h
    dsimp only at h
    cases found with
    | none =>
      rw [hused, if_neg hnone] at h
      obtain ⟨s₁, hs₁, h⟩ := bind_eq_ok h
      cases h
      exact kvInsert_step hop hfind hs₁
    | some j =>
      rw [hused, if_pos (Option.isSome_some)] at h
      obtain ⟨s₁, hs₁, h⟩ := bind_eq_ok h
      cases h
      exact kvUpdate_step hop hfind rfl rfl hs₁
  | delete =>
    rw [hop] at h
    dsimp only at h
    cases found with
    | none =>
      rw [hused, if_neg hnone] at h
      cases h
      exact .same (by rw [hop]; simp) fun _ => hfind
    | some d =>
      rw [hused, if_pos (Option.isSome_some), deleteMappingEntry_eq hfind] at h
      cases h
      exact .delete d hop hfind
  | retrieve =>
    rw [hop] at h
    dsimp only at h
    have hsame : KvStep c a s key cmd s := .same (by rw [hop]; simp) (by rw [hop]; simp)
    split_ifs at h
    · obtain ⟨read, -, h⟩ := bind_eq_ok h
      cases h
      exact hsame
    · cases h
      exact hsame
  | exist | other =>
    rw [hop] at h
    cases h
    exact .same (by rw [hop]; simp) (by rw [hop]; simp)

/-- **How a command stops** on an indexed table. -/
theorem doPerformKvIo_stops {owner : ℕ → Option KvKey} (h : Indexed c s.table owner) (cmd : KvCommand) :
    Sat (Stops c s.table) (fun _ => True) (doPerformKvIo c a s cmd) := by
  have hstorage : Stops c s.table .storageOverrun := ⟨by simp, by simp⟩
  have hwrite (value : HostData) (storage : ℕ → ℕ) (offset length : ℕ) :
      Sat (Stops c s.table) (fun _ => True) (writeValue c value storage offset length) := by
    unfold writeValue
    by_cases hle : offset + length ≤ c.storageSize
    · rw [require_pos hle]; trivial
    · rw [require_neg hle]; exact hstorage
  unfold doPerformKvIo
  cases hkey : cmd.kvKey with
  | error f =>
    unfold KvCommand.kvKey at hkey
    split_ifs at hkey
    cases hkey
    exact ⟨by simp, by simp⟩
  | ok key =>
    rw [ok_bind, getMappingEntry_eq (h.chained.findMapping key), ok_bind]
    have hfind := h.chained.findMapping key
    generalize (keyChain c s.table key).find? (fun j => (s.table j).holds key) = found at hfind ⊢
    cases cmd.opcode with
    | store =>
      dsimp only
      split_ifs
      · refine Sat.bind (Q := fun _ => True) ?_ fun _ _ => trivial
        unfold kvUpdate
        refine (hwrite _ _ _ _).bind fun _ _ => ?_
        split_ifs
        · unfold updateMappingEntry
          rw [hfind]
          cases found with
          | none => trivial
          | some j => trivial
        · trivial
      · refine Sat.bind (Q := fun _ => True) ?_ fun _ _ => trivial
        unfold kvInsert
        dsimp only
        refine (hwrite _ _ _ _).bind fun _ _ => ?_
        exact (h.newMapping_stops _ _).bind fun _ _ => trivial
    | delete =>
      dsimp only
      split_ifs
      · unfold deleteMappingEntry
        rw [hfind]
        cases found with
        | none => trivial
        | some j => trivial
      · trivial
    | retrieve =>
      dsimp only
      split_ifs
      · refine Sat.bind (Q := fun _ => True) ?_ fun _ _ => trivial
        unfold readValue
        by_cases hle : (foundEntry s.table key found).memOffset +
            min (foundEntry s.table key found).length cmd.valueLength ≤ c.storageSize
        · rw [require_pos hle]; trivial
        · rw [require_neg hle]; exact hstorage
      · trivial
    | exist | other => trivial

/-! ## The log -/

/-- The namespace, and the log. -/
structure KvLogged (σ : Type) where
  kv : KvFtl σ
  clock : ℕ
  /-- The time of the latest insertion of a key that is there. -/
  inserted : KvKey → Option ℕ
  /-- The key a used slot was filled for, and when. -/
  born : ℕ → Option (KvKey × ℕ)
  /-- The length and the bytes of the latest store of a key that is there. -/
  value : KvKey → Option (ℕ × (ℕ → ℕ))

/-- The key a used slot was filled for. -/
def KvLogged.owner (x : KvLogged σ) (j : ℕ) : Option KvKey := (x.born j).map Prod.fst

/-- The log after a command on `key` that leaves `kv`. -/
def KvLogged.record (x : KvLogged σ) (cmd : KvCommand) (key : KvKey) (kv : KvFtl σ) : KvLogged σ where
  kv := kv
  clock := x.clock + 1
  inserted := match cmd.opcode with
    | .store => if x.inserted key = none then update x.inserted key (some x.clock) else x.inserted
    | .delete => update x.inserted key none
    | _ => x.inserted
  born j := if (kv.table j).used then if (x.kv.table j).used then x.born j else some (key, x.clock)
    else none
  value := match cmd.opcode with
    | .store => update x.value key (some (cmd.valueLength, cmd.value.data cmd.valueLength))
    | .delete => update x.value key none
    | _ => x.value

/-- The machine of `kvMachine`, with the log. -/
def kvLogged (c : KvCfg) (a : KvAllocator σ) : Machine (KvLogged σ) KvCommand KvFault where
  step x cmd := do
    let key ← cmd.kvKey
    let r ← doPerformKvIo c a x.kv cmd
    pure (x.record cmd key r.2)

/-- A new namespace, and an empty log. -/
def kvLoggedInit (a : KvAllocator σ) (storage : ℕ → ℕ) : KvLogged σ :=
  ⟨kvInitNamespace a storage, 0, fun _ => none, fun _ => none, fun _ => none⟩

variable {x x' : KvLogged σ} {cmds : List KvCommand}

theorem kvLogged_kv (x : KvLogged σ) (cmds : List KvCommand) :
    ((kvLogged c a).run x cmds).map KvLogged.kv = (kvMachine c a).run x.kv cmds := by
  induction cmds generalizing x with
  | nil => rfl
  | cons cmd cmds ih =>
    rw [Machine.run_cons, Machine.run_cons]
    cases hkey : cmd.kvKey with
    | error f => simp [kvLogged, kvMachine, doPerformKvIo, hkey, Except.map]
    | ok key =>
      cases hio : doPerformKvIo c a x.kv cmd with
      | error f => simp [kvLogged, kvMachine, hkey, hio, Except.map]
      | ok r =>
        have hstep : (kvLogged c a).step x cmd = .ok (x.record cmd key r.2) := by
          simp only [kvLogged, hkey, hio, ok_bind]
          rfl
        have hstep' : (kvMachine c a).step x.kv cmd = .ok r.2 := by simp [kvMachine, hio, Except.map]
        rw [hstep, hstep', ok_bind, ok_bind]
        exact ih _

/-- **A step of the logged machine.** -/
theorem kvLogged_step (h : (kvLogged c a).step x cmd = .ok x') :
    ∃ key kv, cmd.kvKey = .ok key ∧ KvStep c a x.kv key cmd kv ∧ x' = x.record cmd key kv := by
  obtain ⟨key, hkey, h⟩ := bind_eq_ok h
  obtain ⟨r, hr, h⟩ := bind_eq_ok h
  exact ⟨key, r.2, hkey, doPerformKvIo_step hkey hr, (Except.ok.inj h).symm⟩

/-! ## What is indexed -/

theorem KvLogged.born_of_owner (hj : x.owner j = some key) : ∃ i, x.born j = some (key, i) := by
  obtain ⟨⟨k, i⟩, hb, hk⟩ := Option.map_eq_some_iff.1 hj
  cases hk
  exact ⟨i, hb⟩

theorem KvLogged.owner_of_born {i : ℕ} (hj : x.born j = some (key, i)) : x.owner j = some key := by
  rw [owner, hj]
  rfl

theorem owner_update {born : ℕ → Option (KvKey × ℕ)} {z : ℕ} {b : Option (KvKey × ℕ)}
    (h : x'.born = update born z b) : x'.owner = update (fun j => (born j).map Prod.fst) z (b.map Prod.fst) := by
  funext j
  rw [KvLogged.owner, h]
  by_cases hj : j = z
  · subst hj
    rw [update_self, update_self]
  · rw [update_of_ne hj, update_of_ne hj]

theorem born_of_not_used (h : Indexed c x.kv.table x.owner) (hj : ¬ x.kv.table.Used j) : x.born j = none := by
  have hnone := mt (h.owned j).2 hj
  simpa [KvLogged.owner] using hnone

theorem record_born_same {kv : KvFtl σ} (h : Indexed c x.kv.table x.owner)
    (hused : ∀ j, kv.table.Used j ↔ x.kv.table.Used j) : (x.record cmd key kv).born = x.born := by
  funext j
  show (if kv.table.Used j then if x.kv.table.Used j then x.born j else some (key, x.clock) else none) = _
  by_cases hj : x.kv.table.Used j
  · rw [if_pos ((hused j).2 hj), if_pos hj]
  · rw [if_neg (mt (hused j).1 hj), born_of_not_used h hj]

theorem record_born_insert {kv : KvFtl σ} {z : ℕ} (h : Indexed c x.kv.table x.owner)
    (hused : ∀ j, kv.table.Used j ↔ x.kv.table.Used j ∨ j = z) (hz : ¬ x.kv.table.Used z) :
    (x.record cmd key kv).born = update x.born z (some (key, x.clock)) := by
  funext j
  show (if kv.table.Used j then if x.kv.table.Used j then x.born j else some (key, x.clock) else none) = _
  by_cases hjz : j = z
  · subst hjz
    rw [update_self, if_pos ((hused j).2 (.inr rfl)), if_neg hz]
  · rw [update_of_ne hjz]
    by_cases hj : x.kv.table.Used j
    · rw [if_pos ((hused j).2 (.inl hj)), if_pos hj]
    · rw [if_neg (mt (hused j).1 (not_or.2 ⟨hj, hjz⟩)), born_of_not_used h hj]

theorem record_born_delete {kv : KvFtl σ} {d : ℕ} (h : Indexed c x.kv.table x.owner)
    (hused : ∀ j, kv.table.Used j ↔ x.kv.table.Used j ∧ j ≠ d) :
    (x.record cmd key kv).born = update x.born d none := by
  funext j
  show (if kv.table.Used j then if x.kv.table.Used j then x.born j else some (key, x.clock) else none) = _
  by_cases hjd : j = d
  · subst hjd
    rw [update_self, if_neg fun hj => ((hused j).1 hj).2 rfl]
  · rw [update_of_ne hjd]
    by_cases hj : x.kv.table.Used j
    · rw [if_pos ((hused j).2 ⟨hj, hjd⟩), if_pos hj]
    · rw [if_neg fun h => hj ((hused j).1 h).1, born_of_not_used h hj]

end WaitGc

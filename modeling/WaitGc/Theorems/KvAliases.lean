/-
  WAITGC verification — keys of different lengths in the key-value index.

  An entry does not hold the length of its key, and a search compares as many
  bytes as the key in question has; the bytes behind a key are zero until its
  slot is cleared.  `kv_key_aliases`: a key that was not stored is taken for
  another one exactly if an entry of its chain was stored for a key that, with
  zero bytes behind it, begins with it.
-/
import WaitGc.Proof.KvLog
import Mathlib.Data.List.Induction

namespace WaitGc

open Outcome Function Chain

variable {σ : Type} {c : KvCfg} {a : KvAllocator σ} {x x' : KvLogged σ} {kv : KvFtl σ} {t t' : KvTable}
  {key : KvKey} {cmd : KvCommand} {cmds : List KvCommand} {storage : ℕ → ℕ}

/-- The 18 bytes of an entry that is stored for the key. -/
def KvKey.padded (key : KvKey) : List (BitVec 8) :=
  key.bytes ++ .replicate (KEY_SIZE - key.bytes.length) 0

/-- No entry of the key's chain was stored for another key that begins with it, with zero
    bytes behind. -/
def NoAlias (c : KvCfg) (x : KvLogged σ) (key : KvKey) : Prop :=
  ∀ j ∈ keyChain c x.kv.table key, ∀ k ∈ x.owner j, k ≠ key → ¬ key.bytes <+: k.padded

/-- A store of exactly this key is among the commands. -/
def KeyStored (cmds : List KvCommand) (key : KvKey) : Prop := ∃ cmd ∈ cmds, cmd.kvKey = .ok key

/-- `get_mapping_entry` returns a live entry. -/
def Live (c : KvCfg) (t : KvTable) (key : KvKey) : Prop :=
  ∃ e, getMappingEntry c t key = .ok e ∧ e.used = true

/-- A command fills a slot: it is treated as an insertion. -/
def Fills (x x' : KvLogged σ) : Prop := ∃ z, ¬ x.kv.table.Used z ∧ x'.kv.table.Used z

/-! ## Entries of a chain -/

/-- An entry of the key's chain begins with the key. -/
def Reached (c : KvCfg) (t : KvTable) (key : KvKey) : Prop :=
  ∃ l, t.Slots (getHashSlot c key) l ∧ ∃ j ∈ l, (t j).holds key = true

theorem reached_iff {owner : ℕ → Option KvKey} (h : Indexed c t owner) :
    Reached c t key ↔ ∃ j ∈ keyChain c t key, (t j).holds key = true := by
  constructor
  · rintro ⟨l, hl, hj⟩
    rwa [hl.unique (h.chained.keyChain key)] at hj
  · exact fun hj => ⟨_, h.chained.keyChain key, hj⟩

theorem live_iff {owner : ℕ → Option KvKey} (h : Indexed c t owner) : Live c t key ↔ Reached c t key := by
  have hfind := h.chained.findMapping key
  rw [reached_iff h, Live, getMappingEntry_eq hfind]
  simp only [Except.ok.injEq, exists_eq_left', foundEntry_used hfind, List.find?_isSome]

theorem find_none_iff {owner : ℕ → Option KvKey} (h : Indexed c t owner) :
    findMapping c t key = .ok none ↔ ¬ Reached c t key := by
  rw [h.chained.findMapping, reached_iff h]
  simp

theorem holds_iff_begins (e : MappingEntry) (key : KvKey) : e.holds key = true ↔ key.bytes <+: e.key := by
  simp only [MappingEntry.holds, decide_eq_true_eq]
  rw [List.prefix_iff_eq_take]
  exact eq_comm

/-! ## The invariant -/

/-- The entries are those of stored keys, with zero bytes behind, and every stored key
    reaches an entry that begins with it. -/
structure AliasInv (c : KvCfg) (x : KvLogged σ) (stored : KvKey → Prop) : Prop where
  indexed : Indexed c x.kv.table x.owner
  padded : ∀ j key, x.owner j = some key → (x.kv.table j).key = key.padded
  fresh : ∀ j, ¬ x.kv.table.Used j → (x.kv.table j).key = .replicate KEY_SIZE 0
  owned : ∀ j key, x.owner j = some key → stored key
  reached : ∀ key, stored key → Reached c x.kv.table key

theorem aliasInv_init (storage : ℕ → ℕ) : AliasInv c (kvLoggedInit a storage) (KeyStored []) where
  indexed := indexed_init c
  padded _ _ h := nomatch h
  fresh _ _ := rfl
  owned _ _ h := nomatch h
  reached _ h := by
    obtain ⟨_, hmem, -⟩ := h
    cases hmem

theorem Reached.grow {valLen valOffset z : ℕ} {k : KvKey} (hn : NewEntry c t key valLen valOffset z t')
    (h : Reached c t k) : Reached c t' k := by
  obtain ⟨l, hl, j, hj, hholds⟩ := h
  have hjz : j ≠ z := fun heq => hn.grows.fresh (heq ▸ hl.used_of_mem hj)
  have hkeep : (t' j).holds k = true := by
    rw [hn.others j hjz]
    exact hholds
  rcases hl.grow hn.grows with hl' | hl'
  · exact ⟨l, hl', j, hj, hkeep⟩
  · exact ⟨_, hl', j, List.mem_append_left _ hj, hkeep⟩

theorem NewEntry.reached {owner : ℕ → Option KvKey} {valLen valOffset z : ℕ}
    (h : Indexed c t owner) (hn : NewEntry c t key valLen valOffset z t') : Reached c t' key := by
  obtain ⟨l, hl⟩ := h.chains (getHashSlot c key)
  have hholds : (t' z).holds key = true := by
    rw [hn.entry]
    exact MappingEntry.setKey_holds (t z) key
  rcases hl.grow hn.grows with hl' | hl'
  · exact ⟨_, hl', z, hn.home _ hl', hholds⟩
  · exact ⟨_, hl', z, hn.home _ hl', hholds⟩

theorem Reached.setLength {k : KvKey} (j length : ℕ) (h : Reached c t k) :
    Reached c (update t j { t j with length }) k := by
  obtain ⟨l, hl, i, hi, hholds⟩ := h
  have hkey (i : ℕ) : ∃ n, update t j { t j with length } i = { t i with length := n } :=
    setLength_eq t j length i
  have hU : KvTable.Used (update t j { t j with length }) = t.Used :=
    funext fun i => propext (setLength_used t j length i)
  have hN : KvTable.next (update t j { t j with length }) = t.next := by
    funext i
    obtain ⟨n, hn⟩ := hkey i
    rw [KvTable.next, hn]
  refine ⟨l, ?_, i, hi, ?_⟩
  · show Ended (KvTable.Used (update t j { t j with length })) (KvTable.next (update t j { t j with length })) _ l
    rwa [hU, hN]
  · obtain ⟨n, hn⟩ := hkey i
    rw [hn]
    exact hholds

theorem keyStored_concat (hcmd : cmd.kvKey = .ok key) (k : KvKey) :
    KeyStored (cmds ++ [cmd]) k ↔ KeyStored cmds k ∨ k = key := by
  constructor
  · rintro ⟨e, he, hk⟩
    rcases List.mem_append.1 he with he | he
    · exact .inl ⟨e, he, hk⟩
    · rw [List.mem_singleton.1 he, hcmd] at hk
      exact .inr (Except.ok.inj hk).symm
  · rintro (⟨e, he, hk⟩ | rfl)
    · exact ⟨e, List.mem_append_left _ he, hk⟩
    · exact ⟨cmd, List.mem_append_right _ (List.mem_singleton_self cmd), hcmd⟩

/-- **A new entry keeps the invariant.** -/
theorem AliasInv.insert {valLen valOffset z : ℕ} (h : AliasInv c x (KeyStored cmds))
    (hcmd : cmd.kvKey = .ok key) (hnone : ∀ j, x.owner j ≠ some key)
    (hn : NewEntry c x.kv.table key valLen valOffset z kv.table) :
    AliasInv c (x.record cmd key kv) (KeyStored (cmds ++ [cmd])) := by
  have howner : (x.record cmd key kv).owner = update x.owner z (some key) :=
    owner_update (record_born_insert h.indexed hn.grows.used_iff hn.grows.fresh)
  constructor
  · rw [howner]
    exact h.indexed.insert hnone hn
  · intro j k hj
    rw [howner] at hj
    show (kv.table j).key = _
    by_cases hjz : j = z
    · subst hjz
      rw [update_self] at hj
      cases hj
      rw [hn.entry]
      simp [MappingEntry.setKey, KvKey.padded, h.fresh j hn.grows.fresh]
    · rw [update_of_ne hjz] at hj
      rw [hn.others j hjz]
      exact h.padded j k hj
  · intro j hj
    have hfree := mt (hn.grows.used_iff j).2 hj
    rw [not_or] at hfree
    show (kv.table j).key = _
    rw [hn.rest j hfree.2 hfree.1]
    exact h.fresh j hfree.1
  · intro j k hj
    rw [keyStored_concat hcmd]
    rw [howner] at hj
    by_cases hjz : j = z
    · rw [hjz, update_self] at hj
      exact .inr (Option.some.inj hj).symm
    · rw [update_of_ne hjz] at hj
      exact .inl (h.owned j k hj)
  · intro k hk
    rcases (keyStored_concat hcmd k).1 hk with hk | rfl
    · exact (h.reached k hk).grow hn
    · exact hn.reached h.indexed

/-- **An update keeps the invariant**, of whichever entry it is. -/
theorem AliasInv.update {j length : ℕ} (h : AliasInv c x (KeyStored cmds)) (hcmd : cmd.kvKey = .ok key)
    (hfind : findMapping c x.kv.table key = .ok (some j))
    (htable : kv.table = Function.update x.kv.table j { x.kv.table j with length }) :
    AliasInv c (x.record cmd key kv) (KeyStored (cmds ++ [cmd])) := by
  have hborn : (x.record cmd key kv).born = x.born :=
    record_born_same h.indexed (by rw [htable]; exact setLength_used x.kv.table j length)
  have howner : (x.record cmd key kv).owner = x.owner := by
    funext i
    rw [KvLogged.owner, hborn]
    rfl
  have hkey (i : ℕ) : (kv.table i).key = (x.kv.table i).key := by
    obtain ⟨n, hn⟩ := setLength_eq x.kv.table j length i
    rw [htable, hn]
  have hlive : Reached c x.kv.table key := by
    by_contra hnot
    rw [(find_none_iff h.indexed).2 hnot] at hfind
    cases hfind
  constructor
  · rw [howner]
    show Indexed c kv.table _
    rw [htable]
    exact h.indexed.setLength j length
  · intro i k hi
    rw [howner] at hi
    exact (hkey i).trans (h.padded i k hi)
  · intro i hi
    refine (hkey i).trans (h.fresh i ?_)
    have hused := setLength_used x.kv.table j length i
    rw [← htable] at hused
    exact mt hused.2 hi
  · intro i k hi
    rw [howner] at hi
    exact (keyStored_concat hcmd k).2 (.inl (h.owned i k hi))
  · intro k hk
    show Reached c kv.table k
    rw [htable]
    rcases (keyStored_concat hcmd k).1 hk with hk | rfl
    · exact (h.reached k hk).setLength j length
    · exact hlive.setLength j length

/-- **A store of any key keeps the invariant.** -/
theorem AliasInv.step (h : AliasInv c x (KeyStored cmds)) (hop : cmd.opcode = .store)
    (hstep : (kvLogged c a).step x cmd = .ok x') : AliasInv c x' (KeyStored (cmds ++ [cmd])) := by
  obtain ⟨key, kv, hcmd, hkv, rfl⟩ := kvLogged_step hstep
  cases hkv with
  | insert table _ hfind hle hnew =>
    obtain ⟨z, hn⟩ := h.indexed.chained.newMapping hnew
    exact h.insert hcmd (h.indexed.find_none hfind) hn
  | update j _ hfind hle => exact h.update hcmd hfind rfl
  | delete d hdel hfind =>
    rw [hop] at hdel
    cases hdel
  | same hnot hfind => exact absurd hop hnot

/-- **Every run of stores keeps the invariant.** -/
theorem aliasInv_run (hstores : ∀ cmd ∈ cmds, cmd.opcode = .store)
    (hrun : (kvLogged c a).run (kvLoggedInit a storage) cmds = .ok x) : AliasInv c x (KeyStored cmds) := by
  induction cmds using List.reverseRecOn generalizing x with
  | nil =>
    cases hrun
    exact aliasInv_init storage
  | append_singleton cmds cmd ih =>
    rw [Machine.run_append] at hrun
    obtain ⟨x₁, hrun₁, hstep⟩ := bind_eq_ok hrun
    obtain ⟨x₂, hx₂, hnil⟩ := bind_eq_ok hstep
    cases hnil
    have hold := ih (fun e he => hstores e (List.mem_append_left _ he)) hrun₁
    exact hold.step (hstores cmd (List.mem_append_right _ (List.mem_singleton_self cmd))) hx₂

/-! ## Keys that reach an entry -/

theorem AliasInv.reached_iff_alias (h : AliasInv c x (KeyStored cmds)) (hnew : ¬ KeyStored cmds key) :
    Reached c x.kv.table key ↔ ¬ NoAlias c x key := by
  rw [reached_iff h.indexed]
  constructor
  · rintro ⟨j, hj, hholds⟩ hno
    have hused := (h.indexed.chained.keyChain key).used_of_mem hj
    obtain ⟨k, hk⟩ := Option.isSome_iff_exists.1 ((h.indexed.owned j).1 hused)
    have hne : k ≠ key := fun heq => hnew (heq ▸ h.owned j k hk)
    rw [holds_iff_begins, h.padded j k hk] at hholds
    exact hno j hj k hk hne hholds
  · intro hno
    simp only [NoAlias, not_forall, not_not] at hno
    obtain ⟨j, hj, k, hk, -, hprefix⟩ := hno
    refine ⟨j, hj, ?_⟩
    rwa [holds_iff_begins, h.padded j k hk]

theorem fills_iff (h : AliasInv c x (KeyStored cmds)) (hop : cmd.opcode = .store) (hcmd : cmd.kvKey = .ok key)
    (hstep : (kvLogged c a).step x cmd = .ok x') : Fills x x' ↔ ¬ Reached c x.kv.table key := by
  obtain ⟨key', kv, hcmd', hkv, rfl⟩ := kvLogged_step hstep
  obtain rfl : key' = key := Except.ok.inj (hcmd'.symm.trans hcmd)
  rw [← find_none_iff h.indexed]
  cases hkv with
  | insert table _ hfind hle hnew =>
    obtain ⟨z, hn⟩ := h.indexed.chained.newMapping hnew
    exact iff_of_true ⟨z, hn.grows.fresh, (hn.grows.used_iff z).2 (.inr rfl)⟩ hfind
  | update j _ hfind hle =>
    refine iff_of_false ?_ ?_
    · rintro ⟨z, hz, hz'⟩
      exact hz ((setLength_used x.kv.table j _ z).1 hz')
    · rw [hfind]
      simp
  | delete d hdel hfind =>
    rw [hop] at hdel
    cases hdel
  | same hnot hfind => exact absurd hop hnot

/-- **Keys alias** exactly if an entry of the chain begins with the key and is another's:
    then a key that was not stored is found, and a store of it is an update. -/
theorem kv_key_aliases (hstores : ∀ cmd ∈ cmds, cmd.opcode = .store)
    (hrun : (kvLogged c a).run (kvLoggedInit a storage) cmds = .ok x) (key : KvKey) :
    ((Live c x.kv.table key ↔ KeyStored cmds key) ↔ KeyStored cmds key ∨ NoAlias c x key) ∧
    ∀ cmd x', cmd.opcode = .store → cmd.kvKey = .ok key → (kvLogged c a).step x cmd = .ok x' →
      ((¬ KeyStored cmds key → Fills x x') ↔ KeyStored cmds key ∨ NoAlias c x key) := by
  have hinv := aliasInv_run hstores hrun
  by_cases hstored : KeyStored cmds key
  · refine ⟨?_, fun cmd x' _ _ _ => ?_⟩
    · rw [live_iff hinv.indexed]
      exact iff_of_true (iff_of_true (hinv.reached key hstored) hstored) (.inl hstored)
    · exact iff_of_true (fun hnot => absurd hstored hnot) (.inl hstored)
  · have halias := hinv.reached_iff_alias hstored
    refine ⟨?_, fun cmd x' hop hcmd hstep => ?_⟩
    · rw [live_iff hinv.indexed, halias, or_iff_right hstored, iff_false_right hstored, not_not]
    · rw [fills_iff hinv hop hcmd hstep, halias, not_not, or_iff_right hstored]
      exact ⟨fun h => h hstored, fun h _ => h⟩

instance (c : KvCfg) (x : KvLogged σ) (key : KvKey) : Decidable (NoAlias c x key) :=
  inferInstanceAs (Decidable (∀ j ∈ keyChain c x.kv.table key, ∀ k ∈ x.owner j,
    k ≠ key → ¬ key.bytes <+: k.padded))

instance (cmds : List KvCommand) (key : KvKey) : Decidable (KeyStored cmds key) :=
  inferInstanceAs (Decidable (∃ cmd ∈ cmds, cmd.kvKey = .ok key))

/-- One slot and a page of storage. -/
def oneSlot : KvCfg where
  hashSlots := 1
  storageSize := 4096
  hashSlots_pos := Nat.one_pos
  hashSlots_lt := by decide
  storageSize_lt := page_lt

/-- The key of the bytes 1 and 2 is stored. -/
def storeTwoBytes : List KvCommand := [⟨.store, 1, fun i => i.val + 1, 1, ⟨fun n => 4096 * n, fun _ => 0⟩⟩]

theorem kv_key_aliases_other :
    ∃ x, (kvLogged oneSlot appendOnly).run (kvLoggedInit appendOnly fun _ => 0) storeTwoBytes = .ok x ∧
      ¬ Live oneSlot x.kv.table (oneByte 2) := by
  have hmap : ((kvLogged oneSlot appendOnly).run (kvLoggedInit appendOnly fun _ => 0) storeTwoBytes).map
      (fun x => decide (NoAlias oneSlot x (oneByte 2))) = .ok true := by decide +kernel
  obtain ⟨x, hrun, hx⟩ := exists_ok_of_map hmap
  have hnot : ¬ KeyStored storeTwoBytes (oneByte 2) := by decide
  have halias := (kv_key_aliases (by decide) hrun (oneByte 2)).1.2 (.inr (of_decide_eq_true hx))
  exact ⟨x, hrun, mt halias.1 hnot⟩

/-- The key of the byte 1 is found, and was never stored. -/
theorem kv_key_aliases_prefix :
    ∃ x, (kvLogged oneSlot appendOnly).run (kvLoggedInit appendOnly fun _ => 0) storeTwoBytes = .ok x ∧
      ¬ KeyStored storeTwoBytes (oneByte 1) ∧ Live oneSlot x.kv.table (oneByte 1) := by
  have hmap : ((kvLogged oneSlot appendOnly).run (kvLoggedInit appendOnly fun _ => 0) storeTwoBytes).map
      (fun x => (getMappingEntry oneSlot x.kv.table (oneByte 1)).map MappingEntry.used) = .ok (.ok true) := by
    decide +kernel
  obtain ⟨x, hrun, hx⟩ := exists_ok_of_map hmap
  exact ⟨x, hrun, by decide, exists_ok_of_map hx⟩

end WaitGc

/-
  WAITGC verification — the key-value index as a finite map.

  `delete_mapping_entry` clears a slot together with its link, so it cuts off
  the entries behind it.  `kv_index_map`: with keys of one length, every step of
  a run leaves the index a finite map exactly if every deleted entry is on the
  way to no other one.
-/
import WaitGc.Proof.KvLog

namespace WaitGc

open Outcome Function Chain

variable {σ : Type} {c : KvCfg} {a : KvAllocator σ} {x x' : KvLogged σ} {kv : KvFtl σ} {key : KvKey}
  {cmd : KvCommand} {cmds : List KvCommand} {L j : ℕ}

/-! ## What holds of the index -/

/-- The index is a finite map: a search finds the entry of the latest insertion of a key
    that is there and no entry of another key, and no two used slots hold one key. -/
structure MapCorrect (c : KvCfg) (L : ℕ) (x : KvLogged σ) : Prop where
  found : ∀ key i, key.bytes.length = L → x.inserted key = some i →
    ∃ j, x.born j = some (key, i) ∧ x.kv.table.Used j ∧
      getMappingEntry c x.kv.table key = .ok (foundEntry x.kv.table key (some j))
  absent : ∀ key, key.bytes.length = L → x.inserted key = none →
    getMappingEntry c x.kv.table key = .ok .none
  single : ∀ i j, x.kv.table.Used i → x.kv.table.Used j →
    (x.kv.table i).key.take L = (x.kv.table j).key.take L → i = j

/-- A command leaves the index a finite map, or it is stopped; it follows no chain
    forever, and searches a free slot forever only if there is none. -/
def StepCorrect (c : KvCfg) (a : KvAllocator σ) (L : ℕ) (x : KvLogged σ) (cmd : KvCommand) : Prop :=
  Sat (Stops c x.kv.table) (MapCorrect c L) ((kvLogged c a).step x cmd)

/-- A command that deletes the entry in slot `d` finds it on the way to no other entry. -/
def DeletesLoose (c : KvCfg) (x : KvLogged σ) (cmd : KvCommand) : Prop :=
  cmd.opcode = .delete → ∀ d < c.hashSlots, ∀ key ∈ x.owner d, cmd.kvKey = .ok key →
    NotOnTheWay c x.kv.table x.owner d

/-! ## The invariant -/

/-- Every used slot is indexed under a key of `L` bytes, and the log of the insertions is
    that of the slots. -/
structure KvInv (c : KvCfg) (L : ℕ) (x : KvLogged σ) : Prop where
  indexed : Indexed c x.kv.table x.owner
  length : ∀ j key, x.owner j = some key → key.bytes.length = L
  inserted : ∀ key i, key.bytes.length = L → (x.inserted key = some i ↔ ∃ j, x.born j = some (key, i))

theorem KvInv.owner_of_holds (h : KvInv c L x) (hkey : key.bytes.length = L) (hj : x.kv.table.Used j)
    (hholds : (x.kv.table j).holds key = true) : x.owner j = some key := by
  obtain ⟨k, hk⟩ := Option.isSome_iff_exists.1 ((h.indexed.owned j).1 hj)
  have hlen := h.length j k hk
  have htake := h.indexed.holds j k hk
  simp only [MappingEntry.holds, decide_eq_true_eq] at htake hholds
  rw [hlen] at htake
  rw [hkey] at hholds
  rw [hk, KvKey.ext_bytes (htake.symm.trans hholds)]

theorem KvInv.find_some (h : KvInv c L x) (hkey : key.bytes.length = L)
    (hfind : findMapping c x.kv.table key = .ok (some j)) : x.owner j = some key := by
  obtain ⟨hused, hholds⟩ := searchChain_some hfind
  exact h.owner_of_holds hkey hused hholds

theorem KvInv.find_of_owner (h : KvInv c L x) (hj : x.owner j = some key) :
    findMapping c x.kv.table key = .ok (some j) := by
  cases hfind : (keyChain c x.kv.table key).find? fun j => (x.kv.table j).holds key with
  | none =>
    exact absurd hj (h.indexed.find_none ((h.indexed.chained.findMapping key).trans (by rw [hfind])) j)
  | some i =>
    have hi : findMapping c x.kv.table key = .ok (some i) := (h.indexed.chained.findMapping key).trans (by rw [hfind])
    rw [hi, h.indexed.unique i j key (h.find_some (h.length j key hj) hi) hj]

/-- **The invariant makes the index a finite map.** -/
theorem KvInv.correct (h : KvInv c L x) : MapCorrect c L x := by
  constructor
  · intro key i hkey hi
    obtain ⟨j, hj⟩ := (h.inserted key i hkey).1 hi
    have howner := KvLogged.owner_of_born hj
    exact ⟨j, hj, (h.indexed.owned j).2 (Option.isSome_of_eq_some howner),
      getMappingEntry_eq (h.find_of_owner howner)⟩
  · intro key hkey hi
    obtain ⟨r, hr⟩ : ∃ r, findMapping c x.kv.table key = .ok r := ⟨_, h.indexed.chained.findMapping key⟩
    rw [getMappingEntry_eq hr]
    cases r with
    | none => rfl
    | some j =>
      obtain ⟨i, hj⟩ := KvLogged.born_of_owner (h.find_some hkey hr)
      rw [(h.inserted key i hkey).2 ⟨j, hj⟩] at hi
      cases hi
  · intro i j hi hj heq
    obtain ⟨k, hk⟩ := Option.isSome_iff_exists.1 ((h.indexed.owned i).1 hi)
    have hlen := h.length i k hk
    have htake := h.indexed.holds i k hk
    simp only [MappingEntry.holds, decide_eq_true_eq] at htake
    have hholds : (x.kv.table j).holds k = true := by
      simp only [MappingEntry.holds, decide_eq_true_eq]
      rw [hlen] at htake ⊢
      exact heq.symm.trans htake
    exact h.indexed.unique i j k hk (h.owner_of_holds hlen hj hholds)

/-! ## One command -/

theorem inserted_eq_none (h : KvInv c L x) (hkey : key.bytes.length = L) (hnone : ∀ j, x.owner j ≠ some key) :
    x.inserted key = none := by
  rw [Option.eq_none_iff_forall_not_mem]
  intro i hi
  obtain ⟨j, hj⟩ := (h.inserted key i hkey).1 hi
  exact hnone j (KvLogged.owner_of_born hj)

/-- **A new entry keeps the invariant.** -/
theorem KvInv.insert {valLen valOffset z : ℕ} (h : KvInv c L x) (hkey : key.bytes.length = L)
    (hop : cmd.opcode = .store) (hnone : ∀ j, x.owner j ≠ some key)
    (hn : NewEntry c x.kv.table key valLen valOffset z kv.table) : KvInv c L (x.record cmd key kv) := by
  have hborn : (x.record cmd key kv).born = update x.born z (some (key, x.clock)) :=
    record_born_insert h.indexed hn.grows.used_iff hn.grows.fresh
  have howner : (x.record cmd key kv).owner = update x.owner z (some key) := owner_update hborn
  have hins : (x.record cmd key kv).inserted = update x.inserted key (some x.clock) := by
    simp only [KvLogged.record, hop]
    rw [if_pos (inserted_eq_none h hkey hnone)]
  have hfree := born_of_not_used h.indexed hn.grows.fresh
  constructor
  · rw [howner]
    exact h.indexed.insert hnone hn
  · intro j k hj
    rw [howner] at hj
    by_cases hjz : j = z
    · rw [hjz, update_self] at hj
      cases hj
      exact hkey
    · rw [update_of_ne hjz] at hj
      exact h.length j k hj
  · intro k i hk
    rw [hins, hborn]
    by_cases hkk : k = key
    · subst hkk
      rw [update_self]
      constructor
      · intro hi
        cases hi
        exact ⟨z, update_self _ _ _⟩
      · rintro ⟨j, hj⟩
        by_cases hjz : j = z
        · rw [hjz, update_self] at hj
          cases hj
          rfl
        · rw [update_of_ne hjz] at hj
          exact absurd (KvLogged.owner_of_born hj) (hnone j)
    · rw [update_of_ne hkk, h.inserted k i hk]
      constructor
      · rintro ⟨j, hj⟩
        refine ⟨j, ?_⟩
        rwa [update_of_ne]
        rintro rfl
        rw [hfree] at hj
        cases hj
      · rintro ⟨j, hj⟩
        refine ⟨j, ?_⟩
        by_cases hjz : j = z
        · rw [hjz, update_self] at hj
          cases hj
          exact absurd rfl hkk
        · rwa [update_of_ne hjz] at hj

/-- **A deletion keeps the invariant**, if the entry is on the way to no other one. -/
theorem KvInv.delete {d : ℕ} (h : KvInv c L x) (hop : cmd.opcode = .delete) (hd : x.owner d = some key)
    (htable : kv.table = update x.kv.table d .none) (hway : NotOnTheWay c x.kv.table x.owner d) :
    KvInv c L (x.record cmd key kv) := by
  have hborn : (x.record cmd key kv).born = update x.born d none :=
    record_born_delete h.indexed (by rw [htable]; exact (shrinks_clear x.kv.table d).used_iff)
  have howner : (x.record cmd key kv).owner = update x.owner d none := owner_update hborn
  have hins : (x.record cmd key kv).inserted = update x.inserted key none := by
    simp only [KvLogged.record, hop]
  constructor
  · rw [howner]
    show Indexed c kv.table _
    rw [htable]
    exact h.indexed.delete hway
  · intro j k hj
    rw [howner] at hj
    by_cases hjd : j = d
    · rw [hjd, update_self] at hj
      cases hj
    · rw [update_of_ne hjd] at hj
      exact h.length j k hj
  · intro k i hk
    rw [hins, hborn]
    have hbornj (j : ℕ) : update x.born d none j = some (k, i) ↔ j ≠ d ∧ x.born j = some (k, i) := by
      by_cases hjd : j = d
      · rw [hjd, update_self]
        exact iff_of_false (fun h => nomatch h) fun h => h.1 rfl
      · rw [update_of_ne hjd, and_iff_right hjd]
    simp only [hbornj]
    by_cases hkk : k = key
    · subst hkk
      rw [update_self]
      refine iff_of_false (fun h => nomatch h) ?_
      rintro ⟨j, hjd, hj⟩
      exact hjd (h.indexed.unique j d k (KvLogged.owner_of_born hj) hd)
    · rw [update_of_ne hkk, h.inserted k i hk]
      refine exists_congr fun j => (and_iff_right_of_imp fun hj => ?_).symm
      rintro rfl
      have heq := (KvLogged.owner_of_born hj).symm.trans hd
      cases heq
      exact hkk rfl

/-- A command that fills and clears no slot keeps the invariant. -/
theorem KvInv.same (h : KvInv c L x) (hindexed : Indexed c kv.table x.owner)
    (hused : ∀ j, kv.table.Used j ↔ x.kv.table.Used j)
    (hins : (x.record cmd key kv).inserted = x.inserted) : KvInv c L (x.record cmd key kv) := by
  have hborn : (x.record cmd key kv).born = x.born := record_born_same h.indexed hused
  have howner : (x.record cmd key kv).owner = x.owner := by
    funext j
    rw [KvLogged.owner, hborn]
    rfl
  refine ⟨?_, ?_, ?_⟩
  · rw [howner]
    exact hindexed
  · rw [howner]
    exact h.length
  · intro k i hk
    rw [hins, hborn]
    exact h.inserted k i hk

/-- The time of an insertion is the same after a store of a key that is there, and after a
    deletion of one that is not. -/
theorem KvInv.record_inserted (h : KvInv c L x) (hkey : key.bytes.length = L)
    (hstore : cmd.opcode = .store → ∃ j, x.owner j = some key)
    (hdelete : cmd.opcode = .delete → ∀ j, x.owner j ≠ some key) :
    (x.record cmd key kv).inserted = x.inserted := by
  unfold KvLogged.record
  dsimp only
  cases hop : cmd.opcode with
  | store =>
    obtain ⟨j, hj⟩ := hstore hop
    obtain ⟨i, hi⟩ := KvLogged.born_of_owner hj
    have hsome := (h.inserted key i hkey).2 ⟨j, hi⟩
    dsimp only
    rw [if_neg (by rw [hsome]; exact Option.some_ne_none i)]
  | delete =>
    dsimp only
    rw [← inserted_eq_none h hkey (hdelete hop), update_eq_self]
  | _ => rfl

/-- **A command keeps the invariant**, if what it deletes is on the way to no other entry. -/
theorem KvInv.step (h : KvInv c L x) (hlen : cmd.keyLength = L) (hloose : DeletesLoose c x cmd)
    (hstep : (kvLogged c a).step x cmd = .ok x') : KvInv c L x' := by
  obtain ⟨key, kv, hcmd, hkv, rfl⟩ := kvLogged_step hstep
  have hkey := (kvKey_length hcmd).trans hlen
  cases hkv with
  | insert table hop hfind hle hnew =>
    obtain ⟨z, hn⟩ := h.indexed.chained.newMapping hnew
    exact h.insert hkey hop (h.indexed.find_none hfind) hn
  | update j hop hfind hle =>
    refine h.same (h.indexed.setLength j _) (setLength_used _ j _) ?_
    refine h.record_inserted hkey (fun _ => ⟨j, h.find_some hkey hfind⟩) fun hdel => ?_
    rw [hop] at hdel
    cases hdel
  | delete d hop hfind =>
    have hd := h.find_some hkey hfind
    have hlt := h.indexed.bound d ((h.indexed.owned d).2 (Option.isSome_of_eq_some hd))
    exact h.delete hop hd rfl (hloose hop d hlt key hd hcmd)
  | same hop hfind =>
    exact h.same h.indexed (fun _ => Iff.rfl) (h.record_inserted hkey (fun h => absurd h hop) fun hdel =>
      h.indexed.find_none (hfind hdel))

/-- A deletion of an entry that is there returns. -/
theorem delete_returns (hcmd : cmd.kvKey = .ok key) (hop : cmd.opcode = .delete) {d : ℕ}
    (hfind : findMapping c x.kv.table key = .ok (some d)) :
    (kvLogged c a).step x cmd =
      .ok (x.record cmd key { x.kv with table := update x.kv.table d .none }) := by
  have hused : (foundEntry x.kv.table key (some d)).used = true := foundEntry_used hfind
  have hio : doPerformKvIo c a x.kv cmd = .ok (kvDone 0, { x.kv with table := update x.kv.table d .none }) := by
    unfold doPerformKvIo
    rw [hcmd, ok_bind, getMappingEntry_eq hfind, ok_bind, hop]
    dsimp only
    rw [if_pos hused, deleteMappingEntry_eq hfind]
    rfl
  simp only [kvLogged, hcmd, hio, ok_bind]
  rfl

/-- **A deletion that is not loose loses an entry.** -/
theorem KvInv.loose_of_correct (h : KvInv c L x) (hlen : cmd.keyLength = L)
    (hcorrect : StepCorrect c a L x cmd) : DeletesLoose c x cmd := by
  intro hop d hdlt key hd hcmd j hjlt k hj hjd
  have hkey := (kvKey_length hcmd).trans hlen
  have hk := h.length j k hj
  have hfind := h.find_of_owner hd
  rw [StepCorrect, delete_returns hcmd hop hfind] at hcorrect
  have hne : k ≠ key := fun heq => hjd (h.indexed.unique j d k hj (heq ▸ hd))
  obtain ⟨i, hborn⟩ := KvLogged.born_of_owner hj
  -- the log says that `k` is there
  have hins : (x.record cmd key { x.kv with table := update x.kv.table d .none }).inserted k = some i := by
    simp only [KvLogged.record, hop]
    rw [update_of_ne hne]
    exact (h.inserted k i hk).2 ⟨j, hborn⟩
  obtain ⟨j', -, hused', hget⟩ := hcorrect.found k i hk hins
  have hs := shrinks_clear x.kv.table d
  have hchain := (h.indexed.chained.keyChain k).shrink hs
  have hlength := (List.takeWhile_prefix (p := (· ≠ d)) (l := keyChain c x.kv.table k)).length_le
  have hno : ¬ KvTable.Used (update x.kv.table d .none) NO_SLOT := fun hu =>
    h.indexed.chained.noSlot ((hs.used_iff _).1 hu).1
  have hsearch : findMapping c (update x.kv.table d .none) k = _ :=
    searchChain_eq hno hchain
      (Nat.lt_succ_of_le (hlength.trans (h.indexed.chained.length_le (h.indexed.chained.keyChain k))))
  cases hfound : ((keyChain c x.kv.table k).takeWhile (· ≠ d)).find?
      fun j => (update x.kv.table d MappingEntry.none j).holds k with
  | none =>
    rw [hfound] at hsearch
    have hused : (foundEntry (update x.kv.table d .none) k (some j')).used = true := hused'
    have hnone : foundEntry (update x.kv.table d .none) k none =
        foundEntry (update x.kv.table d .none) k (some j') :=
      Except.ok.inj ((getMappingEntry_eq hsearch).symm.trans hget)
    rw [← hnone] at hused
    cases hused
  | some i' =>
    -- the entry that is found is that of `k`
    have hmem := List.mem_of_find?_eq_some hfound
    have hholds := List.find?_some hfound
    have hused := (hs.used_iff i').1 (hchain.used_of_mem hmem)
    rw [update_of_ne hused.2] at hholds
    have howner := h.owner_of_holds hk hused.1 hholds
    rw [h.indexed.unique j i' k hj howner]
    exact hmem

/-! ## Runs -/

theorem kvInv_init (storage : ℕ → ℕ) : KvInv c L (kvLoggedInit a storage) := by
  constructor
  · exact indexed_init c
  · intro j key hj
    cases hj
  · intro key i _
    exact iff_of_false (fun h => nomatch h) fun ⟨_, h⟩ => nomatch h

theorem KvInv.stepCorrect (h : KvInv c L x) (hlen : cmd.keyLength = L) (hloose : DeletesLoose c x cmd) :
    StepCorrect c a L x cmd := by
  unfold StepCorrect
  cases hstep : (kvLogged c a).step x cmd with
  | ok x' => exact (h.step hlen hloose hstep).correct
  | error f =>
    have hstops := doPerformKvIo_stops (a := a) h.indexed cmd
    unfold kvLogged at hstep
    dsimp only at hstep
    cases hkey : cmd.kvKey with
    | error f' =>
      rw [hkey] at hstep
      cases hstep
      unfold doPerformKvIo at hstops
      rw [hkey] at hstops
      exact hstops
    | ok key =>
      rw [hkey, ok_bind] at hstep
      cases hio : doPerformKvIo c a x.kv cmd with
      | ok r => rw [hio] at hstep; cases hstep
      | error f' =>
        rw [hio] at hstep hstops
        cases hstep
        exact hstops

/-- **The key-value index is a finite map** at every step of a run exactly if every
    deleted entry is on the way to no other one. -/
theorem kv_index_map (storage : ℕ → ℕ) (hlen : ∀ cmd ∈ cmds, cmd.keyLength = L) :
    (kvLogged c a).Along (StepCorrect c a L) (kvLoggedInit a storage) cmds ↔
      (kvLogged c a).Along (DeletesLoose c) (kvLoggedInit a storage) cmds := by
  have hkeys := Machine.along_of_forall (M := kvLogged c a) (s := kvLoggedInit a storage) hlen
  constructor
  · intro h
    refine (h.and hkeys).imp (I := KvInv c L) ?_ ?_ (kvInv_init storage)
    · rintro x cmd x' hinv ⟨hcorrect, hlen⟩ hstep
      exact hinv.step hlen (hinv.loose_of_correct hlen hcorrect) hstep
    · rintro x cmd hinv ⟨hcorrect, hlen⟩
      exact hinv.loose_of_correct hlen hcorrect
  · intro h
    refine (h.and hkeys).imp (I := KvInv c L) ?_ ?_ (kvInv_init storage)
    · rintro x cmd x' hinv ⟨hloose, hlen⟩ hstep
      exact hinv.step hlen hloose hstep
    · rintro x cmd hinv ⟨hloose, hlen⟩
      exact hinv.stepCorrect hlen hloose

instance (c : KvCfg) (x : KvLogged σ) (cmd : KvCommand) : Decidable (DeletesLoose c x cmd) :=
  inferInstanceAs (Decidable (cmd.opcode = .delete → ∀ d < c.hashSlots, ∀ key ∈ x.owner d,
    cmd.kvKey = .ok key → NotOnTheWay c x.kv.table x.owner d))

/-- The key of 16 bytes that starts with `b`; the others are zero. -/
def keyOf (b : BitVec 8) (i : Fin 16) : BitVec 8 := if i = 0 then b else 0

/-- A command with that key and four bytes of value. -/
def onKey (opcode : KvOpcode) (b : BitVec 8) : KvCommand := ⟨opcode, 15, keyOf b, 1, ⟨fun n => 4096 * n, fun _ => 0⟩⟩

/-- Two keys of one slot are stored, and the second one is deleted. -/
def deleteSecond : List KvCommand := [onKey .store 0, onKey .store 2, onKey .delete 2]

theorem kv_index_map_deleteSecond : (kvLogged twoSlots appendOnly).Along (StepCorrect twoSlots appendOnly 16)
    (kvLoggedInit appendOnly fun _ => 0) deleteSecond :=
  (kv_index_map (fun _ => 0) (by decide)).2 (by decide +kernel)

/-- Two keys of one slot are stored, and the first one is deleted. -/
def deleteFirst : List KvCommand := [onKey .store 0, onKey .store 2, onKey .delete 0]

/-- The second key. -/
def secondKey : KvKey := ⟨2 :: .replicate 15 0, by decide, by decide⟩

/-- The second key was stored and is not found any more. -/
theorem kv_index_map_deleteFirst :
    ∃ x, (kvLogged twoSlots appendOnly).run (kvLoggedInit appendOnly fun _ => 0) deleteFirst = .ok x ∧
      x.inserted secondKey = some 1 ∧ getMappingEntry twoSlots x.kv.table secondKey = .ok .none ∧
      ¬ MapCorrect twoSlots 16 x := by
  have hmap : ((kvLogged twoSlots appendOnly).run (kvLoggedInit appendOnly fun _ => 0) deleteFirst).map
      (fun x => (x.inserted secondKey, getMappingEntry twoSlots x.kv.table secondKey)) =
        .ok (some 1, .ok .none) := by decide +kernel
  obtain ⟨x, hrun, hx⟩ := exists_ok_of_map hmap
  rw [Prod.mk.injEq] at hx
  refine ⟨x, hrun, hx.1, hx.2, fun h => ?_⟩
  obtain ⟨j, -, hused, hget⟩ := h.found secondKey 1 (by decide) hx.1
  have hnone := Except.ok.inj (hx.2.symm.trans hget)
  have hsome : (foundEntry x.kv.table secondKey (some j)).used = true := hused
  rw [← hnone] at hsome
  cases hsome

end WaitGc

/-
  WAITGC verification — stores in a batch and stores one by one.

  `batched_stores_agree_iff`: stores of keys of one length leave the same
  namespace either way exactly if the last store of each key has the length that
  a batch records: the one of its entry, or of its first store.  A batch records
  no length at an update.
-/
import WaitGc.Proof.KvStores
import WaitGc.Theorems.KvMap

namespace WaitGc

open Outcome Function Chain

variable {σ : Type} {c : KvCfg} {a : KvAllocator σ} {s s' s₁ s₂ : KvFtl σ} {t t' : KvTable}
  {key k : KvKey} {cmd : KvCommand} {cmds : List KvCommand} {record : ℕ → ℕ → ℕ} {j z len L : ℕ}

/-! ## Namespaces -/

/-- What a namespace executes: a command on a key, or a sub-command of a batch. -/
inductive KvEvent where
  | single (cmd : KvCommand)
  | batched (opcode : KvOpcode) (key : KvKey) (value : ℕ → ℕ) (valLen : ℕ)

/-- The namespace as a machine of both. -/
def kvNamespace (c : KvCfg) (a : KvAllocator σ) : Machine (KvFtl σ) KvEvent KvFault where
  step
    | s, .single cmd => (kvMachine c a).step s cmd
    | s, .batched opcode key value valLen => doPerformKvBatchedIo c a s opcode key value valLen

theorem Chained.init (c : KvCfg) : Chained c fun _ => .init := (indexed_init c).chained

theorem KvStep.chained (h : KvStep c a s key cmd s') (hs : Chained c s.table) : Chained c s'.table := by
  cases h with
  | insert table hop hfind hle hnew =>
    obtain ⟨z, hn⟩ := hs.newMapping hnew
    exact hs.insert hn
  | update j => exact (sameShape_setLength _ _ _).chained hs
  | delete d => exact hs.clear d
  | same => exact hs

theorem kvMachine_chained (hs : Chained c s.table) (h : (kvMachine c a).step s cmd = .ok s') :
    Chained c s'.table := by
  change (doPerformKvIo c a s cmd).map Prod.snd = .ok s' at h
  cases hio : doPerformKvIo c a s cmd with
  | error f => rw [hio] at h; cases h
  | ok r =>
    rw [hio] at h
    obtain rfl := Except.ok.inj h
    have hio' := hio
    unfold doPerformKvIo at hio'
    obtain ⟨key, hkey, -⟩ := bind_eq_ok hio'
    exact (doPerformKvIo_step hkey hio).chained hs

theorem batchedIo_chained {opcode : KvOpcode} {value : ℕ → ℕ} (hs : Chained c s.table)
    (h : doPerformKvBatchedIo c a s opcode key value len = .ok s') : Chained c s'.table := by
  unfold doPerformKvBatchedIo at h
  obtain ⟨entry, -, h⟩ := bind_eq_ok h
  cases opcode with
  | store =>
    dsimp only at h
    split_ifs at h
    · obtain ⟨-, -, h⟩ := bind_eq_ok h
      cases h
      exact hs
    · obtain ⟨_, _, h⟩ := bind_eq_ok h
      obtain ⟨table, hnew, h⟩ := bind_eq_ok h
      cases h
      obtain ⟨z, hn⟩ := hs.newMapping hnew
      exact hs.insert hn
  | retrieve | exist | delete | other =>
    cases h
    exact hs

/-- **Every reachable table is chained.** -/
theorem chained_run {storage : ℕ → ℕ} {es : List KvEvent}
    (hrun : (kvNamespace c a).run (kvInitNamespace a storage) es = .ok s) : Chained c s.table := by
  have hinit : Chained c (kvInitNamespace a storage).table := Chained.init c
  refine (Machine.run_sat (E := fun _ => True) (C := fun _ _ => True) (I := fun s : KvFtl σ => Chained c s.table)
    ?_ hinit (Machine.along_true _ _)).of_ok hrun
  intro s e hs _
  refine yields_iff.2 fun s' h => ?_
  cases e with
  | single cmd => exact kvMachine_chained hs h
  | batched opcode key value valLen => exact batchedIo_chained hs h

/-! ## One store -/

/-- The machine of the stores. -/
def kvStores (record : ℕ → ℕ → ℕ) (c : KvCfg) (a : KvAllocator σ) : Machine (KvFtl σ) KvCommand KvFault where
  step := storeStep record c a

/-- The stores that are compared: keys of `L` bytes in the command, and small values. -/
structure IsStore (L : ℕ) (cmd : KvCommand) : Prop where
  opcode : cmd.opcode = .store
  keyLength : cmd.keyLength = L
  inField : L ≤ 16
  small : cmd.valueLength ≤ SMALL_LENGTH

/-- What a store of `len` bytes does to the table. -/
inductive Stored (record : ℕ → ℕ → ℕ) (c : KvCfg) (key : KvKey) (len : ℕ) (t : KvTable) : KvTable → Prop where
  | update (j : ℕ) : findMapping c t key = .ok (some j) →
      Stored record c key len t (update t j { t j with length := record (t j).length len })
  | insert (z offset : ℕ) (t' : KvTable) : findMapping c t key = .ok none → NewEntry c t key len offset z t' →
      Stored record c key len t t'

theorem storeStep_stored (hs : Chained c s.table) (hkey : cmd.kvKey = .ok key)
    (h : storeStep record c a s cmd = .ok s') : Stored record c key cmd.valueLength s.table s'.table := by
  unfold storeStep at h
  rw [hkey, ok_bind] at h
  obtain ⟨r, hfind, h⟩ := bind_eq_ok h
  cases r with
  | some j =>
    dsimp only at h
    obtain ⟨_, _, h⟩ := bind_eq_ok h
    cases h
    exact .update j hfind
  | none =>
    dsimp only at h
    obtain ⟨_, _, h⟩ := bind_eq_ok h
    obtain ⟨table, hnew, h⟩ := bind_eq_ok h
    cases h
    obtain ⟨z, hn⟩ := hs.newMapping hnew
    exact .insert z _ _ hfind hn

section stored
variable (h : Stored record c key len t t')
include h

/-- A key that was found: its length is recorded. -/
theorem Stored.find_present (hfind : findMapping c t key = .ok (some j)) :
    findMapping c t' key = .ok (some j) ∧ (t' j).length = record (t j).length len := by
  cases h with
  | update i hi =>
    obtain rfl : i = j := Option.some.inj (Except.ok.inj (hi.symm.trans hfind))
    exact ⟨((sameShape_setLength _ _ _).findMapping key).trans hfind, by rw [update_self]⟩
  | insert z offset _ hnone hn =>
    rw [hnone] at hfind
    cases hfind

variable (ht : Chained c t)
include ht

theorem Stored.chained : Chained c t' := by
  cases h with
  | update j hfind => exact (sameShape_setLength _ _ _).chained ht
  | insert z offset _ hfind hn => exact ht.insert hn

theorem Stored.find_other (hk : k ≠ key) (hlen : k.bytes.length = key.bytes.length) :
    findMapping c t' k = findMapping c t k := by
  cases h with
  | update j hfind => exact (sameShape_setLength _ _ _).findMapping k
  | insert z offset _ hfind hn => exact ht.find_other hn hk hlen

theorem Stored.find_absent (hfind : findMapping c t key = .ok none) :
    ∃ z, findMapping c t' key = .ok (some z) ∧ (t' z).length = len := by
  cases h with
  | update i hi =>
    rw [hi] at hfind
    cases hfind
  | insert z offset _ hnone hn => exact ⟨z, ht.find_new hn hnone, by rw [hn.entry]⟩

/-- **Only the entry of the key changes its length.** -/
theorem Stored.length_other (hj : findMapping c t' key ≠ .ok (some j)) : (t' j).length = (t j).length := by
  cases h with
  | update i hi =>
    rw [(sameShape_setLength _ _ _).findMapping key, hi] at hj
    rw [update_of_ne fun heq => hj (by rw [heq])]
  | insert z offset _ hnone hn =>
    rw [ht.find_new hn hnone] at hj
    rw [hn.others j fun heq => hj (by rw [heq])]

end stored

theorem eq_of_find (hk : findMapping c t k = .ok (some j)) (hkey : findMapping c t key = .ok (some j))
    (hlen : k.bytes.length = key.bytes.length) : k = key := by
  have htake := of_decide_eq_true (searchChain_some hk).2
  have htake' := of_decide_eq_true (searchChain_some hkey).2
  rw [hlen] at htake
  exact KvKey.ext_bytes (htake.symm.trans htake')

/-! ## Runs of stores -/

/-- The stores of a key. -/
def storesOf (key : KvKey) (cmds : List KvCommand) : List KvCommand := cmds.filter fun cmd => cmd.kvKey = .ok key

/-- The length of an entry after updates. -/
def lengthAfter (record : ℕ → ℕ → ℕ) (n : ℕ) (cmds : List KvCommand) : ℕ :=
  cmds.foldl (fun n cmd => record n cmd.valueLength) n

theorem IsStore.kvKey (h : IsStore L cmd) : ∃ key, cmd.kvKey = .ok key ∧ key.bytes.length = L := by
  have hlen : cmd.keyLength ≤ 16 := h.keyLength.trans_le h.inField
  obtain ⟨key, hkey⟩ : ∃ key, cmd.kvKey = .ok key := ⟨_, dif_pos hlen⟩
  exact ⟨key, hkey, (kvKey_length hkey).trans h.keyLength⟩

theorem storesOf_cons_self (hkey : cmd.kvKey = .ok key) (cmds : List KvCommand) :
    storesOf key (cmd :: cmds) = cmd :: storesOf key cmds :=
  List.filter_cons_of_pos (decide_eq_true hkey)

theorem storesOf_cons_other (hkey : cmd.kvKey = .ok key) (hk : k ≠ key) (cmds : List KvCommand) :
    storesOf k (cmd :: cmds) = storesOf k cmds := by
  refine List.filter_cons_of_neg ?_
  rw [hkey, decide_eq_true_eq]
  exact fun heq => hk (Except.ok.inj heq).symm

/-- **A key that is there** stays where it is, and its entry records the stores. -/
theorem stores_present (hs : Chained c s.table) (hcmds : ∀ cmd ∈ cmds, IsStore L cmd) (hk : k.bytes.length = L)
    (hfind : findMapping c s.table k = .ok (some j)) (hrun : (kvStores record c a).run s cmds = .ok s') :
    findMapping c s'.table k = .ok (some j) ∧
      (s'.table j).length = lengthAfter record (s.table j).length (storesOf k cmds) := by
  induction cmds generalizing s with
  | nil =>
    cases hrun
    exact ⟨hfind, rfl⟩
  | cons cmd cmds ih =>
    rw [Machine.run_cons] at hrun
    obtain ⟨s₁, hstep, hrun⟩ := bind_eq_ok hrun
    obtain ⟨key, hkey, hlen⟩ := (hcmds cmd List.mem_cons_self).kvKey
    have hstored := storeStep_stored hs hkey hstep
    have ih := fun h => ih (hstored.chained hs) (fun cmd h => hcmds cmd (List.mem_cons_of_mem _ h)) h hrun
    by_cases heq : k = key
    · subst heq
      obtain ⟨hfind₁, hlength⟩ := hstored.find_present hfind
      rw [storesOf_cons_self hkey]
      have hafter := ih hfind₁
      rwa [hlength] at hafter
    · have hfind₁ := (hstored.find_other hs heq (hk.trans hlen.symm)).trans hfind
      have hlength : (s₁.table j).length = (s.table j).length := by
        refine hstored.length_other hs fun hkey' => heq ?_
        exact eq_of_find hfind₁ hkey' (hk.trans hlen.symm)
      rw [storesOf_cons_other hkey heq, ← hlength]
      exact ih hfind₁

/-- **A key that is not there** is inserted by its first store. -/
theorem stores_absent (hs : Chained c s.table) (hcmds : ∀ cmd ∈ cmds, IsStore L cmd) (hk : k.bytes.length = L)
    (hfind : findMapping c s.table k = .ok none) (hrun : (kvStores record c a).run s cmds = .ok s') :
    match storesOf k cmds with
    | [] => findMapping c s'.table k = .ok none
    | first :: rest => ∃ z, findMapping c s'.table k = .ok (some z) ∧
        (s'.table z).length = lengthAfter record first.valueLength rest := by
  induction cmds generalizing s with
  | nil =>
    cases hrun
    exact hfind
  | cons cmd cmds ih =>
    rw [Machine.run_cons] at hrun
    obtain ⟨s₁, hstep, hrun⟩ := bind_eq_ok hrun
    obtain ⟨key, hkey, hlen⟩ := (hcmds cmd List.mem_cons_self).kvKey
    have hstored := storeStep_stored hs hkey hstep
    have hrest : ∀ cmd ∈ cmds, IsStore L cmd := fun cmd h => hcmds cmd (List.mem_cons_of_mem _ h)
    by_cases heq : k = key
    · subst heq
      obtain ⟨z, hz, hlength⟩ := hstored.find_absent hs hfind
      rw [storesOf_cons_self hkey]
      have hafter := stores_present (hstored.chained hs) hrest hk hz hrun
      rw [hlength] at hafter
      exact ⟨z, hafter⟩
    · rw [storesOf_cons_other hkey heq]
      exact ih (hstored.chained hs) hrest ((hstored.find_other hs heq (hk.trans hlen.symm)).trans hfind) hrun

/-- **Other entries keep their lengths.** -/
theorem stores_others (hs : Chained c s.table) (hcmds : ∀ cmd ∈ cmds, IsStore L cmd)
    (hrun : (kvStores record c a).run s cmds = .ok s')
    (hj : ∀ k : KvKey, k.bytes.length = L → findMapping c s'.table k ≠ .ok (some j)) :
    (s'.table j).length = (s.table j).length := by
  induction cmds generalizing s with
  | nil =>
    cases hrun
    rfl
  | cons cmd cmds ih =>
    rw [Machine.run_cons] at hrun
    obtain ⟨s₁, hstep, hrun⟩ := bind_eq_ok hrun
    obtain ⟨key, hkey, hlen⟩ := (hcmds cmd List.mem_cons_self).kvKey
    have hstored := storeStep_stored hs hkey hstep
    have hrest : ∀ cmd ∈ cmds, IsStore L cmd := fun cmd h => hcmds cmd (List.mem_cons_of_mem _ h)
    have hchained := hstored.chained hs
    refine (ih hchained hrest hrun).trans (hstored.length_other hs fun hfind => ?_)
    exact hj key hlen (stores_present hchained hrest hlen hfind hrun).1

/-! ## The two ways -/

/-- The namespaces differ in recorded lengths only. -/
structure SameButLengths (s s' : KvFtl σ) : Prop where
  shape : SameShape s.table s'.table
  alloc : s'.alloc = s.alloc
  storage : s'.storage = s.storage

/-- **A store** does the same but for the length. -/
theorem SameButLengths.storeStep (h : SameButLengths s s') (record record' : ℕ → ℕ → ℕ) (cmd : KvCommand) :
    Rel SameButLengths (storeStep record c a s cmd) (storeStep record' c a s' cmd) := by
  unfold WaitGc.storeStep
  simp only [h.shape.findMapping, h.alloc, h.storage, h.shape.offset]
  refine Rel.bind_same _ fun key => Rel.bind_same _ fun r => ?_
  cases r with
  | some j =>
    have hset := h.shape.setLength j (record (s.table j).length cmd.valueLength)
      (record' (s'.table j).length cmd.valueLength)
    simp only [h.shape.offset j] at hset
    exact Rel.bind_same _ fun _ => ⟨hset, rfl, rfl⟩
  | none => exact Rel.bind_same _ fun _ => (h.shape.newMapping key _ _).bind fun t t' ht => ⟨ht, rfl, rfl⟩

/-- The machine of the stores in a batch. -/
def kvBatched (c : KvCfg) (a : KvAllocator σ) : Machine (KvFtl σ) KvCommand KvFault where
  step := batchedStore c a

theorem kvBatched_run (s : KvFtl σ) (cmds : List KvCommand) :
    (kvBatched c a).run s cmds = (kvStores recordNever c a).run s cmds :=
  Machine.run_congr fun _ _ _ => batchedStore_eq

theorem kvMachine_run (s : KvFtl σ) (hcmds : ∀ cmd ∈ cmds, IsStore L cmd) :
    (kvMachine c a).run s cmds = (kvStores recordSmall c a).run s cmds :=
  Machine.run_congr fun cmd hcmd _ => kvMachine_store (hcmds cmd hcmd).opcode

theorem lengthAfter_never (n : ℕ) (cmds : List KvCommand) : lengthAfter recordNever n cmds = n := by
  induction cmds with
  | nil => rfl
  | cons cmd cmds ih => exact ih

theorem lengthAfter_small {n : ℕ} (hsmall : ∀ cmd ∈ cmds, cmd.valueLength ≤ SMALL_LENGTH) :
    lengthAfter recordSmall n cmds =
      if SMALL_LENGTH < n then n else (cmds.getLast?.map KvCommand.valueLength).getD n := by
  induction cmds generalizing n with
  | nil => exact (ite_self n).symm
  | cons cmd cmds ih =>
    have hcmd := hsmall cmd List.mem_cons_self
    have hrecord : recordSmall n cmd.valueLength = if SMALL_LENGTH < n then n else cmd.valueLength := by
      unfold recordSmall
      split_ifs <;> omega
    show lengthAfter recordSmall (recordSmall n cmd.valueLength) cmds = _
    rw [ih fun cmd h => hsmall cmd (List.mem_cons_of_mem _ h), hrecord, List.getLast?_cons]
    by_cases hn : SMALL_LENGTH < n
    · rw [if_pos hn, if_pos hn, if_pos hn]
    · rw [if_neg hn, if_neg hn, if_neg (Nat.not_lt.2 hcmd)]
      cases cmds.getLast? <;> rfl

/-- The last store of each key has the length that a batch records. -/
def LengthsKept (c : KvCfg) (t : KvTable) (cmds : List KvCommand) : Prop :=
  ∀ key, ∀ last ∈ (storesOf key cmds).getLast?, match findMapping c t key with
    | .ok (some j) => SMALL_LENGTH < (t j).length ∨ last.valueLength = (t j).length
    | _ => ∀ first ∈ (storesOf key cmds).head?, last.valueLength = first.valueLength

theorem SameButLengths.refl (s : KvFtl σ) : SameButLengths s s := ⟨fun _ => rfl, rfl, rfl⟩

theorem SameButLengths.eq_iff (h : SameButLengths s₁ s₂) :
    s₂ = s₁ ↔ ∀ j, (s₂.table j).length = (s₁.table j).length := by
  constructor
  · rintro rfl j
    rfl
  · intro hlength
    obtain ⟨hshape, halloc, hstorage⟩ := h
    have htable : s₂.table = s₁.table := funext fun j => by rw [hshape j, hlength j]
    cases s₁
    cases s₂
    cases htable
    cases halloc
    cases hstorage
    rfl

/-- A key that was there: the lengths in the two namespaces. -/
theorem present_lengths {n : ℕ} (hsmall : ∀ cmd ∈ cmds, cmd.valueLength ≤ SMALL_LENGTH) :
    lengthAfter recordNever n cmds = lengthAfter recordSmall n cmds ↔
      ∀ last ∈ cmds.getLast?, SMALL_LENGTH < n ∨ last.valueLength = n := by
  rw [lengthAfter_never, lengthAfter_small hsmall]
  cases hlast : cmds.getLast? with
  | none => simp
  | some last =>
    show n = (if SMALL_LENGTH < n then n else last.valueLength) ↔ ∀ l ∈ some last, _
    simp only [Option.mem_def, Option.some.injEq, forall_eq']
    split_ifs with hn
    · exact iff_of_true rfl (.inl hn)
    · exact ⟨fun h => .inr h.symm, fun h => (h.resolve_left hn).symm⟩

theorem absent_lengths {first : KvCommand} (hsmall : ∀ cmd ∈ first :: cmds, cmd.valueLength ≤ SMALL_LENGTH) :
    lengthAfter recordNever first.valueLength cmds = lengthAfter recordSmall first.valueLength cmds ↔
      ∀ last ∈ (first :: cmds).getLast?, last.valueLength = first.valueLength := by
  have hfirst := hsmall first List.mem_cons_self
  rw [present_lengths fun cmd h => hsmall cmd (List.mem_cons_of_mem _ h), List.getLast?_cons]
  cases cmds.getLast? with
  | none => simp
  | some last =>
    simp only [Option.getD_some, Option.mem_def, Option.some.injEq, forall_eq']
    exact or_iff_right (Nat.not_lt.2 hfirst)

section agree
variable (hs : Chained c s.table) (hcmds : ∀ cmd ∈ cmds, IsStore L cmd)
  (h₁ : (kvStores recordSmall c a).run s cmds = .ok s₁) (h₂ : (kvStores recordNever c a).run s cmds = .ok s₂)
include hs hcmds h₁ h₂

/-- **The lengths agree for a key** exactly if its last store has the recorded one. -/
theorem key_lengths (hshape : SameShape s₁.table s₂.table) (hk : k.bytes.length = L) :
    (∀ j, findMapping c s₁.table k = .ok (some j) → (s₂.table j).length = (s₁.table j).length) ↔
      ∀ last ∈ (storesOf k cmds).getLast?, match findMapping c s.table k with
        | .ok (some j) => SMALL_LENGTH < (s.table j).length ∨ last.valueLength = (s.table j).length
        | _ => ∀ first ∈ (storesOf k cmds).head?, last.valueLength = first.valueLength := by
  have hsmall : ∀ cmd ∈ storesOf k cmds, cmd.valueLength ≤ SMALL_LENGTH := fun cmd hcmd =>
    (hcmds cmd (List.mem_of_mem_filter hcmd)).small
  obtain ⟨r, hfind⟩ : ∃ r, findMapping c s.table k = .ok r := ⟨_, hs.findMapping k⟩
  rw [hfind]
  cases r with
  | some j =>
    obtain ⟨hj₁, hlen₁⟩ := stores_present hs hcmds hk hfind h₁
    obtain ⟨-, hlen₂⟩ := stores_present hs hcmds hk hfind h₂
    dsimp only
    rw [← present_lengths hsmall, ← hlen₁, ← hlen₂]
    constructor
    · exact fun h => h j hj₁
    · intro h i hi
      obtain rfl : j = i := Option.some.inj (Except.ok.inj (hj₁.symm.trans hi))
      exact h
  | none =>
    have hleft₁ := stores_absent hs hcmds hk hfind h₁
    have hleft₂ := stores_absent hs hcmds hk hfind h₂
    dsimp only
    cases hstores : storesOf k cmds with
    | nil =>
      rw [hstores] at hleft₁
      refine iff_of_true (fun j hj => ?_) fun last h => by cases h
      rw [hleft₁] at hj
      cases hj
    | cons first rest =>
      rw [hstores] at hleft₁ hleft₂ hsmall
      obtain ⟨z₁, hz₁, hlen₁⟩ := hleft₁
      obtain ⟨z₂, hz₂, hlen₂⟩ := hleft₂
      obtain rfl : z₁ = z₂ := by
        rw [hshape.findMapping, hz₁] at hz₂
        exact Option.some.inj (Except.ok.inj hz₂)
      have hhead (last : KvCommand) : (∀ l ∈ (first :: rest).head?, last.valueLength = l.valueLength) ↔
          last.valueLength = first.valueLength := by
        simp only [List.head?_cons, Option.mem_def, Option.some.injEq, forall_eq']
      simp only [hhead]
      rw [← absent_lengths hsmall, ← hlen₁, ← hlen₂]
      constructor
      · exact fun h => h z₁ hz₁
      · intro h i hi
        obtain rfl : z₁ = i := Option.some.inj (Except.ok.inj (hz₁.symm.trans hi))
        exact h

/-- The namespaces are the same exactly if the lengths are kept. -/
theorem same_iff_kept (hsame : SameButLengths s₁ s₂) : s₂ = s₁ ↔ LengthsKept c s.table cmds := by
  rw [hsame.eq_iff]
  constructor
  · intro hlength key last hlast
    obtain ⟨hmem, hkey⟩ := List.mem_filter.1 (List.mem_of_getLast? hlast)
    rw [decide_eq_true_eq] at hkey
    have hk := (kvKey_length hkey).trans (hcmds last hmem).keyLength
    exact (key_lengths hs hcmds h₁ h₂ hsame.shape hk).1 (fun j _ => hlength j) last hlast
  · intro hkept j
    by_cases hj : ∃ k : KvKey, k.bytes.length = L ∧ findMapping c s₁.table k = .ok (some j)
    · obtain ⟨k, hk, hfind⟩ := hj
      exact (key_lengths hs hcmds h₁ h₂ hsame.shape hk).2 (hkept k) j hfind
    · push Not at hj
      rw [stores_others hs hcmds h₁ hj, stores_others hs hcmds h₂ fun k hk => ?_]
      rw [hsame.shape.findMapping]
      exact hj k hk

end agree

/-- **Stores in a batch and stores one by one agree** exactly if the lengths are kept, or a
    fault ends them. -/
theorem batched_stores_agree_iff {storage : ℕ → ℕ} {es : List KvEvent}
    (hrun : (kvNamespace c a).run (kvInitNamespace a storage) es = .ok s)
    (hcmds : ∀ cmd ∈ cmds, IsStore L cmd) :
    (kvBatched c a).run s cmds = (kvMachine c a).run s cmds ↔
      (∃ f, (kvMachine c a).run s cmds = .error f) ∨ LengthsKept c s.table cmds := by
  have hs := chained_run hrun
  have hsame : Rel SameButLengths ((kvStores recordSmall c a).run s cmds) ((kvStores recordNever c a).run s cmds) :=
    Machine.run_simulates (fun cmd _ s s' h => h.storeStep _ _ cmd) (.refl s)
  rw [kvBatched_run, kvMachine_run s hcmds]
  cases h₁ : (kvStores recordSmall c a).run s cmds with
  | error f =>
    rw [h₁] at hsame
    exact iff_of_true hsame.of_error (.inl ⟨f, rfl⟩)
  | ok s₁ =>
    rw [h₁] at hsame
    obtain ⟨s₂, h₂, hsame⟩ := hsame.of_ok
    rw [h₂, Except.ok.injEq, same_iff_kept hs hcmds h₁ h₂ hsame]
    simp

/-- Four bytes are stored under two keys, and again under the first one. -/
def evenStores : List KvCommand := [onKey .store 0, onKey .store 2, onKey .store 0]

theorem batched_stores_agree_evenStores :
    (kvBatched twoSlots appendOnly).run (kvInitNamespace appendOnly fun _ => 0) evenStores =
      (kvMachine twoSlots appendOnly).run (kvInitNamespace appendOnly fun _ => 0) evenStores := by
  have hrun : (kvNamespace twoSlots appendOnly).run (kvInitNamespace appendOnly fun _ => 0) [] = .ok _ := rfl
  have hlength : ∀ cmd ∈ evenStores, cmd.valueLength = 4 := by decide
  have hcmds : ∀ cmd ∈ evenStores, IsStore 16 cmd := by
    intro cmd hcmd
    have hall : ∀ cmd ∈ evenStores, cmd.opcode = .store ∧ cmd.keyLength = 16 := by decide
    obtain ⟨hop, hkey⟩ := hall cmd hcmd
    exact ⟨hop, hkey, le_rfl, (hlength cmd hcmd).trans_le (by decide)⟩
  refine (batched_stores_agree_iff hrun hcmds).2 (.inr fun key last hlast => ?_)
  have hfind : findMapping twoSlots (fun _ => .init) key = .ok none := rfl
  have hlast' := hlength last (List.mem_of_mem_filter (List.mem_of_getLast? hlast))
  rw [show (kvInitNamespace appendOnly fun _ => 0).table = fun _ => .init from rfl, hfind]
  exact fun first hfirst => hlast'.trans (hlength first (List.mem_of_mem_filter (List.mem_of_head? hfirst))).symm

/-- Four bytes are stored, and then eight under the same key. -/
def growingStores : List KvCommand := [onKey .store 0, { onKey .store 0 with valueLen := 2 }]

/-- How many bytes a retrieve of up to eight bytes returns. -/
def retrieved (s : KvFtl ℕ) : Except KvFault ℕ :=
  (doPerformKvIo twoSlots appendOnly s { onKey .retrieve 0 with valueLen := 2 }).map fun r => r.1.result

/-- The batch returns half of the value that it stored. -/
theorem batched_stores_growingStores :
    ((kvBatched twoSlots appendOnly).run (kvInitNamespace appendOnly fun _ => 0) growingStores >>=
      retrieved) = .ok 4 ∧
      ((kvMachine twoSlots appendOnly).run (kvInitNamespace appendOnly fun _ => 0) growingStores >>= retrieved) =
        .ok 8 ∧
      (kvBatched twoSlots appendOnly).run (kvInitNamespace appendOnly fun _ => 0) growingStores ≠
        (kvMachine twoSlots appendOnly).run (kvInitNamespace appendOnly fun _ => 0) growingStores := by
  have hbatched : ((kvBatched twoSlots appendOnly).run (kvInitNamespace appendOnly fun _ => 0) growingStores >>=
      retrieved) = .ok 4 := by decide +kernel
  have hsingle : ((kvMachine twoSlots appendOnly).run (kvInitNamespace appendOnly fun _ => 0) growingStores >>=
      retrieved) = .ok 8 := by decide +kernel
  refine ⟨hbatched, hsingle, fun heq => ?_⟩
  rw [heq, hsingle] at hbatched
  exact absurd hbatched (by decide)

end WaitGc

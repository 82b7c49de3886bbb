/-
  WAITGC verification — the values of a key-value namespace.

  A store of a key that is there writes at the offset of its entry, also if the
  value is longer than the one the offset was allocated for.  What the append-only
  allocator reserved for a key is as long as the first value stored under it; the
  invariant is that the values lie in what was reserved, that the reserved extents
  are apart, and that they end where the allocator goes on (`KvReserved`).
  `kv_values`: with keys of one length and small values every key has the length
  and the bytes of its latest store, in every run that stores no value longer than
  the first one of its key.
-/
import WaitGc.Lib.Extent
import WaitGc.Theorems.KvMap

namespace WaitGc

open Outcome Function Chain

variable {σ : Type} {c : KvCfg} {a : KvAllocator σ} {x x' : KvLogged σ} {kv : KvFtl σ} {key : KvKey}
  {cmd : KvCommand} {cmds pre post : List KvCommand} {storage : ℕ → ℕ} {L j offset i : ℕ}

/-- A retrieve of a stored key returns the length and the bytes of its latest store, if the
    host's buffer has the space. -/
def ValuesCorrect (c : KvCfg) (a : KvAllocator σ) (L : ℕ) (x : KvLogged σ) : Prop :=
  ∀ key length data, key.bytes.length = L → x.value key = some (length, data) →
    ∀ cmd, cmd.opcode = .retrieve → cmd.kvKey = .ok key → length ≤ cmd.valueLength →
      ∃ r, doPerformKvIo c a x.kv cmd = .ok (r, x.kv) ∧ r.status = 0 ∧ r.result = length ∧
        ∀ i < length, r.read i = data i

/-- Where a store writes: at the offset of the key's entry, or at a new one. -/
def storeOffset (c : KvCfg) (a : KvAllocator σ) (s : KvFtl σ) (cmd : KvCommand) : ℕ :=
  match cmd.kvKey with
  | .ok key => match findMapping c s.table key with
    | .ok (some j) => (s.table j).memOffset
    | _ => (allocateMemOffset a s.alloc cmd.valueLength).1
  | .error _ => 0

/-- The store of `key` writes no byte of the value of another key. -/
def StoresApart (c : KvCfg) (a : KvAllocator σ) (x : KvLogged σ) (cmd : KvCommand) (key : KvKey) : Prop :=
  ∀ j k, x.owner j = some k → k ≠ key → ∀ i < cmd.valueLength,
    ¬ ((x.kv.table j).memOffset ≤ storeOffset c a x.kv cmd + i ∧
      storeOffset c a x.kv cmd + i < (x.kv.table j).memOffset + (x.kv.table j).length)

/-! ## What a store writes -/

theorem KvCommand.valueLength_lt (cmd : KvCommand) : cmd.valueLength < 2 ^ 32 := (cmd.valueLen <<< 2).isLt

theorem storeValue_in (hle : offset + cmd.valueLength ≤ c.storageSize) (hi : i < cmd.valueLength) :
    storeValue storage cmd offset (offset + i) = cmd.value.data cmd.valueLength i := by
  have hsize := c.storageSize_lt
  have hlt := cmd.valueLength_lt
  have hsub : sub64 (offset + i) offset = i := by unfold sub64 u64; omega
  unfold storeValue
  rw [HostData.performWrite_apply _ _ _ _ _ _ _ le_rfl hlt.le (by omega), hsub, if_pos ⟨by omega, hi⟩]
  rfl

theorem storeValue_out (hle : offset + cmd.valueLength ≤ c.storageSize) {p : ℕ}
    (hp : ∀ i < cmd.valueLength, p ≠ offset + i) : storeValue storage cmd offset p = storage p := by
  have hsize := c.storageSize_lt
  have hlt := cmd.valueLength_lt
  unfold storeValue
  rw [HostData.performWrite_apply _ _ _ _ _ _ _ le_rfl hlt.le (by omega), if_neg]
  rintro ⟨hp64, hsub⟩
  refine hp _ hsub ?_
  unfold sub64 u64 at hsub ⊢
  omega

/-! ## The invariant -/

/-- The entry holds the value: its length, and its bytes at the entry's offset. -/
structure HoldsValue (c : KvCfg) (storage : ℕ → ℕ) (e : MappingEntry) (length : ℕ) (data : ℕ → ℕ) : Prop where
  length_eq : e.length = length
  small : length ≤ SMALL_LENGTH
  inside : e.memOffset + length ≤ c.storageSize
  bytes : ∀ i < length, storage (e.memOffset + i) = data i

/-- Every key that is there has the value of its latest store. -/
structure ValInv (c : KvCfg) (L : ℕ) (x : KvLogged σ) : Prop where
  index : KvInv c L x
  owned : ∀ key v, key.bytes.length = L → x.value key = some v → ∃ j, x.owner j = some key
  holds : ∀ j key, x.owner j = some key → ∃ v, x.value key = some v ∧
    HoldsValue c x.kv.storage (x.kv.table j) v.1 v.2

/-- **A retrieve returns the latest value.** -/
theorem ValInv.correct (h : ValInv c L x) : ValuesCorrect c a L x := by
  intro key length data hkey hvalue cmd hop hcmd hlen
  obtain ⟨j, hj⟩ := h.owned key _ hkey hvalue
  obtain ⟨v, hv, hholds⟩ := h.holds j key hj
  obtain rfl : (length, data) = v := Option.some.inj (hvalue.symm.trans hv)
  have hfind := h.index.find_of_owner hj
  have hused : (foundEntry x.kv.table key (some j)).used = true := foundEntry_used hfind
  have hmin : min (x.kv.table j).length cmd.valueLength = length := by
    rw [hholds.length_eq]
    exact Nat.min_eq_left hlen
  refine ⟨⟨0, length, cmd.value.performRead x.kv.storage length 0 (x.kv.table j).memOffset length⟩, ?_, rfl, rfl, ?_⟩
  · unfold doPerformKvIo
    rw [hcmd, ok_bind, getMappingEntry_eq hfind, ok_bind, hop]
    dsimp only
    rw [if_pos hused]
    simp only [foundEntry, hmin, readValue, require_pos hholds.inside, ok_bind]
    rfl
  · intro i hi
    have hsize := c.storageSize_lt
    have hinside := hholds.inside
    dsimp only at hinside ⊢
    rw [HostData.performRead_apply _ _ _ _ _ _ _ le_rfl hi, u64, Nat.mod_eq_of_lt (by omega)]
    exact hholds.bytes i hi

/-- The value of an entry is kept if no byte of it is written. -/
theorem HoldsValue.keep {e : MappingEntry} {length : ℕ} {data : ℕ → ℕ} (h : HoldsValue c storage e length data)
    (hle : offset + cmd.valueLength ≤ c.storageSize)
    (hapart : ∀ i < cmd.valueLength, ¬ (e.memOffset ≤ offset + i ∧ offset + i < e.memOffset + e.length)) :
    HoldsValue c (storeValue storage cmd offset) e length data := by
  refine ⟨h.length_eq, h.small, h.inside, fun i hi => ?_⟩
  rw [storeValue_out hle, h.bytes i hi]
  intro k hk heq
  refine hapart k hk ⟨by omega, ?_⟩
  rw [h.length_eq]
  omega

theorem holdsValue_store {e : MappingEntry} (hlength : e.length = cmd.valueLength)
    (hsmall : cmd.valueLength ≤ SMALL_LENGTH) (hle : e.memOffset + cmd.valueLength ≤ c.storageSize) :
    HoldsValue c (storeValue storage cmd e.memOffset) e cmd.valueLength (cmd.value.data cmd.valueLength) :=
  ⟨hlength, hsmall, hle, fun _ hi => storeValue_in hle hi⟩

theorem HoldsValue.congr {e e' : MappingEntry} {length : ℕ} {data : ℕ → ℕ}
    (h : HoldsValue c storage e length data) (hlength : e'.length = e.length)
    (hoffset : e'.memOffset = e.memOffset) : HoldsValue c storage e' length data := by
  refine ⟨hlength.trans h.length_eq, h.small, ?_, ?_⟩
  · rw [hoffset]
    exact h.inside
  · rw [hoffset]
    exact h.bytes

theorem record_value (hop : cmd.opcode = .store) : (x.record cmd key kv).value =
    update x.value key (some (cmd.valueLength, cmd.value.data cmd.valueLength)) := by
  simp only [KvLogged.record, hop]

/-- What a store of a small value did: slot `j` is that of the key, and the value is at its
    offset.  The offset is new if the key was not there. -/
structure StoredAt (c : KvCfg) (a : KvAllocator σ) (x : KvLogged σ) (cmd : KvCommand) (key : KvKey)
    (kv : KvFtl σ) (j : ℕ) : Prop where
  owner_eq : (x.record cmd key kv).owner = update x.owner j (some key)
  length_eq : (kv.table j).length = cmd.valueLength
  offset_eq : (kv.table j).memOffset = storeOffset c a x.kv cmd
  others : ∀ i, i ≠ j → (kv.table i).length = (x.kv.table i).length ∧
    (kv.table i).memOffset = (x.kv.table i).memOffset
  fits : storeOffset c a x.kv cmd + cmd.valueLength ≤ c.storageSize
  storage_eq : kv.storage = storeValue x.kv.storage cmd (storeOffset c a x.kv cmd)
  place : (x.owner j = some key ∧ storeOffset c a x.kv cmd = (x.kv.table j).memOffset ∧ kv.alloc = x.kv.alloc) ∨
    (x.owner j = none ∧ (∀ i, x.owner i ≠ some key) ∧
      (storeOffset c a x.kv cmd, kv.alloc) = allocateMemOffset a x.kv.alloc cmd.valueLength)

theorem storeOffset_update (hcmd : cmd.kvKey = .ok key) (hfind : findMapping c x.kv.table key = .ok (some j)) :
    storeOffset c a x.kv cmd = (x.kv.table j).memOffset := by
  rw [storeOffset, hcmd]
  dsimp only
  rw [hfind]

theorem storeOffset_insert (hcmd : cmd.kvKey = .ok key) (hfind : findMapping c x.kv.table key = .ok none) :
    storeOffset c a x.kv cmd = (allocateMemOffset a x.kv.alloc cmd.valueLength).1 := by
  rw [storeOffset, hcmd]
  dsimp only
  rw [hfind]

/-- **A store of a small value.** -/
theorem ValInv.storedAt (h : ValInv c L x) (hlen : cmd.keyLength = L) (hop : cmd.opcode = .store)
    (hsmall : cmd.valueLength ≤ SMALL_LENGTH) (hstep : (kvLogged c a).step x cmd = .ok x') :
    ∃ key kv j, cmd.kvKey = .ok key ∧ x' = x.record cmd key kv ∧ StoredAt c a x cmd key kv j := by
  obtain ⟨key, kv, hcmd, hkv, rfl⟩ := kvLogged_step hstep
  have hkey := (kvKey_length hcmd).trans hlen
  cases hkv with
  | insert table _ hfind hle hnew =>
    obtain ⟨z, hn⟩ := h.index.indexed.chained.newMapping hnew
    have hoffset := storeOffset_insert (a := a) hcmd hfind
    have hentry : (table z).length = cmd.valueLength ∧
        (table z).memOffset = (allocateMemOffset a x.kv.alloc cmd.valueLength).1 := by
      rw [hn.entry]
      exact ⟨rfl, rfl⟩
    have hz : x.owner z = none := by
      rw [KvLogged.owner, born_of_not_used h.index.indexed hn.grows.fresh]
      rfl
    refine ⟨key, _, z, hcmd, rfl, ?_, hentry.1, hentry.2.trans hoffset.symm, ?_, ?_, ?_, .inr ⟨hz, ?_, ?_⟩⟩
    · exact owner_update (record_born_insert h.index.indexed hn.grows.used_iff hn.grows.fresh)
    · intro i hi
      dsimp only
      rw [hn.others i hi]
      exact ⟨rfl, rfl⟩
    · rw [hoffset]
      exact hle
    · rw [hoffset]
    · exact h.index.indexed.find_none hfind
    · rw [hoffset]
  | update j _ hfind hle =>
    have hj := h.index.find_some hkey hfind
    have hoffset := storeOffset_update (a := a) hcmd hfind
    obtain ⟨v, -, hholds⟩ := h.holds j key hj
    have hlength : updatedLength (x.kv.table j) cmd = cmd.valueLength :=
      updatedLength_small hsmall (by rw [hholds.length_eq]; exact hholds.small)
    refine ⟨key, _, j, hcmd, rfl, ?_, ?_, ?_, ?_, ?_, ?_, .inl ⟨hj, hoffset, rfl⟩⟩
    · rw [← hj, update_eq_self]
      funext i
      rw [KvLogged.owner, record_born_same h.index.indexed (setLength_used x.kv.table j _)]
      rfl
    · dsimp only
      rw [update_self]
      exact hlength
    · dsimp only
      rw [update_self, hoffset]
    · intro i hi
      dsimp only
      rw [update_of_ne hi]
      exact ⟨rfl, rfl⟩
    · rw [hoffset]
      exact hle
    · rw [hoffset]
  | delete d hdel hfind =>
    rw [hop] at hdel
    cases hdel
  | same hnot hfind => exact absurd hop hnot

theorem StoredAt.key_of_owner (h : StoredAt c a x cmd key kv j) {k : KvKey} (hk : x.owner j = some k) : k = key := by
  rcases h.place with ⟨hj, -, -⟩ | ⟨hj, -, -⟩
  · exact Option.some.inj (hk.symm.trans hj)
  · rw [hj] at hk
    cases hk

/-- **A store of a small value keeps the invariant**, if it writes into no other value. -/
theorem ValInv.step (h : ValInv c L x) (hindex : KvInv c L (x.record cmd key kv)) (hop : cmd.opcode = .store)
    (hsmall : cmd.valueLength ≤ SMALL_LENGTH) (hs : StoredAt c a x cmd key kv j)
    (hapart : StoresApart c a x cmd key) : ValInv c L (x.record cmd key kv) := by
  have hj : (x.record cmd key kv).owner j = some key := by rw [hs.owner_eq, update_self]
  constructor
  · exact hindex
  · intro k v hk hv
    by_cases hkk : k = key
    · subst hkk
      exact ⟨j, hj⟩
    · rw [record_value hop, update_of_ne hkk] at hv
      obtain ⟨i, hi⟩ := h.owned k v hk hv
      have hij : i ≠ j := fun heq => hkk (hs.key_of_owner (heq ▸ hi))
      exact ⟨i, by rw [hs.owner_eq, update_of_ne hij, hi]⟩
  · intro i k hi
    rw [record_value hop]
    by_cases hij : i = j
    · obtain rfl : k = key := by
        rw [hij, hj] at hi
        exact (Option.some.inj hi).symm
      refine ⟨_, update_self _ _ _, ?_⟩
      show HoldsValue c kv.storage (kv.table i) _ _
      rw [hij, hs.storage_eq, ← hs.offset_eq]
      exact holdsValue_store hs.length_eq hsmall (by rw [hs.offset_eq]; exact hs.fits)
    · have hkk : k ≠ key := fun heq => hij (hindex.indexed.unique i j key (heq ▸ hi) hj)
      rw [hs.owner_eq, update_of_ne hij] at hi
      obtain ⟨v, hv, hholds⟩ := h.holds i k hi
      refine ⟨v, by rw [update_of_ne hkk, hv], ?_⟩
      show HoldsValue c kv.storage (kv.table i) _ _
      rw [hs.storage_eq]
      exact (hholds.keep hs.fits (hapart i k hi hkk)).congr (hs.others i hij).1 (hs.others i hij).2

theorem valInv_init (storage : ℕ → ℕ) : ValInv c L (kvLoggedInit a storage) where
  index := kvInv_init storage
  owned _ _ _ h := nomatch h
  holds _ _ h := nomatch h

/-! ## What is reserved -/

/-- The length of the first store of the key that `cmds` has. -/
def firstLength (cmds : List KvCommand) (key : Except KvFault KvKey) : ℕ :=
  ((cmds.find? fun cmd => cmd.kvKey = key).map KvCommand.valueLength).getD 0

/-- No value is longer than the first one of its key. -/
def NeverGrows (cmds : List KvCommand) : Prop :=
  ∀ cmd ∈ cmds, cmd.valueLength ≤ firstLength cmds cmd.kvKey

instance (cmds : List KvCommand) : Decidable (NeverGrows cmds) :=
  inferInstanceAs (Decidable (∀ cmd ∈ cmds, _))

theorem firstLength_append {k : Except KvFault KvKey} (h : ∃ cmd ∈ pre, cmd.kvKey = k) :
    firstLength (pre ++ post) k = firstLength pre k := by
  have hsome : (pre.find? fun cmd => cmd.kvKey = k).isSome := by simpa using h
  rw [firstLength, List.find?_append, Option.or_of_isSome hsome, firstLength]

theorem firstLength_new (h : ∀ cmd' ∈ pre, cmd'.kvKey ≠ cmd.kvKey) :
    firstLength (pre ++ cmd :: post) cmd.kvKey = cmd.valueLength := by
  have hnone : (pre.find? fun cmd' => cmd'.kvKey = cmd.kvKey) = none := by simpa using h
  rw [firstLength, List.find?_append, hnone, Option.none_or, List.find?_cons_of_pos (by simp)]
  rfl

/-- What slot `j` of `key` has reserved after the commands `pre`. -/
def reservedExtent (pre : List KvCommand) (t : KvTable) (j : ℕ) (key : KvKey) : Extent :=
  ⟨(t j).memOffset, firstLength pre (.ok key)⟩

/-- After the commands `pre` every value lies in what was reserved for its key, up to where
    the allocator goes on. -/
structure KvReserved (c : KvCfg) (L : ℕ) (pre : List KvCommand) (x : KvLogged ℕ) : Prop where
  values : ValInv c L x
  seen : ∀ key, (∃ j, x.owner j = some key) ↔ ∃ cmd ∈ pre, cmd.kvKey = .ok key
  within : ∀ j key, x.owner j = some key → (x.kv.table j).length ≤ firstLength pre (.ok key) ∧
    (reservedExtent pre x.kv.table j key).stop ≤ x.kv.alloc
  apart : ∀ i j k key, i ≠ j → x.owner i = some k → x.owner j = some key →
    (reservedExtent pre x.kv.table i k).Apart (reservedExtent pre x.kv.table j key)
  latest_le : x.kv.alloc ≤ c.storageSize
  words : 4 ∣ x.kv.alloc

theorem KvCommand.dvd_valueLength (cmd : KvCommand) : 4 ∣ cmd.valueLength := by
  rw [valueLength, BitVec.toNat_shiftLeft, Nat.shiftLeft_eq]
  omega

/-- The append-only allocator hands out what comes next: values are words, so it does not
    come to the offset -1. -/
theorem allocateMemOffset_appendOnly {latest : ℕ} (hwords : 4 ∣ latest) (length : ℕ) :
    allocateMemOffset appendOnly latest length = (latest, u64 (latest + length)) := by
  have hne : latest ≠ NO_OFFSET := by
    rintro rfl
    exact absurd hwords (by decide)
  show ((if latest = NO_OFFSET then 0 else latest), u64 (latest + length)) = _
  rw [if_neg hne]

namespace KvReserved
variable {x x' : KvLogged ℕ} {kv : KvFtl ℕ}

/-- Where the value goes: to what is reserved for its key, or behind everything. -/
theorem place (h : KvReserved c L pre x)
    (hfirst : cmd.valueLength ≤ firstLength (pre ++ cmd :: post) (.ok key))
    (hs : StoredAt c appendOnly x cmd key kv j) :
    (x.owner j = some key ∧ storeOffset c appendOnly x.kv cmd = (x.kv.table j).memOffset ∧
      cmd.valueLength ≤ firstLength pre (.ok key) ∧ kv.alloc = x.kv.alloc) ∨
    ((∀ cmd ∈ pre, cmd.kvKey ≠ .ok key) ∧
      storeOffset c appendOnly x.kv cmd = x.kv.alloc ∧ kv.alloc = x.kv.alloc + cmd.valueLength) := by
  rcases hs.place with ⟨hj, hoffset, halloc⟩ | ⟨-, hnone, heq⟩
  · rw [firstLength_append ((h.seen key).1 ⟨j, hj⟩)] at hfirst
    exact .inl ⟨hj, hoffset, hfirst, halloc⟩
  · have hnew (cmd : KvCommand) (hmem : cmd ∈ pre) : cmd.kvKey ≠ .ok key := by
      intro hk
      obtain ⟨i, hi⟩ := (h.seen key).2 ⟨cmd, hmem, hk⟩
      exact hnone i hi
    have hsize := c.storageSize_lt
    have hfits := hs.fits
    rw [allocateMemOffset_appendOnly h.words, Prod.mk.injEq] at heq
    rw [heq.1] at hfits
    refine .inr ⟨hnew, heq.1, heq.2.trans ?_⟩
    rw [u64, Nat.mod_eq_of_lt (by omega)]

/-- **No store writes into the value of another key.** -/
theorem storesApart (h : KvReserved c L pre x)
    (hfirst : cmd.valueLength ≤ firstLength (pre ++ cmd :: post) (.ok key))
    (hs : StoredAt c appendOnly x cmd key kv j) : StoresApart c appendOnly x cmd key := by
  intro i k hi hk n hn hin
  obtain ⟨hlength, hstop⟩ := h.within i k hi
  simp only [reservedExtent, Extent.stop] at hstop
  rcases h.place hfirst hs with ⟨hj, hoffset, hle, -⟩ | ⟨-, hoffset, -⟩
  · have hij : i ≠ j := by
      rintro rfl
      exact hk (Option.some.inj (hi.symm.trans hj))
    have happ := h.apart i j k key hij hi hj
    simp only [Extent.Apart, Extent.stop, reservedExtent] at happ
    omega
  · omega

theorem reserved_eq (h : KvReserved c L pre x) (hs : StoredAt c appendOnly x cmd key kv j) {k : KvKey}
    (hi : x.owner i = some k) (hmem : i = j → storeOffset c appendOnly x.kv cmd = (x.kv.table j).memOffset) :
    reservedExtent (pre ++ [cmd]) kv.table i k = reservedExtent pre x.kv.table i k := by
  have hoffset : (kv.table i).memOffset = (x.kv.table i).memOffset := by
    by_cases hij : i = j
    · rw [hij, hs.offset_eq, hmem hij]
    · exact (hs.others i hij).2
  rw [reservedExtent, reservedExtent, hoffset, firstLength_append ((h.seen k).1 ⟨i, hi⟩)]

theorem seen_step (h : KvReserved c L pre x) (hcmd : cmd.kvKey = .ok key)
    (hs : StoredAt c appendOnly x cmd key kv j) (k : KvKey) :
    (∃ i, (x.record cmd key kv).owner i = some k) ↔ ∃ cmd' ∈ pre ++ [cmd], cmd'.kvKey = .ok k := by
  simp only [List.mem_append, List.mem_singleton, or_and_right, exists_or, exists_eq_left, ← h.seen k, hcmd,
    Except.ok.injEq, hs.owner_eq]
  constructor
  · rintro ⟨i, hi⟩
    by_cases hij : i = j
    · rw [hij, update_self] at hi
      exact .inr (Option.some.inj hi)
    · rw [update_of_ne hij] at hi
      exact .inl ⟨i, hi⟩
  · rintro (⟨i, hi⟩ | rfl)
    · by_cases hij : i = j
      · rw [hij] at hi
        exact ⟨j, by rw [update_self, hs.key_of_owner hi]⟩
      · exact ⟨i, by rw [update_of_ne hij, hi]⟩
    · exact ⟨j, update_self _ _ _⟩

/-- The key keeps its slot and what is reserved for it. -/
theorem update (h : KvReserved c L pre x) (hcmd : cmd.kvKey = .ok key)
    (hs : StoredAt c appendOnly x cmd key kv j) (hvalues : ValInv c L (x.record cmd key kv))
    (hj : x.owner j = some key) (hoffset : storeOffset c appendOnly x.kv cmd = (x.kv.table j).memOffset)
    (hle : cmd.valueLength ≤ firstLength pre (.ok key)) (halloc : kv.alloc = x.kv.alloc) :
    KvReserved c L (pre ++ [cmd]) (x.record cmd key kv) := by
  have howner : (x.record cmd key kv).owner = x.owner := by rw [hs.owner_eq, ← hj, update_eq_self]
  have hres {i : ℕ} {k : KvKey} (hi : x.owner i = some k) := h.reserved_eq hs hi fun _ => hoffset
  refine ⟨hvalues, h.seen_step hcmd hs, ?_, ?_, ?_, ?_⟩
  · intro i k hi
    rw [howner] at hi
    obtain ⟨hlength, hstop⟩ := h.within i k hi
    show (kv.table i).length ≤ _ ∧ (reservedExtent _ kv.table i k).stop ≤ kv.alloc
    rw [hres hi, halloc, firstLength_append ((h.seen k).1 ⟨i, hi⟩)]
    refine ⟨?_, hstop⟩
    by_cases hij : i = j
    · obtain rfl : k = key := hs.key_of_owner (hij ▸ hi)
      rw [hij, hs.length_eq]
      exact hle
    · rw [(hs.others i hij).1]
      exact hlength
  · intro i i' k k' hne hi hi'
    rw [howner] at hi hi'
    show (reservedExtent _ kv.table i k).Apart (reservedExtent _ kv.table i' k')
    rw [hres hi, hres hi']
    exact h.apart i i' k k' hne hi hi'
  · show kv.alloc ≤ _
    exact halloc ▸ h.latest_le
  · show 4 ∣ kv.alloc
    exact halloc ▸ h.words

/-- A new extent begins where the others end. -/
theorem insert (h : KvReserved c L pre x) (hcmd : cmd.kvKey = .ok key)
    (hs : StoredAt c appendOnly x cmd key kv j) (hvalues : ValInv c L (x.record cmd key kv))
    (hnew : ∀ cmd' ∈ pre, cmd'.kvKey ≠ .ok key) (hoffset : storeOffset c appendOnly x.kv cmd = x.kv.alloc)
    (halloc : kv.alloc = x.kv.alloc + cmd.valueLength) :
    KvReserved c L (pre ++ [cmd]) (x.record cmd key kv) := by
  have hfits := hs.fits
  rw [hoffset] at hfits
  have hother {i : ℕ} {k : KvKey} (hij : i ≠ j) (hi : (x.record cmd key kv).owner i = some k) :
      x.owner i = some k := by rwa [hs.owner_eq, update_of_ne hij] at hi
  have hres {i : ℕ} {k : KvKey} (hij : i ≠ j) (hi : (x.record cmd key kv).owner i = some k) :=
    h.reserved_eq hs (hother hij hi) fun heq => absurd heq hij
  have hkey {k : KvKey} (hk : (x.record cmd key kv).owner j = some k) : k = key := by
    rw [hs.owner_eq, update_self] at hk
    exact (Option.some.inj hk).symm
  have hresj : reservedExtent (pre ++ [cmd]) kv.table j key = ⟨x.kv.alloc, cmd.valueLength⟩ := by
    rw [reservedExtent, hs.offset_eq, hoffset, ← hcmd, firstLength_new fun cmd' hcmd' => hcmd ▸ hnew cmd' hcmd']
  refine ⟨hvalues, h.seen_step hcmd hs, ?_, ?_, ?_, ?_⟩
  · intro i k hi
    show (kv.table i).length ≤ _ ∧ (reservedExtent _ kv.table i k).stop ≤ kv.alloc
    by_cases hij : i = j
    · subst hij
      obtain rfl := hkey hi
      rw [hresj, hs.length_eq, halloc]
      refine ⟨?_, le_rfl⟩
      rw [← hcmd, firstLength_new fun cmd' hcmd' => hcmd ▸ hnew cmd' hcmd']
    · obtain ⟨hlength, hstop⟩ := h.within i k (hother hij hi)
      rw [hres hij hi, halloc, firstLength_append ((h.seen k).1 ⟨i, hother hij hi⟩), (hs.others i hij).1]
      exact ⟨hlength, hstop.trans (Nat.le_add_right _ _)⟩
  · intro i i' k k' hne hi hi'
    show (reservedExtent _ kv.table i k).Apart (reservedExtent _ kv.table i' k')
    by_cases hij : i = j
    · subst hij
      obtain rfl := hkey hi
      rw [hresj, hres (Ne.symm hne) hi']
      exact .inr (h.within i' k' (hother (Ne.symm hne) hi')).2
    · rw [hres hij hi]
      by_cases hij' : i' = j
      · subst hij'
        obtain rfl := hkey hi'
        rw [hresj]
        exact .inl (h.within i k (hother hij hi)).2
      · rw [hres hij' hi']
        exact h.apart i i' k k' hne (hother hij hi) (hother hij' hi')
  · show kv.alloc ≤ _
    omega
  · show 4 ∣ kv.alloc
    exact halloc ▸ Nat.dvd_add h.words cmd.dvd_valueLength

/-- **Step.** -/
theorem step (h : KvReserved c L pre x) (hlen : cmd.keyLength = L) (hop : cmd.opcode = .store)
    (hsmall : cmd.valueLength ≤ SMALL_LENGTH)
    (hfirst : cmd.valueLength ≤ firstLength (pre ++ cmd :: post) cmd.kvKey)
    (hstep : (kvLogged c appendOnly).step x cmd = .ok x') : KvReserved c L (pre ++ [cmd]) x' := by
  have hloose : DeletesLoose c x cmd := fun hdel => by rw [hop] at hdel; cases hdel
  have hindex := h.values.index.step hlen hloose hstep
  obtain ⟨key, kv, j, hcmd, rfl, hs⟩ := h.values.storedAt hlen hop hsmall hstep
  rw [hcmd] at hfirst
  have hvalues := h.values.step hindex hop hsmall hs (h.storesApart hfirst hs)
  rcases h.place hfirst hs with ⟨hj, hoffset, hle, halloc⟩ | ⟨hnew, hoffset, halloc⟩
  · exact h.update hcmd hs hvalues hj hoffset hle halloc
  · exact h.insert hcmd hs hvalues hnew hoffset halloc

theorem init (storage : ℕ → ℕ) : KvReserved c L [] (kvLoggedInit appendOnly storage) where
  values := valInv_init storage
  seen key := iff_of_false (fun ⟨_, h⟩ => nomatch h) (by simp)
  within _ _ h := nomatch h
  apart _ _ _ _ _ h := nomatch h
  latest_le := Nat.zero_le _
  words := Nat.dvd_zero 4

end KvReserved

/-- **Every key has its latest value** after every run of stores of small values under
    keys of one length, if no value is longer than the first one of its key. -/
theorem kv_values {x : KvLogged ℕ} (hstores : ∀ cmd ∈ cmds, cmd.keyLength = L ∧ cmd.opcode = .store ∧
      cmd.valueLength ≤ SMALL_LENGTH)
    (hgrow : NeverGrows cmds)
    (hrun : (kvLogged c appendOnly).run (kvLoggedInit appendOnly storage) cmds = .ok x) :
    ValuesCorrect c appendOnly L x := by
  have hsat : Sat (fun _ => True) (KvReserved c L cmds)
      ((kvLogged c appendOnly).run (kvLoggedInit appendOnly storage) cmds) := by
    refine sat_foldlM (KvReserved c L) cmds ?_ (KvReserved.init storage)
    intro pre cmd post x hcmds h
    have hmem : cmd ∈ cmds := hcmds ▸ List.mem_append_right _ List.mem_cons_self
    obtain ⟨hlen, hop, hsmall⟩ := hstores cmd hmem
    have hfirst := hgrow cmd hmem
    rw [hcmds] at hfirst
    cases hstep : (kvLogged c appendOnly).step x cmd with
    | ok x' => exact h.step hlen hop hsmall hfirst hstep
    | error f => trivial
  exact (hsat.of_ok hrun).values.correct

/-- A store of `words` words of the byte `v` under the key that starts with `b`. -/
def storeOf (b : BitVec 8) (words : BitVec 32) (v : ℕ) : KvCommand :=
  ⟨.store, 15, keyOf b, words, ⟨fun n => 4096 * n, fun _ => v⟩⟩

/-- Two keys are stored, and the first one gets a shorter value. -/
def shrinkFirst : List KvCommand := [storeOf 0 2 5, storeOf 2 1 6, storeOf 0 1 7]

theorem kv_values_shrinkFirst :
    ∃ x, (kvLogged twoSlots appendOnly).run (kvLoggedInit appendOnly fun _ => 0) shrinkFirst = .ok x ∧
      ValuesCorrect twoSlots appendOnly 16 x := by
  have hmap : ((kvLogged twoSlots appendOnly).run (kvLoggedInit appendOnly fun _ => 0) shrinkFirst).map
      (fun x => x.inserted secondKey) = .ok (some 1) := by decide +kernel
  obtain ⟨x, hrun, -⟩ := exists_ok_of_map hmap
  exact ⟨x, hrun, kv_values (by decide) (by decide) hrun⟩

/-- Two keys are stored, and the first one gets a longer value. -/
def growFirst : List KvCommand := [storeOf 0 1 5, storeOf 2 1 6, storeOf 0 2 7]

/-- The second key was stored with sixes and is read as sevens. -/
theorem kv_values_growFirst :
    ∃ x, (kvLogged twoSlots appendOnly).run (kvLoggedInit appendOnly fun _ => 0) growFirst = .ok x ∧
      ¬ ValuesCorrect twoSlots appendOnly 16 x := by
  have hmap : ((kvLogged twoSlots appendOnly).run (kvLoggedInit appendOnly fun _ => 0) growFirst).map
      (fun x => ((x.value secondKey).map fun v => (v.1, v.2 0),
        (doPerformKvIo twoSlots appendOnly x.kv (onKey .retrieve 2)).map fun r => r.1.read 0)) =
        .ok (some (4, 6), .ok 7) := by decide +kernel
  obtain ⟨x, hrun, hx⟩ := exists_ok_of_map hmap
  rw [Prod.mk.injEq] at hx
  refine ⟨x, hrun, fun h => ?_⟩
  obtain ⟨⟨length, data⟩, hvalue, hv⟩ := Option.map_eq_some_iff.1 hx.1
  obtain ⟨rfl, hdata⟩ := Prod.mk.inj hv
  obtain ⟨r, hr, -, -, hread⟩ := h secondKey _ data (by decide) hvalue (onKey .retrieve 2) rfl (by decide) (by decide)
  rw [hr] at hx
  have hseven : r.read 0 = 7 := Except.ok.inj hx.2
  have hsix : r.read 0 = 6 := (hread 0 (by decide)).trans hdata
  rw [hseven] at hsix
  cases hsix

end WaitGc

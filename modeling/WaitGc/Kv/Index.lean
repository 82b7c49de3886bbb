/-
  WAITGC verification — the index of a key-value namespace (`kv_ftl.h`, `kv_ftl.c`).

  The mapping table is an array of slots.  A key hashes to a slot; an entry that
  finds it used goes to the next free slot after the last entry of the chain
  that starts there, and is linked to it.  The chains of different slots merge.

  The loops follow links or search the array; a loop that does not stop within
  as many turns as there are slots does not stop at all.
-/
import WaitGc.Basic
import WaitGc.Lib.Outcome
import Mathlib.Logic.Function.Basic

namespace WaitGc

open Outcome Function

/-! ## Keys and entries -/

/-- A slot of -1. -/
def NO_SLOT : ℕ := 2 ^ 32 - 1

/-- A `size_t` of -1. -/
def NO_OFFSET : ℕ := 2 ^ 64 - 1

/-- `char key[18]` -/
def KEY_SIZE : ℕ := 18

/-- A key: `char *key` and its length.  A longer one does not fit into an entry. -/
structure KvKey where
  bytes : List (BitVec 8)
  nonempty : bytes ≠ []
  length_le : bytes.length ≤ KEY_SIZE
  deriving DecidableEq

theorem single_ne_nil (b : BitVec 8) : [b] ≠ [] := by simp

theorem length_single_le (b : BitVec 8) : [b].length ≤ KEY_SIZE := by simp [KEY_SIZE]

/-- The key of the byte `b`. -/
def oneByte (b : BitVec 8) : KvKey := ⟨[b], single_ne_nil b, length_single_le b⟩

/-- `hash_function` -/
def hashFunction (key : List (BitVec 8)) : ℕ :=
  (key.foldl (fun h p => h * 16777619#32 ^^^ p.setWidth 32) 2166136261#32).toNat

/-- `struct mapping_entry` -/
structure MappingEntry where
  key : List (BitVec 8)
  memOffset : ℕ
  length : ℕ
  nextSlot : ℕ
  deriving DecidableEq

/-- The table, by slots. -/
abbrev KvTable := ℕ → MappingEntry

namespace MappingEntry

/-- `memset(&entry, -1, sizeof(struct mapping_entry))` -/
def none : MappingEntry := ⟨.replicate KEY_SIZE 0xff, NO_OFFSET, NO_OFFSET, NO_SLOT⟩

/-- An entry after `kv_init_namespace`. -/
def init : MappingEntry := ⟨.replicate KEY_SIZE 0, NO_OFFSET, NO_OFFSET, NO_SLOT⟩

/-- `mem_offset != -1` -/
def used (e : MappingEntry) : Bool := e.memOffset ≠ NO_OFFSET

/-- `memcmp(key, entry.key, key_len) == 0` -/
def holds (e : MappingEntry) (key : KvKey) : Bool := e.key.take key.bytes.length = key.bytes

/-- `memcpy(entry.key, key, key_len)` -/
def setKey (e : MappingEntry) (key : KvKey) : MappingEntry :=
  { e with key := key.bytes ++ e.key.drop key.bytes.length }

end MappingEntry

/-- The ways a key-value command can stop the kernel, or never end. -/
inductive KvFault where
  /-- `BUG_ON(val_offset >= storage_size)` -/
  | bug
  /-- A chain is followed forever. -/
  | endlessChain
  /-- A free slot is searched forever. -/
  | tableFull
  /-- The key is longer than the field of the command. -/
  | keyOverrun
  /-- The value is copied past the end of the storage. -/
  | storageOverrun
  deriving DecidableEq

/-- What is fixed when a key-value namespace is initialised.  Slots have 32 bits. -/
structure KvCfg where
  hashSlots : ℕ
  storageSize : ℕ
  hashSlots_pos : 0 < hashSlots
  hashSlots_lt : hashSlots < 2 ^ 32
  storageSize_lt : storageSize < 2 ^ 64

theorem two_slots_lt : 2 < 2 ^ 32 := by decide

theorem page_lt : 4096 < 2 ^ 64 := by decide

/-- Two slots and a page of storage. -/
def twoSlots : KvCfg where
  hashSlots := 2
  storageSize := 4096
  hashSlots_pos := Nat.two_pos
  hashSlots_lt := two_slots_lt
  storageSize_lt := page_lt

variable (c : KvCfg)

/-! ## Chains -/

/-- `get_hash_slot` -/
def getHashSlot (key : KvKey) : ℕ := hashFunction key.bytes % c.hashSlots

/-- `chain_mapping` -/
def chainMapping (t : KvTable) (prev slot : ℕ) : KvTable :=
  update t prev { t prev with nextSlot := slot }

/-- The first loop of `find_next_slot`: the last used slot of the chain through
    `tail`. -/
def findTail (t : KvTable) : ℕ → ℕ → ℕ → Except KvFault ℕ
  | 0, _, _ => .error .endlessChain
  | fuel + 1, tail, prevs =>
    if (t tail).used then
      if (t tail).nextSlot = NO_SLOT then .ok tail
      else findTail t fuel (t tail).nextSlot tail
    else .ok prevs

/-- The second loop of `find_next_slot`. -/
def findFree (t : KvTable) : ℕ → ℕ → Except KvFault ℕ
  | 0, _ => .error .tableFull
  | fuel + 1, slot =>
    if (t slot).used then findFree t fuel (if c.hashSlots ≤ slot + 1 then 0 else slot + 1)
    else .ok slot

/-- `find_next_slot`: the new slot and the one it is linked to. -/
def findNextSlot (t : KvTable) (slot : ℕ) : Except KvFault (ℕ × ℕ) := do
  let tail ← findTail t (c.hashSlots + 1) slot NO_SLOT
  let free ← findFree c t (c.hashSlots + 1) tail
  pure (free, tail)

/-- The slot of a new entry, and the one it is linked to or -1. -/
def chooseSlot (t : KvTable) (key : KvKey) : Except KvFault (ℕ × ℕ) :=
  if (t (getHashSlot c key)).used then findNextSlot c t (getHashSlot c key)
  else .ok (getHashSlot c key, NO_SLOT)

/-- What `new_mapping_entry` and `new_mapping_entry_by_key` do. -/
def newMapping (t : KvTable) (key : KvKey) (valLen valOffset : ℕ) : Except KvFault KvTable := do
  require (valOffset < c.storageSize) .bug
  let (slot, prev) ← chooseSlot c t key
  let t := update t slot { (t slot).setKey key with memOffset := valOffset, length := valLen }
  pure (if prev ≠ NO_SLOT then chainMapping t prev slot else t)

/-- `new_mapping_entry` -/
def newMappingEntry (t : KvTable) (key : KvKey) (valueLength valOffset : ℕ) : Except KvFault KvTable :=
  newMapping c t key valueLength valOffset

/-- The loop of `get_mapping_entry`, `update_mapping_entry` and `delete_mapping_entry`:
    the first slot of the chain through `slot` that holds the key. -/
def searchChain (t : KvTable) (key : KvKey) : ℕ → ℕ → Except KvFault (Option ℕ)
  | 0, _ => .error .endlessChain
  | fuel + 1, slot =>
    if (t slot).used then
      if (t slot).holds key then .ok slot
      else if (t slot).nextSlot = NO_SLOT then .ok none
      else searchChain t key fuel (t slot).nextSlot
    else .ok none

/-- The slot a key is found in. -/
def findMapping (t : KvTable) (key : KvKey) : Except KvFault (Option ℕ) :=
  searchChain t key (c.hashSlots + 1) (getHashSlot c key)

/-- `get_mapping_entry`: a copy, of the bytes of the key only. -/
def getMappingEntry (t : KvTable) (key : KvKey) : Except KvFault MappingEntry := do
  match ← findMapping c t key with
  | some slot => pure { t slot with key := key.bytes ++ MappingEntry.none.key.drop key.bytes.length }
  | none => pure .none

/-- `update_mapping_entry` -/
def updateMappingEntry (t : KvTable) (key : KvKey) (valueLength : ℕ) : Except KvFault KvTable := do
  match ← findMapping c t key with
  | some slot => pure (update t slot { t slot with length := valueLength })
  | none => pure t

/-- `delete_mapping_entry` -/
def deleteMappingEntry (t : KvTable) (key : KvKey) : Except KvFault KvTable := do
  match ← findMapping c t key with
  | some slot => pure (update t slot .none)
  | none => pure t

end WaitGc

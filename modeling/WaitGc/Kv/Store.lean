/-
  WAITGC verification — the commands of a key-value namespace
  (`__do_perform_kv_io`).

  The commands on single keys.  The allocator is one of `struct allocator_ops`;
  `appendOnly` is the one of `append_only.c`.  The host's side of a transfer is
  as for the I/O workers.
-/
import WaitGc.Io.Copy
import WaitGc.Kv.Index

namespace WaitGc

open Outcome Function

/-- `SMALL_LENGTH` -/
def SMALL_LENGTH : ℕ := 1024

/-- `KV_ERR_KEY_NOT_EXIST` -/
def KV_ERR_KEY_NOT_EXIST : ℕ := 0x310

/-- `struct allocator_ops`: the offset of `length` bytes. -/
structure KvAllocator (σ : Type) where
  init : σ
  allocate : σ → ℕ → ℕ × σ

/-- `append_only_allocate`.  The state is `latest`. -/
def appendOnly : KvAllocator ℕ where
  init := 0
  allocate latest length := (latest, u64 (latest + length))

/-- `struct kv_ftl`, the state of its allocator and the storage. -/
structure KvFtl (σ : Type) where
  table : KvTable
  alloc : σ
  storage : ℕ → ℕ

/-- The opcodes that `__do_perform_kv_io` tells apart. -/
inductive KvOpcode where
  | store
  | retrieve
  | exist
  | delete
  | other
  deriving DecidableEq

/-- `struct nvme_kv_command`.  `value` is where the PRP entries point. -/
structure KvCommand where
  opcode : KvOpcode
  keyLen : BitVec 8
  key : Fin 16 → BitVec 8
  valueLen : BitVec 32
  value : HostData

/-- `cmd_key_length` -/
def KvCommand.keyLength (cmd : KvCommand) : ℕ := cmd.keyLen.toNat + 1

/-- `cmd_value_length` -/
def KvCommand.valueLength (cmd : KvCommand) : ℕ := (cmd.valueLen <<< 2).toNat

/-- The bytes of the key field that a command uses. -/
def KvCommand.keyBytes (cmd : KvCommand) : List (BitVec 8) := (List.ofFn cmd.key).take cmd.keyLength

theorem KvCommand.keyBytes_ne_nil (cmd : KvCommand) : cmd.keyBytes ≠ [] := by
  rw [keyBytes, keyLength, List.ofFn_succ, List.take_succ_cons]
  exact List.cons_ne_nil _ _

theorem KvCommand.length_keyBytes_le (cmd : KvCommand) : cmd.keyBytes.length ≤ KEY_SIZE := by
  rw [keyBytes, List.length_take, List.length_ofFn, KEY_SIZE]
  omega

/-- The key of a command.  The bytes past the field are those of another command. -/
def KvCommand.kvKey (cmd : KvCommand) : Except KvFault KvKey :=
  if cmd.keyLength ≤ 16 then .ok ⟨cmd.keyBytes, cmd.keyBytes_ne_nil, cmd.length_keyBytes_le⟩
  else .error .keyOverrun

/-- What a command returns: `status`, the result, and for a retrieve the bytes that the
    host receives. -/
structure KvResult where
  status : ℕ
  result : ℕ
  read : ℕ → ℕ

/-- No data. -/
def kvDone (status : ℕ) : KvResult := ⟨status, 0, fun _ => 0⟩

variable {σ : Type} (c : KvCfg) (a : KvAllocator σ)

/-- `allocate_mem_offset` -/
def allocateMemOffset (alloc : σ) (length : ℕ) : ℕ × σ :=
  let r := a.allocate alloc length
  (if r.1 = NO_OFFSET then 0 else r.1, r.2)

/-- The loop of `__do_perform_kv_io`, for a store. -/
def writeValue (value : HostData) (storage : ℕ → ℕ) (offset length : ℕ) : Except KvFault (ℕ → ℕ) := do
  require (offset + length ≤ c.storageSize) .storageOverrun
  pure (value.performWrite length 0 offset length storage)

/-- The loop of `__do_perform_kv_io`, for a retrieve. -/
def readValue (value : HostData) (storage : ℕ → ℕ) (offset length : ℕ) : Except KvFault (ℕ → ℕ) := do
  require (offset + length ≤ c.storageSize) .storageOverrun
  pure (value.performRead storage length 0 offset length)

/-- A store of a key that is not there. -/
def kvInsert (s : KvFtl σ) (key : KvKey) (length : ℕ) (value : HostData) : Except KvFault (KvFtl σ) := do
  let (offset, alloc) := allocateMemOffset a s.alloc length
  let storage ← writeValue c value s.storage offset length
  let table ← newMappingEntry c s.table key length offset
  pure { table, alloc, storage }

/-- A store of a key that is there: `entry` is a copy of its entry. -/
def kvUpdate (s : KvFtl σ) (key : KvKey) (entry : MappingEntry) (length : ℕ) (value : HostData) :
    Except KvFault (KvFtl σ) := do
  let storage ← writeValue c value s.storage entry.memOffset length
  if length ≠ entry.length ∧ length ≤ SMALL_LENGTH ∧ entry.length ≤ SMALL_LENGTH then
    let table ← updateMappingEntry c s.table key length
    pure { s with table, storage }
  else pure { s with storage }

/-- `__do_perform_kv_io` -/
def doPerformKvIo (s : KvFtl σ) (cmd : KvCommand) : Except KvFault (KvResult × KvFtl σ) := do
  let key ← cmd.kvKey
  let entry ← getMappingEntry c s.table key
  match cmd.opcode with
  | .store =>
    if entry.used then
      let s ← kvUpdate c s key entry cmd.valueLength cmd.value
      pure (kvDone 0, s)
    else
      let s ← kvInsert c a s key cmd.valueLength cmd.value
      pure (kvDone 0, s)
  | .retrieve =>
    if entry.used then
      let length := min entry.length cmd.valueLength
      let read ← readValue c cmd.value s.storage entry.memOffset length
      pure (⟨0, length, read⟩, s)
    else pure (kvDone KV_ERR_KEY_NOT_EXIST, s)
  | .exist => pure (kvDone (if entry.used then 0 else KV_ERR_KEY_NOT_EXIST), s)
  | .delete =>
    if entry.used then
      let table ← deleteMappingEntry c s.table key
      pure (kvDone 0, { s with table })
    else pure (kvDone KV_ERR_KEY_NOT_EXIST, s)
  | .other => pure (kvDone 0, s)

/-- `kv_init_namespace` -/
def kvInitNamespace (storage : ℕ → ℕ) : KvFtl σ := ⟨fun _ => .init, a.init, storage⟩

/-- The namespace as a machine. -/
def kvMachine : Machine (KvFtl σ) KvCommand KvFault where
  step s cmd := (doPerformKvIo c a s cmd).map Prod.snd

end WaitGc

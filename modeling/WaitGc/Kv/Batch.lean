/-
  WAITGC verification — batches of key-value stores (`nvme_kv.h`,
  `__do_perform_kv_batch` and `__do_perform_kv_batched_io`).

  The payload of a batch has a head of attributes, one for each sub-command, and
  then the keys and the values, each from a multiple of 64 bytes on.  The host
  writes all of it.
-/
import WaitGc.Kv.Store

namespace WaitGc

open Outcome Function

/-! ## The payload -/

def MAX_SUB_CMD : ℕ := 8

def ALIGN_LEN : ℕ := 64

/-- `sizeof(struct batch_cmd_head)`: where `sub_payload` starts. -/
def SUB_PAYLOAD : ℕ := 512

/-- `char key[20]` -/
def KEY_BUFFER : ℕ := 20

/-- `kmalloc(4097)` -/
def VALUE_BUFFER : ℕ := 4097

/-- The fields of `struct sub_cmd_attribute` that are read. -/
structure SubCmdAttribute where
  opcode : BitVec 8
  keySize : BitVec 8
  valueSize : BitVec 32

/-- The ways the parsing of a batch can leave its buffers. -/
inductive BatchFault where
  /-- `attr[i]` is indexed past its end. -/
  | attrIndex
  /-- A byte is read that was not copied from the host. -/
  | overread
  /-- More is written to `key` than it holds. -/
  | keyOverrun
  /-- More is written to `value` than it holds. -/
  | valueOverrun
  /-- An `int` overflows, or an offset is negative. -/
  | offset
  deriving DecidableEq

/-- A `struct nvme_kv_batch_command`; `subCmdCnt` is the byte `rsvd4`. -/
structure KvBatchCommand where
  subCmdCnt : BitVec 8
  valueLen : BitVec 32
  value : HostData

/-- `cmd_value_length` -/
def KvBatchCommand.length (cmd : KvBatchCommand) : ℕ := (cmd.valueLen <<< 2).toNat

/-- `buffer`, when the first loop has copied the payload.  What the allocation left in it
    does not matter. -/
def KvBatchCommand.buffer (cmd : KvBatchCommand) : ℕ → ℕ :=
  cmd.value.performWrite cmd.length 0 0 cmd.length fun _ => 0

def byteAt (buffer : ℕ → ℕ) (j : ℕ) : BitVec 8 := BitVec.ofNat 8 (buffer j)

/-- `payload->batch_head.attr[i]` -/
def batchAttr (buffer : ℕ → ℕ) (i : ℕ) : SubCmdAttribute where
  opcode := byteAt buffer (16 * i)
  keySize := byteAt buffer (16 * i + 1)
  valueSize := byteAt buffer (16 * i + 7) ++ byteAt buffer (16 * i + 6) ++
    byteAt buffer (16 * i + 5) ++ byteAt buffer (16 * i + 4)

/-- A sub-command as it is handed on: the two buffers are cleared before each copy. -/
structure SubCommand where
  opcode : BitVec 8
  key : ℕ → BitVec 8
  keyLen : ℤ
  value : ℕ → BitVec 8
  valLen : ℤ

/-! ## The parsing -/

/-- The result of `int` arithmetic. -/
def cInt (n : ℤ) : Except BatchFault ℤ := do
  require (-2 ^ 31 ≤ n ∧ n < 2 ^ 31) .offset
  pure n

/-- `((len - 1) / ALIGN_LEN + 1) * ALIGN_LEN` -/
def alignLen (len : ℤ) : Except BatchFault ℤ := do
  let last ← cInt (len - 1)
  cInt ((last.tdiv ALIGN_LEN + 1) * ALIGN_LEN)

/-- An `int` as the size of a `memcpy`. -/
def sizeOfInt (n : ℤ) : ℕ := (n % 2 ^ 64).toNat

/-- `n` bytes from `sub_payload + offset` on are bytes of the buffer. -/
def InBuffer (length : ℕ) (offset n : ℤ) : Prop :=
  n = 0 ∨ 0 ≤ SUB_PAYLOAD + offset ∧ SUB_PAYLOAD + offset + n ≤ length

instance (length : ℕ) (offset n : ℤ) : Decidable (InBuffer length offset n) :=
  inferInstanceAs (Decidable (_ ∨ _))

/-- `memcpy(dest, sub_payload + offset, n)` -/
def subCopy (buffer : ℕ → ℕ) (offset n : ℤ) (k : ℕ) : BitVec 8 :=
  if (k : ℤ) < n then byteAt buffer (SUB_PAYLOAD + offset + k).toNat else 0

/-- A turn of the second loop of `__do_perform_kv_batch`, up to the call: the sub-command,
    and `payload_offset` for the next one. -/
def readSubCommand (buffer : ℕ → ℕ) (length i : ℕ) (payloadOffset : ℤ) :
    Except BatchFault (SubCommand × ℤ) := do
  require (i < MAX_SUB_CMD) .attrIndex
  require (16 * i + 8 ≤ length) .overread
  let attr := batchAttr buffer i
  let keyLen : ℤ := attr.keySize.toNat
  let valLen := attr.valueSize.toInt
  let keyRoom ← alignLen keyLen
  let valRoom ← alignLen valLen
  let subLen ← cInt (keyRoom + valRoom)
  let subLen ← cInt (subLen + ALIGN_LEN)
  require (sizeOfInt keyLen ≤ KEY_BUFFER) .keyOverrun
  require (InBuffer length payloadOffset keyLen) .overread
  require (sizeOfInt valLen ≤ VALUE_BUFFER) .valueOverrun
  require (InBuffer length (payloadOffset + keyRoom) valLen) .overread
  let next := payloadOffset + subLen
  require (0 ≤ next ∧ next < 2 ^ 31) .offset
  pure (⟨attr.opcode, subCopy buffer payloadOffset keyLen, keyLen,
    subCopy buffer (payloadOffset + keyRoom) valLen, valLen⟩, next)

/-- The second loop of `__do_perform_kv_batch`, with `count` sub-commands to go.  `perform`
    is what is done with each; it sees the copies only. -/
def subCommandLoop {τ : Type} (perform : τ → SubCommand → τ) (buffer : ℕ → ℕ) (length : ℕ) :
    ℕ → ℕ → ℤ → τ → Except BatchFault τ
  | 0, _, _, s => pure s
  | count + 1, i, payloadOffset, s => do
    let (sub, payloadOffset) ← readSubCommand buffer length i payloadOffset
    subCommandLoop perform buffer length count (i + 1) payloadOffset (perform s sub)

/-- `__do_perform_kv_batch` -/
def doPerformKvBatch {τ : Type} (perform : τ → SubCommand → τ) (s : τ) (cmd : KvBatchCommand) :
    Except BatchFault τ :=
  subCommandLoop perform cmd.buffer cmd.length cmd.subCmdCnt.toNat 0 ALIGN_LEN s

/-! ## The stores -/

section stores
variable {σ : Type} (c : KvCfg) (a : KvAllocator σ)

/-- `new_mapping_entry_by_key` -/
def newMappingEntryByKey (t : KvTable) (key : KvKey) (valLen valOffset : ℕ) : Except KvFault KvTable :=
  newMapping c t key valLen valOffset

/-- `get_mapping_entry_by_key` -/
def getMappingEntryByKey (t : KvTable) (key : KvKey) : Except KvFault MappingEntry := do
  match ← findMapping c t key with
  | some slot => pure { t slot with key := key.bytes ++ MappingEntry.none.key.drop key.bytes.length }
  | none => pure .none

/-- `allocate_mem_offset_by_length` -/
def allocateMemOffsetByLength (alloc : σ) (length : ℕ) : ℕ × σ :=
  let r := a.allocate alloc length
  (if r.1 = NO_OFFSET then 0 else r.1, r.2)

/-- `__do_perform_kv_batched_io`, for a value of `valLen` bytes. -/
def doPerformKvBatchedIo (s : KvFtl σ) (opcode : KvOpcode) (key : KvKey) (value : ℕ → ℕ) (valLen : ℕ) :
    Except KvFault (KvFtl σ) := do
  let entry ← getMappingEntryByKey c s.table key
  match opcode with
  | .store =>
    if entry.used then
      require (entry.memOffset + valLen ≤ c.storageSize) .storageOverrun
      pure { s with storage := memcpy s.storage entry.memOffset value valLen }
    else
      let (offset, alloc) := allocateMemOffsetByLength a s.alloc valLen
      require (offset + valLen ≤ c.storageSize) .storageOverrun
      let storage := memcpy s.storage offset value valLen
      let table ← newMappingEntryByKey c s.table key valLen offset
      pure { table, alloc, storage }
  | _ => pure s

end stores

end WaitGc

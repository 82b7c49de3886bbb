/-
  WAITGC verification — the iterators of a key-value namespace
  (`__do_perform_kv_iter_io`).

  A read goes on through the mapping table where the one before stopped, and
  hands the host a buffer of up to 1024 bytes: the number of its records, and
  then each record, the length of a key and the key.

  `iter_handle` is allocated with the rest of `struct kv_ftl` and its last
  element is not set: what is there is not a context.
-/
import WaitGc.Kv.Store

namespace WaitGc

open Outcome Function

/-- `keylen` -/
def ITER_KEY_LEN : ℕ := 16

/-- The bytes of the buffer that a read fills at most. -/
def ITER_BUF_LIMIT : ℕ := 1024

/-- The status of a read that reaches the end of the table. -/
def ITER_END : ℕ := 0x393

/-- `ITER_OPTION_OPEN` -/
def ITER_OPTION_OPEN : BitVec 8 := 0x01

/-- `ITER_OPTION_CLOSE` -/
def ITER_OPTION_CLOSE : BitVec 8 := 0x02

/-- The elements of `iter_handle`. -/
def ITER_HANDLES : ℕ := 17

/-- The fields of `struct kv_iter_context` that are read. -/
structure KvIterContext where
  keyPrefix : BitVec 32
  bitmask : BitVec 32
  buf : ℕ → ℕ
  currentPos : ℕ

/-- What an element of `iter_handle` holds. -/
inductive IterPtr where
  | null
  | ctx (handle : KvIterContext)
  /-- What was in the memory before. -/
  | wild

def IterPtr.isNull : IterPtr → Bool
  | null => true
  | _ => false

/-- `iter_handle` -/
abbrev IterHandles := ℕ → IterPtr

/-- The ways a command on iterators can go wrong. -/
inductive IterFault where
  /-- `iter_handle` is indexed past its end. -/
  | handleIndex
  /-- A pointer that is not one to a context is dereferenced or freed. -/
  | wildHandle
  /-- The table is read forever. -/
  | endless
  deriving DecidableEq

/-- The commands that `__do_perform_kv_iter_io` tells apart. -/
inductive KvIterOpcode where
  | iterReq
  | iterRead
  | other
  deriving DecidableEq

/-- `struct nvme_kv_iter_req_command` and `struct nvme_kv_iter_read_command`. -/
structure KvIterCommand where
  opcode : KvIterOpcode
  iterHandle : BitVec 8
  option : BitVec 8
  iterVal : BitVec 32
  iterBitmask : BitVec 32
  value : HostData

/-! ## The buffer -/

/-- `memcpy(buf + offset, src, n)` -/
def bufCopy (buf : ℕ → ℕ) (offset : ℕ) (src : ℕ → ℕ) (n : ℕ) : ℕ → ℕ :=
  fun j => if offset ≤ j ∧ j < offset + n then src (j - offset) else buf j

/-- The bytes of a 32-bit number. -/
def wordByte (w k : ℕ) : ℕ := w / 256 ^ k % 256

namespace MappingEntry

/-- `key[k]` -/
def keyByte (e : MappingEntry) (k : ℕ) : BitVec 8 := e.key.getD k 0

/-- The first four bytes of the key. -/
def keyWord (e : MappingEntry) : BitVec 32 := e.keyByte 3 ++ e.keyByte 2 ++ e.keyByte 1 ++ e.keyByte 0

end MappingEntry

/-! ## A read -/

/-- The variables of the first loop of `kv_iter_read`. -/
structure IterVars where
  buf : ℕ → ℕ
  bufOffset : ℕ
  nrKeys : ℕ
  pos : ℤ

/-- The entry is in use, and its key matches. -/
def KvIterContext.selects (h : KvIterContext) (e : MappingEntry) : Bool :=
  e.used && e.keyWord &&& h.bitmask == h.keyPrefix &&& h.bitmask

/-- A record is written. -/
def IterVars.put (v : IterVars) (e : MappingEntry) : IterVars where
  buf := bufCopy (bufCopy v.buf v.bufOffset (wordByte ITER_KEY_LEN) 4) (v.bufOffset + 4)
    (fun k => (e.keyByte k).toNat) ITER_KEY_LEN
  bufOffset := v.bufOffset + 4 + (ITER_KEY_LEN + 3) / 4 * 4
  nrKeys := v.nrKeys + 1
  pos := v.pos

section read
variable (c : KvCfg) (t : KvTable)

/-- The first loop of `kv_iter_read`, and `end`.  The comparisons are of 64-bit numbers. -/
def iterLoop (h : KvIterContext) : ℕ → IterVars → Except IterFault (IterVars × Bool)
  | 0, _ => .error .endless
  | fuel + 1, v =>
    if ulong v.pos < c.hashSlots then
      let e := t (ulong v.pos)
      if h.selects e ∧ ITER_BUF_LIMIT < v.bufOffset + 4 + ITER_KEY_LEN then .ok (v, false)
      else
        let v := if h.selects e then v.put e else v
        let v := { v with pos := int32 (v.pos + 1) }
        if ulong v.pos = c.hashSlots then .ok (v, true) else iterLoop h fuel v
    else .ok (v, false)

/-- `kv_iter_read`, of a context. -/
def iterRead (h : KvIterContext) (value : HostData) : Except IterFault (KvResult × KvIterContext) := do
  let (v, atEnd) ← iterLoop c t h (c.hashSlots + 1) ⟨h.buf, 4, 0, int32 h.currentPos⟩
  let buf := bufCopy v.buf 0 (wordByte v.nrKeys) 4
  let read := value.performRead buf v.bufOffset 0 0 v.bufOffset
  pure (⟨if atEnd then ITER_END else 0, v.bufOffset, read⟩, { h with buf, currentPos := ulong v.pos })

/-! ## The commands -/

/-- `iter_handle[iter]` -/
def handleAt (s : IterHandles) (iter : ℕ) : Except IterFault IterPtr := do
  require (iter < ITER_HANDLES) .handleIndex
  pure (s iter)

/-- The context of a new iterator.  What the allocation left in the buffer does not matter. -/
def iterContext (cmd : KvIterCommand) : KvIterContext := ⟨cmd.iterVal, cmd.iterBitmask, fun _ => 0, 0⟩

/-- `kv_iter_open`.  A status that is not set is what it was. -/
def kvIterOpen (s : IterHandles) (cmd : KvIterCommand) (status : ℕ) : KvResult × IterHandles :=
  match (List.range' 1 16).find? fun iter => (s iter).isNull with
  | none => (⟨status, 1, fun _ => 0⟩, s)
  | some iter => (⟨0, iter, fun _ => 0⟩, update s iter (.ctx (iterContext cmd)))

/-- `kv_iter_close` -/
def kvIterClose (s : IterHandles) (cmd : KvIterCommand) : Except IterFault (KvResult × IterHandles) := do
  let iter := cmd.iterHandle.toNat
  match ← handleAt s iter with
  | .null => pure (kvDone 0, s)
  | .ctx _ => pure (kvDone 0, update s iter .null)
  | .wild => .error .wildHandle

/-- `kv_iter_read` -/
def kvIterRead (s : IterHandles) (cmd : KvIterCommand) (status : ℕ) :
    Except IterFault (KvResult × IterHandles) := do
  let iter := cmd.iterHandle.toNat
  match ← handleAt s iter with
  | .null => pure (kvDone status, s)
  | .ctx h =>
    let (r, h) ← iterRead c t h cmd.value
    pure (r, update s iter (.ctx h))
  | .wild => .error .wildHandle

/-- `__do_perform_kv_iter_io` -/
def doPerformKvIterIo (s : IterHandles) (cmd : KvIterCommand) (status : ℕ) :
    Except IterFault (KvResult × IterHandles) :=
  match cmd.opcode with
  | .iterReq =>
    if cmd.option &&& ITER_OPTION_OPEN ≠ 0 then .ok (kvIterOpen s cmd status)
    else if cmd.option &&& ITER_OPTION_CLOSE ≠ 0 then kvIterClose s cmd
    else .ok (kvDone status, s)
  | .iterRead => kvIterRead c t s cmd status
  | .other => .ok (kvDone status, s)

end read

/-- `iter_handle` after `kv_init_namespace`.  The last element keeps what the allocation left
    there: `NULL`, or something else. -/
def iterHandlesInit (lastIsNull : Bool) : IterHandles :=
  fun iter => if iter < 16 ∨ lastIsNull then .null else .wild

end WaitGc

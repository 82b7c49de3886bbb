/-
  WAITGC verification — the two ways an I/O worker moves data
  (`__do_perform_io` and `__do_perform_io_using_dma`).

  Here the memory is the physical one: the pages of the host, the page of the
  PRP list and the storage, which starts at `storageStart` and is mapped for
  namespace 1 from its first byte on.  `pfnValid` says which page frames
  `kmap_atomic_pfn` can map; others are mapped with `memremap`, and its pointer
  is one to the address that it is given.
-/
import WaitGc.Io.Copy
import WaitGc.Lib.Copies
import WaitGc.Lib.Outcome
import Mathlib.Data.BitVec

namespace WaitGc

open Outcome Copies Function

/-- The physical memory, by addresses. -/
abbrev PhysMem := BitVec 64 → BitVec 8

/-- The opcodes that the copy loops tell apart. -/
inductive CopyOpcode where
  | write
  | zoneAppend
  | read
  | other
  deriving DecidableEq

/-- What the loops read of a `struct nvme_rw_command` of namespace 1. -/
structure CopyCommand where
  opcode : CopyOpcode
  prp1 : BitVec 64
  prp2 : BitVec 64
  slba : BitVec 64
  length : BitVec 16

/-- `__cmd_io_offset` -/
def CopyCommand.offset (cmd : CopyCommand) : BitVec 64 := cmd.slba <<< LBA_BITS

/-- `__cmd_io_size` -/
def CopyCommand.size (cmd : CopyCommand) : ℕ := (cmd.length.toNat + 1) <<< LBA_BITS

/-- What is fixed: where the storage is, and the page frames of the kernel. -/
structure CopyCfg where
  storageStart : BitVec 64
  pfnValid : ℕ → Bool

/-- The ways a copy loop can fail. -/
inductive CopyFault where
  /-- The PRP list is read, and there is none. -/
  | nullList
  /-- `paddr_list` is indexed past its end. -/
  | listOverrun
  deriving DecidableEq

variable (c : CopyCfg)

/-! ## Pages -/

/-- `paddr & PAGE_OFFSET_MASK` -/
def pageOffset (paddr : BitVec 64) : ℕ := paddr.toNat % PAGE_SIZE

/-- `kmap_atomic_pfn(PRP_PFN(paddr))` -/
def pageBase (paddr : BitVec 64) : BitVec 64 := BitVec.ofNat 64 (paddr.toNat / PAGE_SIZE * PAGE_SIZE)

/-- `io_size` of a page, and `page_size` before the merge. -/
def prpSize (paddr : BitVec 64) (remaining : ℕ) : ℕ :=
  let size := min remaining PAGE_SIZE
  if PAGE_SIZE < size + pageOffset paddr then PAGE_SIZE - pageOffset paddr else size

/-- `vaddr`, as the address it points to. -/
def mapPage (paddr : BitVec 64) : BitVec 64 :=
  if c.pfnValid (paddr.toNat / PAGE_SIZE) then pageBase paddr else paddr

/-- A little-endian `u64`. -/
def readU64 (mem : PhysMem) (a : BitVec 64) : BitVec 64 :=
  mem (a + 7) ++ mem (a + 6) ++ mem (a + 5) ++ mem (a + 4) ++ mem (a + 3) ++ mem (a + 2) ++ mem (a + 1) ++ mem a

/-- Where `paddr_list` points.  The offset is counted in bytes on the one pointer, and in
    entries on the other. -/
def prpList (paddr : BitVec 64) : BitVec 64 :=
  if c.pfnValid (paddr.toNat / PAGE_SIZE) then pageBase paddr + BitVec.ofNat 64 (pageOffset paddr)
  else paddr + BitVec.ofNat 64 (8 * pageOffset paddr)

/-- The walk over the PRP entries of a command. -/
structure PrpWalk where
  prpOffs : ℕ
  prp2Offs : ℕ
  paddrList : Option (BitVec 64)

def PrpWalk.start : PrpWalk := ⟨0, 0, none⟩

/-- The address of the next turn, in either loop. -/
def nextPrp (cmd : CopyCommand) (mem : PhysMem) (remaining : ℕ) (w : PrpWalk) :
    Except CopyFault (BitVec 64 × PrpWalk) :=
  let w := { w with prpOffs := w.prpOffs + 1 }
  if w.prpOffs = 1 then .ok (cmd.prp1, w)
  else if w.prpOffs = 2 then
    if PAGE_SIZE < remaining then
      let list := prpList c cmd.prp2
      .ok (readU64 mem (list + (8 * w.prp2Offs : ℕ)), { w with prp2Offs := w.prp2Offs + 1, paddrList := some list })
    else .ok (cmd.prp2, w)
  else
    match w.paddrList with
    | some list => .ok (readU64 mem (list + (8 * w.prp2Offs : ℕ)), { w with prp2Offs := w.prp2Offs + 1 })
    | none => .error .nullList

/-- The copy of a turn, between `host` and the byte `offset` of the storage. -/
def transfer (cmd : CopyCommand) (mem : PhysMem) (host offset : BitVec 64) (size : ℕ) : PhysMem :=
  match cmd.opcode with
  | .write | .zoneAppend => copy mem host (c.storageStart + offset) size
  | .read => copy mem (c.storageStart + offset) host size
  | .other => mem

/-! ## `__do_perform_io` -/

/-- The loop; a turn copies at least one byte. -/
def performIoLoop (cmd : CopyCommand) : ℕ → PrpWalk → BitVec 64 → ℕ → PhysMem → Except CopyFault PhysMem
  | 0, _, _, _, mem => pure mem
  | fuel + 1, w, offset, remaining, mem =>
    if remaining = 0 then pure mem
    else do
      let (paddr, w) ← nextPrp c cmd mem remaining w
      let ioSize := prpSize paddr remaining
      let mem := transfer c cmd mem (mapPage c paddr + (pageOffset paddr : ℕ)) offset ioSize
      performIoLoop cmd fuel w (offset + ioSize) (remaining - ioSize) mem

/-- `__do_perform_io` -/
def doPerformIo (cmd : CopyCommand) (mem : PhysMem) : Except CopyFault PhysMem :=
  performIoLoop c cmd cmd.size .start cmd.offset cmd.size mem

/-! ## `__do_perform_io_using_dma` -/

/-- An index into `paddr_list[513]`. -/
def listIndex (prpOffs : ℕ) : Except CopyFault Unit := require (prpOffs < 513) .listOverrun

/-- The first loop: `num_prps` and the list. -/
def collectPrps (cmd : CopyCommand) (mem : PhysMem) :
    ℕ → PrpWalk → ℕ → (ℕ → BitVec 64) → Except CopyFault (ℕ × (ℕ → BitVec 64))
  | 0, w, _, list => pure (w.prpOffs, list)
  | fuel + 1, w, remaining, list =>
    if remaining = 0 then pure (w.prpOffs, list)
    else do
      let (paddr, w) ← nextPrp c cmd mem remaining w
      listIndex w.prpOffs
      collectPrps cmd mem fuel w (remaining - prpSize paddr remaining) (update list w.prpOffs paddr)

/-- The `for` loop over the entries that continue the page before. -/
def mergePages (list : ℕ → BitVec 64) (numPrps : ℕ) : ℕ → ℕ → ℕ → Except CopyFault (ℕ × ℕ)
  | 0, prpOffs, pageSize => pure (prpOffs, pageSize)
  | fuel + 1, prpOffs, pageSize =>
    if prpOffs ≤ numPrps then do
      listIndex prpOffs
      if list prpOffs = list (prpOffs - 1) + (PAGE_SIZE : ℕ) then
        mergePages list numPrps fuel (prpOffs + 1) (pageSize + PAGE_SIZE)
      else pure (prpOffs, pageSize)
    else pure (prpOffs, pageSize)

/-- The second loop: where it stops in the list, and the memory. -/
def dmaLoop (cmd : CopyCommand) (list : ℕ → BitVec 64) (numPrps : ℕ) :
    ℕ → ℕ → BitVec 64 → ℕ → PhysMem → Except CopyFault (ℕ × PhysMem)
  | 0, prpOffs, _, _, mem => pure (prpOffs, mem)
  | fuel + 1, prpOffs, offset, remaining, mem =>
    if remaining = 0 then pure (prpOffs, mem)
    else do
      listIndex prpOffs
      let paddr := list prpOffs
      let (prpOffs, pageSize) ← mergePages list numPrps numPrps (prpOffs + 1) (prpSize paddr remaining)
      let ioSize := min remaining pageSize
      let mem := transfer c cmd mem paddr offset ioSize
      dmaLoop cmd list numPrps fuel prpOffs (offset + ioSize) (remaining - ioSize) mem

/-- What `__do_perform_io_using_dma` leaves: the memory, `num_prps`, and `prp_offs` at the end. -/
structure DmaResult where
  mem : PhysMem
  numPrps : ℕ
  prpOffs : ℕ

/-- `__do_perform_io_using_dma`, where `ioat_dma_submit` is a copy. -/
def doPerformIoUsingDma (cmd : CopyCommand) (mem : PhysMem) : Except CopyFault DmaResult := do
  let (numPrps, list) ← collectPrps c cmd mem cmd.size .start cmd.size fun _ => 0
  let (prpOffs, mem) ← dmaLoop c cmd list numPrps cmd.size 1 cmd.offset cmd.size mem
  pure ⟨mem, numPrps, prpOffs⟩

end WaitGc

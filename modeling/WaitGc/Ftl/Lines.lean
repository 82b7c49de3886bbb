/-
  WAITGC verification — mapping table, page states, lines and write pointers
  (`conv_ftl.c`, from `get_maptbl_ent` to `mark_block_free`).
-/
import WaitGc.Ftl.State

namespace WaitGc

open Outcome Function

variable (c : Cfg)

/-! ## Mapping tables -/

/-- `set_maptbl_ent`. -/
def setMaptblEnt (s : ConvFtl) (lpn : ℕ) (p : Ppa) : Except Fault ConvFtl := do
  nvmevAssert (lpn < c.sp.ttPgs) .setMaptblEnt
  pure { s with maptbl := update s.maptbl lpn p }

/-- `get_rmap_ent`. -/
def getRmapEnt (s : ConvFtl) (p : Ppa) : Except Fault ℕ := do
  let pgidx ← ppa2pgidx c.sp p
  pure (s.rmap pgidx)

/-- `set_rmap_ent`. -/
def setRmapEnt (s : ConvFtl) (lpn : ℕ) (p : Ppa) : Except Fault ConvFtl := do
  let pgidx ← ppa2pgidx c.sp p
  pure { s with rmap := update s.rmap pgidx lpn }

/-! ## Initial state -/

/-- `init_lines`: every line is free.  `junk` is the content `kmalloc` gives
    the queue array. -/
def initLines (junk : ℕ → Slot) : Except Fault LineMgmt := do
  nvmevAssert (c.sp.blksPerPl = c.sp.ttLines) .initLines
  pure {
    lines := fun i => ⟨i, 0, 0, 0, 0, false, 0, 0, 0⟩
    freeLineList := List.range c.sp.blksPerPl
    victimLinePq := .init c.sp.ttLines junk
    fullLineList := []
    ttLines := c.sp.blksPerPl
    freeLineCnt := c.sp.blksPerPl
    victimLineCnt := 0
    fullLineCnt := 0 }

/-- `get_next_free_line`: `none` for `NULL`. -/
def getNextFreeLine (s : ConvFtl) : Option (ℕ × ConvFtl) :=
  match s.lm.freeLineList with
  | [] => none
  | i :: rest =>
    some (i, { s with lm := { s.lm with freeLineList := rest, freeLineCnt := s.lm.freeLineCnt - 1 } })

/-- `prepare_write_pointer`. -/
def prepareWritePointer (s : ConvFtl) (io : IoType) : Except Fault ConvFtl :=
  match getNextFreeLine s with
  | none => .error (.assert .prepareWritePointer)
  | some (i, s) => .ok (s.setWp io ⟨i, 0, 0, 0, (s.lm.lines i).id, 0⟩)

/-- The counters `conv_init_ftl` sets. -/
def GcStats.init : GcStats where
  gcCnt := 0
  gcValidCopied := 0
  hostWritePages := 0
  gcVictimVpcSum := 0
  gcDiffFromGreedy := 0
  gcSelectedAgeNsSum := 0
  gcSelectedAgeValueSum := 0
  gcSelectedScoreSum := 0
  gcCandidatesAvailableSum := 0
  gcCandidateEvalCount := 0
  gcCandidateAgeNsSum := 0
  gcCandidateAgeNsMin := 2 ^ 64 - 1
  gcCandidateAgeNsMax := 0
  gcCandidateLevelHist _ := 0
  gcSelectedLevelHist _ := 0
  gcSelectedAgeNsMin := 2 ^ 64 - 1
  gcSelectedAgeNsMax := 0
  gcGreedyRefAgeNsSum := 0
  gcGreedyRefVpcSum := 0
  gcExtraVpcVsGreedySum := 0
  gcForcedCnt := 0
  gcZeroVpcVictimCnt := 0
  gcVictimVpcMin := 2 ^ 64 - 1
  gcVictimVpcMax := 0
  isoSamplesCompleted := 0
  isoSamplesCensored := 0

/-- `conv_init_ftl`, on the flash array `ssd_init` builds. -/
def convInitFtl (partId : ℕ) (junk : ℕ → Slot) : Except Fault ConvFtl := do
  let lm ← initLines c junk
  let s : ConvFtl := {
    maptbl := fun _ => .unmapped
    rmap := fun _ => INVALID_LPN
    blk := fun _ => ⟨fun _ => .free, 0, 0, 0⟩
    wp := ⟨0, 0, 0, 0, 0, 0⟩
    gcWp := ⟨0, 0, 0, 0, 0, 0⟩
    lm := lm
    wfc := ⟨u32 c.sp.pgsPerLine, u32 c.sp.pgsPerLine⟩
    partId := partId
    curNsecs := 0
    dsmInvalidatedPages := 0
    stats := .init
    isoLog := [] }
  let s ← prepareWritePointer s .userIo
  prepareWritePointer s .gcIo

/-! ## Write pointers -/

/-- `check_addr`. -/
def checkAddr (a max : ℕ) : Except Fault Unit := nvmevAssert (a < max) .checkAddr

/-- `advance_write_pointer`, "move current line to {victim,full} line list". -/
def closeLine (lm : LineMgmt) (i : ℕ) : Except Fault LineMgmt :=
  let l := lm.lines i
  if l.vpc = c.sp.pgsPerLine then do
    -- all pgs are still valid, move to full line list
    nvmevAssert (l.ipc = 0) .closeFullIpc
    pure { lm with fullLineList := lm.fullLineList ++ [i], fullLineCnt := lm.fullLineCnt + 1 }
  else do
    nvmevAssert (l.vpc < c.sp.pgsPerLine) .closeVictimVpc
    -- there must be some invalid pages in this line
    nvmevAssert (0 < l.ipc) .closeVictimIpc
    let lm ← lm.withPq (lm.victimLinePq.pqueueInsert victimLine lm.lines i)
    pure { lm with victimLineCnt := lm.victimLineCnt + 1 }

/-- `advance_write_pointer`, "current line is used up, pick another empty
    line": the new line is dereferenced at once. -/
def openLine (s : ConvFtl) (io : IoType) (wpp : WritePointer) : Except Fault ConvFtl := do
  checkAddr wpp.blk c.sp.blksPerPl
  match getNextFreeLine s with
  | none => .error .noFreeLine
  | some (i, s) =>
    let wpp := { wpp with curline := i, blk := (s.lm.lines i).id }
    checkAddr wpp.blk c.sp.blksPerPl
    nvmevAssert (wpp.pg = 0 ∧ wpp.lun = 0 ∧ wpp.ch = 0 ∧ wpp.pl = 0) .freshPointer
    pure (s.setWp io wpp)

/-- `advance_write_pointer`. -/
def advanceWritePointer (s : ConvFtl) (io : IoType) : Except Fault ConvFtl := do
  let wpp := s.getWp io
  checkAddr wpp.pg c.sp.pgsPerBlk
  let wpp := { wpp with pg := wpp.pg + 1 }
  if wpp.pg % c.sp.pgsPerOneshotpg ≠ 0 then pure (s.setWp io wpp)
  else
    let wpp := { wpp with pg := wpp.pg - c.sp.pgsPerOneshotpg }
    checkAddr wpp.ch c.sp.nchs
    let wpp := { wpp with ch := wpp.ch + 1 }
    if wpp.ch ≠ c.sp.nchs then pure (s.setWp io wpp)
    else
      let wpp := { wpp with ch := 0 }
      checkAddr wpp.lun c.sp.lunsPerCh
      let wpp := { wpp with lun := wpp.lun + 1 }
      -- in this case, we should go to next lun
      if wpp.lun ≠ c.sp.lunsPerCh then pure (s.setWp io wpp)
      else
        -- go to next wordline in the block
        let wpp := { wpp with lun := 0, pg := wpp.pg + c.sp.pgsPerOneshotpg }
        if wpp.pg ≠ c.sp.pgsPerBlk then pure (s.setWp io wpp)
        else
          let wpp := { wpp with pg := 0 }
          let lm ← closeLine c s.lm wpp.curline
          openLine c { s with lm := lm } io wpp

/-- The page a write pointer stands at, as the bit fields keep it. -/
def WritePointer.page (wp : WritePointer) : Ppa := .store wp.ch wp.lun wp.pl wp.blk wp.pg

/-- `get_new_page`. -/
def getNewPage (s : ConvFtl) (io : IoType) : Except Fault Ppa := do
  let p := (s.getWp io).page
  nvmevAssert (p.pl = 0) .getNewPagePl
  pure p

/-! ## Page states -/

/-- `mark_page_invalid`, the page and its block. -/
def invalidateBlk (b : NandBlock) (pg : ℕ) : Except Fault NandBlock := do
  nvmevAssert (b.pg pg = .valid) .invalidPgValid
  nvmevAssert (b.ipc < c.sp.pgsPerBlk) .invalidBlkIpc
  nvmevAssert (0 < b.vpc ∧ b.vpc ≤ c.sp.pgsPerBlk) .invalidBlkVpc
  pure { b with pg := update b.pg pg .invalid, ipc := b.ipc + 1, vpc := b.vpc - 1 }

/-- `mark_page_invalid`, the line. -/
def invalidateLine (lm : LineMgmt) (i now : ℕ) : Except Fault LineMgmt := do
  let l := lm.lines i
  let wasFullLine : Bool := l.vpc = c.sp.pgsPerLine
  nvmevAssert (l.ipc < c.sp.pgsPerLine) .invalidLineIpc
  nvmevAssert (wasFullLine → l.ipc = 0) .invalidFullIpc
  let l := { l with lastModifiedTime := now, ipc := l.ipc + 1 }
  nvmevAssert (0 < l.vpc ∧ l.vpc ≤ c.sp.pgsPerLine) .invalidLineVpc
  let lm := { lm with lines := update lm.lines i l }
  -- Adjust the position of the victim line in the pq under over-writes
  let lm ←
    if l.pos ≠ 0 then
      lm.withPq (lm.victimLinePq.pqueueChangePriority victimLine lm.lines (l.vpc - 1) i)
    else pure { lm with lines := update lm.lines i { l with vpc := l.vpc - 1 } }
  if wasFullLine then do
    -- move line: "full" -> "victim"
    let lm := { lm with fullLineList := lm.fullLineList.erase i, fullLineCnt := lm.fullLineCnt - 1 }
    let lm ← lm.withPq (lm.victimLinePq.pqueueInsert victimLine lm.lines i)
    pure { lm with victimLineCnt := lm.victimLineCnt + 1 }
  else pure lm

/-- `mark_page_invalid`. -/
def markPageInvalid (s : ConvFtl) (p : Ppa) : Except Fault ConvFtl := do
  let b ← invalidateBlk c (s.blk p.blkAddr) p.pg.toNat
  let lm ← invalidateLine c s.lm p.line s.curNsecs
  pure { s with blk := update s.blk p.blkAddr b, lm := lm }

/-- `mark_page_valid`. -/
def markPageValid (s : ConvFtl) (p : Ppa) : Except Fault ConvFtl := do
  let b := s.blk p.blkAddr
  nvmevAssert (b.pg p.pg.toNat = .free) .validPgFree
  nvmevAssert (b.vpc < c.sp.pgsPerBlk) .validBlkVpc
  let l := s.lm.lines p.line
  nvmevAssert (l.vpc < c.sp.pgsPerLine) .validLineVpc
  pure { s with
    blk := update s.blk p.blkAddr { b with pg := update b.pg p.pg.toNat .valid, vpc := b.vpc + 1 }
    lm := { s.lm with lines := update s.lm.lines p.line { l with vpc := l.vpc + 1 } } }

/-- `mark_block_free`. -/
def markBlockFree (s : ConvFtl) (p : Ppa) : ConvFtl :=
  let b := s.blk p.blkAddr
  { s with blk := update s.blk p.blkAddr {
      pg := fun i => if i < c.sp.pgsPerBlk then .free else b.pg i
      ipc := 0
      vpc := 0
      eraseCnt := b.eraseCnt + 1 } }

/-- `mark_line_free`. -/
def markLineFree (s : ConvFtl) (p : Ppa) : ConvFtl :=
  let i := p.line
  { s with lm := { s.lm with
      lines := update s.lm.lines i { s.lm.lines i with
        ipc := 0, vpc := 0, lastModifiedTime := 0, isoSampleActive := false
        isoSampleIpc := 0, isoSampleAgeNs := 0, isoSampleStartNs := 0 }
      freeLineList := s.lm.freeLineList ++ [i]
      freeLineCnt := s.lm.freeLineCnt + 1 } }

/-! ## Write flow control -/

/-- `consume_write_credit`; the credits are a `uint32_t`. -/
def consumeWriteCredit (s : ConvFtl) : ConvFtl :=
  { s with wfc := { s.wfc with writeCredits := u32 (s.wfc.writeCredits + 2 ^ 32 - 1) } }

/-- `should_gc_high`. -/
def shouldGcHigh (s : ConvFtl) : Bool := s.lm.freeLineCnt ≤ c.cp.gcThresLinesHigh

end WaitGc

/-
  WAITGC verification — garbage collection (`conv_ftl.c`, `gc_write_page`,
  `clean_one_flashpg`, `do_gc`, `foreground_gc`, the write credits).

  * The functions thread the FTL and the clocks of the device; a NAND command
    of the garbage collector starts at the reading of the clock (`stime = 0`).
  * `writeNewPage` is the sequence of statements that `conv_write` and
    `gc_write_page` share.
  * `do_gc` visits the positions of `gcPositions` in order: flash page, then
    channel, then LUN.
-/
import WaitGc.Ftl.Victim

namespace WaitGc

open Outcome Function

variable (c : Cfg)

/-! ## Writing one page -/

/-- The new page of `conv_write` and `gc_write_page`: take it from the write
    pointer, map it both ways, mark it valid, count it (`count`), and advance
    the write pointer. -/
def writeNewPage (s : ConvFtl) (io : IoType) (lpn : ℕ) (count : GcStats → GcStats) :
    Except Fault (Ppa × ConvFtl) := do
  let newPpa ← getNewPage s io
  let s ← setMaptblEnt c s lpn newPpa
  let s ← setRmapEnt c s lpn newPpa
  let s ← markPageValid c s newPpa
  let s ← advanceWritePointer c { s with stats := count s.stats } io
  pure (newPpa, s)

/-- `gc_valid_copied++`. -/
def GcStats.countCopy (st : GcStats) : GcStats := { st with gcValidCopied := st.gcValidCopied + 1 }

/-- `gc_write_page`. -/
def gcWritePage (s : ConvFtl) (t : Timing) (oldPpa : Ppa) : Except Fault (ConvFtl × Timing) := do
  let lpn ← getRmapEnt c s oldPpa
  nvmevAssert (validLpn c.sp lpn) .gcValidLpn
  let (newPpa, s) ← writeNewPage c s .gcIo lpn GcStats.countCopy
  if c.cp.enableGcDelay then
    let gcw : NandCmd :=
      if lastPgInWordline c.sp newPpa then
        ⟨.write, c.sp.pgsz * c.sp.pgsPerOneshotpg, 0, false, newPpa⟩
      else ⟨.nop, 0, 0, false, newPpa⟩
    pure (s, (ssdAdvanceNand c.sp s.partId t gcw).2)
  else pure (s, t)

/-! ## Cleaning the victim -/

/-- `ppa_copy.g.pg++`, `i` times. -/
def Ppa.plusPg (p : Ppa) (i : ℕ) : Ppa := { p with pg := p.pg + .ofNat 16 i }

/-- The pages of the flash page at `p`. -/
def flashpgPages (p : Ppa) : List Ppa := (List.range c.sp.pgsPerFlashpg).map p.plusPg

/-- The first loop of `clean_one_flashpg`: the number of valid pages. -/
def countValid (s : ConvFtl) (pages : List Ppa) : Except Fault ℕ :=
  pages.foldlM (fun cnt q => do
    -- there shouldn't be any free page in victim blocks
    nvmevAssert (s.status q ≠ .free) .cleanPgNotFree
    pure (if s.status q = .valid then cnt + 1 else cnt)) 0

/-- The body of the second loop of `clean_one_flashpg`. -/
def copyPage (st : ConvFtl × Timing) (q : Ppa) : Except Fault (ConvFtl × Timing) :=
  if st.1.status q = .valid then gcWritePage c st.1 st.2 q else pure st

/-- `clean_one_flashpg`. -/
def cleanOneFlashpg (s : ConvFtl) (t : Timing) (p : Ppa) : Except Fault (ConvFtl × Timing) := do
  let cnt ← countValid s (flashpgPages c p)
  if cnt = 0 then pure (s, t)
  else
    let gcr : NandCmd := ⟨.read, c.sp.pgsz * cnt, 0, false, p⟩
    let t := if c.cp.enableGcDelay then (ssdAdvanceNand c.sp s.partId t gcr).2 else t
    (flashpgPages c p).foldlM (copyPage c) (s, t)

/-- `lunp->gc_endtime = lunp->next_lun_avail_time`. -/
def Timing.markGcEnd (t : Timing) (part : ℕ) (p : Ppa) : Timing :=
  let lun := (p.ch.toNat, p.lun.toNat)
  t.modSsd part fun n => { n with gcEndtime := update n.gcEndtime lun (n.nextLunAvailTime lun) }

/-- The positions `(flashpg, ch, lun)` the loops of `do_gc` visit. -/
def gcPositions : List (ℕ × ℕ × ℕ) :=
  (List.range c.sp.flashpgsPerBlk).flatMap fun flashpg =>
    (List.range c.sp.nchs).flatMap fun ch =>
      (List.range c.sp.lunsPerCh).map fun lun => (flashpg, ch, lun)

/-- The body of the loops of `do_gc` on the line `blk`. -/
def gcVisit (blk : ℕ) (st : ConvFtl × Timing) (k : ℕ × ℕ × ℕ) :
    Except Fault (ConvFtl × Timing) := do
  let p := Ppa.store k.2.1 k.2.2 0 blk (k.1 * c.sp.pgsPerFlashpg)
  let (s, t) ← cleanOneFlashpg c st.1 st.2 p
  if k.1 = c.sp.flashpgsPerBlk - 1 then
    let s := markBlockFree c s p
    let t :=
      if c.cp.enableGcDelay then (ssdAdvanceNand c.sp s.partId t ⟨.erase, 0, 0, false, p⟩).2 else t
    pure (s, t.markGcEnd s.partId p)
  else pure (s, t)

/-- The counters `do_gc` bumps for a victim with `vpc` valid pages. -/
def GcStats.countGc (st : GcStats) (force : Bool) (vpc : ℕ) : GcStats :=
  { st with
    gcCnt := st.gcCnt + 1
    gcVictimVpcSum := st.gcVictimVpcSum + vpc
    gcForcedCnt := if force then st.gcForcedCnt + 1 else st.gcForcedCnt
    gcZeroVpcVictimCnt := if vpc = 0 then st.gcZeroVpcVictimCnt + 1 else st.gcZeroVpcVictimCnt
    gcVictimVpcMin := if vpc < st.gcVictimVpcMin then vpc else st.gcVictimVpcMin
    gcVictimVpcMax := if st.gcVictimVpcMax < vpc then vpc else st.gcVictimVpcMax }

/-- `do_gc` on the line `v` it selected. -/
def collectLine (s : ConvFtl) (t : Timing) (force : Bool) (v : ℕ) :
    Except Fault (ConvFtl × Timing) := do
  let s := isotonicCensorSelected c s v
  let l := s.lm.lines v
  let s := { s with
    stats := s.stats.countGc force l.vpc
    wfc := { s.wfc with creditsToRefill := u32 l.ipc } }
  -- copy back valid data
  let (s, t) ← (gcPositions c).foldlM (gcVisit c l.id) (s, t)
  -- update line status
  pure (markLineFree s (.store 0 0 0 l.id 0), t)

/-- `do_gc`; `false` for the return value `-1`. -/
def doGc (s : ConvFtl) (t : Timing) (force : Bool) : Except Fault (Bool × ConvFtl × Timing) := do
  match ← selectVictimLine c s force with
  | (none, s) => pure (false, s, t)
  | (some v, s) =>
    let (s, t) ← collectLine c s t force v
    pure (true, s, t)

/-! ## Write credits -/

/-- `foreground_gc`. -/
def foregroundGc (s : ConvFtl) (t : Timing) : Except Fault (ConvFtl × Timing) := do
  if shouldGcHigh c s then
    let (_, s, t) ← doGc c s t true
    pure (s, t)
  else pure (s, t)

/-- The credits are used up and lines are short: the next
    `check_and_refill_write_credit` calls `do_gc`. -/
def GcDue (s : ConvFtl) : Prop := s.wfc.writeCredits = 0 ∧ shouldGcHigh c s = true

instance (s : ConvFtl) : Decidable (GcDue c s) := inferInstanceAs (Decidable (_ ∧ _))

/-- `check_and_refill_write_credit`. -/
def checkAndRefillWriteCredit (s : ConvFtl) (t : Timing) : Except Fault (ConvFtl × Timing) := do
  if s.wfc.writeCredits = 0 then
    let (s, t) ← foregroundGc c s t
    pure ({ s with wfc := { s.wfc with
      writeCredits := u32 (s.wfc.writeCredits + s.wfc.creditsToRefill) } }, t)
  else pure (s, t)

end WaitGc

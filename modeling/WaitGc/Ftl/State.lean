/-
  WAITGC verification — the state of the conventional FTL (`conv_ftl.h`,
  `struct nand_*` of `ssd.h`) and its build-time configuration.

  * `Geometry` is a `struct ssdparams` whose fields are related as
    `ssd_init_params` computes them and whose coordinates fit the fields of
    `struct ppa`; it has one plane per LUN, as `init_lines` asserts.
  * `Build` holds the policy macros.  The table of `IsoTable` passed the
    `#error` checks of `conv_ftl.h`.
  * `ConvFtl` is one FTL instance together with the flash array of its
    `struct ssd` (the nested arrays `ch[].lun[].pl[].blk[]` are one map from
    block addresses).  A `struct line *` is the index of the line in
    `lm->lines`.
-/
import WaitGc.Timing
import WaitGc.Pqueue

namespace WaitGc

open Outcome Function

/-! ## Configuration -/

/-- A geometry the page addresses can express. -/
structure Geometry extends SsdParams where
  secs_pos : 0 < secsPerPg
  nchs_pos : 0 < nchs
  luns_pos : 0 < lunsPerCh
  blks_pos : 0 < blksPerPl
  oneshotpg_pos : 0 < pgsPerOneshotpg
  oneshotpgs_pos : 0 < oneshotpgsPerBlk
  pgsz_eq : pgsz = LBA_SIZE * secsPerPg
  plsPerLun_eq : plsPerLun = 1
  pgsPerBlk_eq : pgsPerBlk = oneshotpgsPerBlk * pgsPerOneshotpg
  flashpgs_eq : flashpgsPerBlk * pgsPerFlashpg = pgsPerBlk
  pgsPerPl_eq : pgsPerPl = pgsPerBlk * blksPerPl
  pgsPerLun_eq : pgsPerLun = pgsPerPl * plsPerLun
  pgsPerCh_eq : pgsPerCh = pgsPerLun * lunsPerCh
  ttPgs_eq : ttPgs = pgsPerCh * nchs
  blksPerLine_eq : blksPerLine = lunsPerCh * nchs
  pgsPerLine_eq : pgsPerLine = blksPerLine * pgsPerBlk
  ttLines_eq : ttLines = blksPerPl * plsPerLun
  nchs_le : nchs ≤ 2 ^ 8
  luns_le : lunsPerCh ≤ 2 ^ 8
  blks_le : blksPerPl ≤ 2 ^ 16
  pgs_le : pgsPerBlk ≤ 2 ^ 16

/-- `struct convparams`. -/
structure ConvParams where
  gcThresLines : ℕ
  gcThresLinesHigh : ℕ
  enableGcDelay : Bool
  pbaPcent : ℕ

/-- `conv_init_params`; `pba_pcent` is `(int)((1 + 0.07) * 100)`. -/
def convInitParams : ConvParams where
  gcThresLines := 2
  gcThresLinesHigh := 2
  enableGcDelay := true
  pbaPcent := 107

/-- `CONV_CB_AGE_PROFILE`. -/
inductive CbAgeProfile where
  | rawLinear
  | flat
  | cat7
  | coarse3
  | earlySat
  | lateRamp
  | aggressive7
  deriving DecidableEq, Repr

/-- The deployment table of mode 3: `CONV_ISO_STEP_COUNT`, the boundaries
    `CONV_ISO_AGE_T1_NS ..` and the values `CONV_ISO_AGE_V1 ..`, with the checks
    the preprocessor makes. -/
structure IsoTable where
  stepCount : ℕ
  boundary : ℕ → ℕ
  value : ℕ → ℕ
  stepCount_pos : 1 ≤ stepCount
  stepCount_le : stepCount ≤ 7
  value_zero : value 0 = 1
  boundary_pos : 2 ≤ stepCount → 0 < boundary 0
  boundary_lt : ∀ i, i + 2 < stepCount → boundary i < boundary (i + 1)
  value_le : ∀ i, i + 1 < stepCount → value i ≤ value (i + 1)

/-- `CONV_GC_POLICY`, with the constants of the policy. -/
inductive GcPolicy where
  | greedy
  | ageCb (profile : CbAgeProfile)
  | isotonic (table : IsoTable)

/-- The build-time switches. -/
structure Build where
  policy : GcPolicy
  isoLogSamples : Bool
  isoSampleHorizonNs : ℕ

/-- What is fixed when the module is loaded. -/
structure Cfg where
  geo : Geometry
  cp : ConvParams
  build : Build
  nrParts : ℕ
  nrParts_pos : 0 < nrParts

/-- `ssd->sp`, shared by all instances. -/
abbrev Cfg.sp (c : Cfg) : SsdParams := c.geo.toSsdParams

/-! ## Flash array -/

/-- `PG_FREE`, `PG_INVALID`, `PG_VALID`. -/
inductive PgStatus where
  | free
  | invalid
  | valid
  deriving DecidableEq, Repr

/-- The indices of `ch[].lun[].pl[].blk[]`. -/
structure BlkAddr where
  ch : ℕ
  lun : ℕ
  pl : ℕ
  blk : ℕ
  deriving DecidableEq, Repr

/-- `struct nand_block` with the status of its pages. -/
structure NandBlock where
  pg : ℕ → PgStatus
  ipc : ℕ
  vpc : ℕ
  eraseCnt : ℕ

/-- The block of a page (`get_blk`). -/
def Ppa.blkAddr (p : Ppa) : BlkAddr := ⟨p.ch.toNat, p.lun.toNat, p.pl.toNat, p.blk.toNat⟩

/-- The line of a page (`get_line`). -/
def Ppa.line (p : Ppa) : ℕ := p.blk.toNat

/-! ## Lines, write pointers, counters -/

/-- `struct line`. -/
structure Line where
  id : ℕ
  ipc : ℕ
  vpc : ℕ
  pos : ℕ
  lastModifiedTime : ℕ
  isoSampleActive : Bool
  isoSampleIpc : ℕ
  isoSampleAgeNs : ℕ
  isoSampleStartNs : ℕ

/-- The callbacks `victim_line_*`. -/
def victimLine : PqueueOps Line where
  cmppri next curr := curr < next
  getpri l := l.vpc
  setpri l pri := { l with vpc := pri }
  getpos l := l.pos
  setpos l pos := { l with pos := pos }

/-- `struct write_pointer`. -/
structure WritePointer where
  curline : ℕ
  ch : ℕ
  lun : ℕ
  pg : ℕ
  blk : ℕ
  pl : ℕ
  deriving DecidableEq, Repr

/-- `USER_IO`, `GC_IO`. -/
inductive IoType where
  | userIo
  | gcIo
  deriving DecidableEq, Repr

/-- `struct line_mgmt`. -/
structure LineMgmt where
  lines : ℕ → Line
  freeLineList : List ℕ
  victimLinePq : Pqueue
  fullLineList : List ℕ
  ttLines : ℕ
  freeLineCnt : ℕ
  victimLineCnt : ℕ
  fullLineCnt : ℕ

/-- `struct write_flow_control`. -/
structure WriteFlowControl where
  writeCredits : ℕ
  creditsToRefill : ℕ

/-- The WAF counters and the victim-selection diagnostics of
    `struct conv_ftl`. -/
structure GcStats where
  gcCnt : ℕ
  gcValidCopied : ℕ
  hostWritePages : ℕ
  gcVictimVpcSum : ℕ
  gcDiffFromGreedy : ℕ
  gcSelectedAgeNsSum : ℕ
  gcSelectedAgeValueSum : ℕ
  gcSelectedScoreSum : ℕ
  gcCandidatesAvailableSum : ℕ
  gcCandidateEvalCount : ℕ
  gcCandidateAgeNsSum : ℕ
  gcCandidateAgeNsMin : ℕ
  gcCandidateAgeNsMax : ℕ
  gcCandidateLevelHist : ℕ → ℕ
  gcSelectedLevelHist : ℕ → ℕ
  gcSelectedAgeNsMin : ℕ
  gcSelectedAgeNsMax : ℕ
  gcGreedyRefAgeNsSum : ℕ
  gcGreedyRefVpcSum : ℕ
  gcExtraVpcVsGreedySum : ℕ
  gcForcedCnt : ℕ
  gcZeroVpcVictimCnt : ℕ
  gcVictimVpcMin : ℕ
  gcVictimVpcMax : ℕ
  isoSamplesCompleted : ℕ
  isoSamplesCensored : ℕ

/-- One `[ISO-SAMPLE]` record. -/
structure IsoSample where
  part : ℕ
  line : ℕ
  ageNs : ℕ
  futureInvalidPages : ℕ
  horizonNs : ℕ
  startIpc : ℕ
  endIpc : ℕ
  deriving DecidableEq, Repr

/-- `struct conv_ftl`.  `isoLog` is the list of samples printed so far. -/
structure ConvFtl where
  maptbl : ℕ → Ppa
  rmap : ℕ → ℕ
  blk : BlkAddr → NandBlock
  wp : WritePointer
  gcWp : WritePointer
  lm : LineMgmt
  wfc : WriteFlowControl
  partId : ℕ
  curNsecs : ℕ
  dsmInvalidatedPages : ℕ
  stats : GcStats
  isoLog : List IsoSample

namespace ConvFtl

/-- `get_pg(..)->status`. -/
def status (s : ConvFtl) (p : Ppa) : PgStatus := (s.blk p.blkAddr).pg p.pg.toNat

/-- `__get_wp`. -/
def getWp (s : ConvFtl) : IoType → WritePointer
  | .userIo => s.wp
  | .gcIo => s.gcWp

/-- `*__get_wp(io_type) = wp`. -/
def setWp (s : ConvFtl) (io : IoType) (wp : WritePointer) : ConvFtl :=
  match io with
  | .userIo => { s with wp := wp }
  | .gcIo => { s with gcWp := wp }

end ConvFtl

/-- The queue operations return to the FTL, or stop at a stray pointer. -/
def LineMgmt.withPq (lm : LineMgmt) : Option (Pqueue × (ℕ → Line)) → Except Fault LineMgmt
  | some (q, lines) => .ok { lm with victimLinePq := q, lines := lines }
  | none => .error .wildPointer

end WaitGc

/-
  WAITGC verification — the NAND reads that `conv_read` issues.

  The handler keeps the clocks and the latest completion only.  Here the commands it
  passes to `ssd_advance_nand` stand in a list, in the order of its loops; each
  definition follows the one of the handler that it is named after.

  `convRead_replays`: the list is what the handler does.  Passed to
  `ssd_advance_nand` one after the other, its commands complete at the times noted,
  take the clocks to those the handler leaves, and give its target time.
-/
import WaitGc.Ftl.Commands
import WaitGc.Lib.Traverse

namespace WaitGc

open Traverse

section
variable (c : Cfg)

/-- The flash page of a page: its block, and its place in the block. -/
def Ppa.flashPg (sp : SsdParams) (p : Ppa) : BitVec 40 × ℕ := (p.blkInSsd, p.pg.toNat / sp.pgsPerFlashpg)

/-- A read that `conv_read` issued, and when it completes. -/
structure IssuedRead where
  part : ℕ
  ncmd : NandCmd
  nsecsCompleted : ℕ

/-- The read that `readIssue` issues. -/
def readIssued (part stime : ℕ) (r : ReadState) : List IssuedRead :=
  if 0 < r.xferSize then
    let ncmd : NandCmd := ⟨.read, r.xferSize, stime, true, r.prevPpa⟩
    [⟨part, ncmd, (ssdAdvanceNand c.sp part r.timing ncmd).1⟩]
  else []

/-- The read that `readLpn` issues. -/
def readLpnIssued (s : ConvFtl) (part stime : ℕ) (r : ReadState) (lpn : ℕ) : List IssuedRead :=
  let curPpa := s.maptbl (lpn / c.nrParts)
  if !mappedPpa curPpa || !validPpa c.sp curPpa then []
  else if mappedPpa r.prevPpa && isSameFlashPage c.sp curPpa r.prevPpa then []
  else readIssued c part stime r

/-- The reads that `readPart` issues. -/
def readPartIssued (d : Dev) (last stime : ℕ) (r : ReadState) (first : ℕ) : List IssuedRead :=
  let part := first % c.nrParts
  let s := d.ftls part
  let lpns := List.range' first ((last - first) / c.nrParts + 1) c.nrParts
  let r := { r with xferSize := 0, prevPpa := s.maptbl (first / c.nrParts) }
  foldOut (readLpn c s part stime) (readLpnIssued c s part stime) r lpns ++
    readIssued c part stime (lpns.foldl (readLpn c s part stime) r)

/-- The reads that `conv_read` issues, in order. -/
def convReadIssued (d : Dev) (rw : RwCommand) (nsecsStart : ℕ) : List IssuedRead :=
  let first := startLpn c.sp rw.slba
  let last := endLpn c.sp rw.slba rw.nrLba
  if c.sp.ttPgs ≤ last / c.nrParts then []
  else
    let stime :=
      u64 (nsecsStart + if rw.bytes ≤ 4096 * c.nrParts then c.sp.fw4kbRdLat else c.sp.fwRdLat)
    let parts := (lpnRange first last).take c.nrParts
    foldOut (readPart c d last stime) (readPartIssued c d last stime) ⟨d.timing, 0, .unmapped, nsecsStart⟩ parts

end

/-! ## The replay -/

variable {c : Cfg}

/-- The reads, passed to `ssd_advance_nand` one after the other, complete at the times
    noted and take the clocks from the first ones to the last. -/
inductive Replays (sp : SsdParams) : Timing → List IssuedRead → Timing → Prop
  | nil (t : Timing) : Replays sp t [] t
  | cons {t t' : Timing} {x : IssuedRead} {log : List IssuedRead} :
      x.nsecsCompleted = (ssdAdvanceNand sp x.part t x.ncmd).1 →
      Replays sp (ssdAdvanceNand sp x.part t x.ncmd).2 log t' → Replays sp t (x :: log) t'

theorem Replays.append {sp : SsdParams} {t t' t'' : Timing} {log log' : List IssuedRead}
    (h : Replays sp t log t') (h' : Replays sp t' log' t'') : Replays sp t (log ++ log') t'' := by
  induction h with
  | nil => exact h'
  | cons hx _ ih => exact .cons hx (ih h')

/-- `nsecs_latest`, after the reads. -/
def latestOf (nsecsLatest : ℕ) (log : List IssuedRead) : ℕ :=
  log.foldl (fun latest x => max x.nsecsCompleted latest) nsecsLatest

theorem le_latestOf (nsecsLatest : ℕ) (log : List IssuedRead) : nsecsLatest ≤ latestOf nsecsLatest log := by
  induction log generalizing nsecsLatest with
  | nil => exact le_rfl
  | cons x log ih => exact (le_max_right _ _).trans (ih _)

theorem completed_le_latestOf {nsecsLatest : ℕ} {log : List IssuedRead} {x : IssuedRead} (h : x ∈ log) :
    x.nsecsCompleted ≤ latestOf nsecsLatest log := by
  induction log generalizing nsecsLatest with
  | nil => cases h
  | cons y log ih =>
    rcases List.mem_cons.1 h with rfl | h
    · exact (le_max_left _ _).trans (le_latestOf _ log)
    · exact ih h

/-- The reads take the variables of the loops from `r` to `r'`. -/
structure Issues (c : Cfg) (r : ReadState) (log : List IssuedRead) (r' : ReadState) : Prop where
  replays : Replays c.sp r.timing log r'.timing
  latest : r'.nsecsLatest = latestOf r.nsecsLatest log

theorem Issues.of_eq {r r' : ReadState} (htiming : r'.timing = r.timing)
    (hlatest : r'.nsecsLatest = r.nsecsLatest) : Issues c r [] r' := by
  refine ⟨?_, hlatest⟩
  rw [htiming]
  exact .nil _

theorem Issues.trans {r r' r'' : ReadState} {log log' : List IssuedRead} (h : Issues c r log r')
    (h' : Issues c r' log' r'') : Issues c r (log ++ log') r'' := by
  refine ⟨h.replays.append h'.replays, ?_⟩
  rw [h'.latest, h.latest, latestOf, latestOf, latestOf, List.foldl_append]

theorem Issues.foldl {α : Type} {step : ReadState → α → ReadState} {out : ReadState → α → List IssuedRead}
    (h : ∀ r a, Issues c r (out r a) (step r a)) (r : ReadState) (l : List α) :
    Issues c r (foldOut step out r l) (l.foldl step r) :=
  fold_inv (fun _ r' log => Issues c r log r') (fun _ a _ r' _ _ hr' => hr'.trans (h r' a)) (.of_eq rfl rfl)

theorem readIssue_issues (part stime : ℕ) (r : ReadState) :
    Issues c r (readIssued c part stime r) (readIssue c part stime r) := by
  unfold readIssued readIssue
  by_cases hx : 0 < r.xferSize
  · rw [if_pos hx, if_pos hx]
    exact ⟨.cons rfl (.nil _), rfl⟩
  · rw [if_neg hx, if_neg hx]
    exact .of_eq rfl rfl

theorem readLpn_issues (s : ConvFtl) (part stime : ℕ) (r : ReadState) (lpn : ℕ) :
    Issues c r (readLpnIssued c s part stime r lpn) (readLpn c s part stime r lpn) := by
  unfold readLpnIssued readLpn
  dsimp only
  split_ifs
  · exact .of_eq rfl rfl
  · exact .of_eq rfl rfl
  · have h := readIssue_issues (c := c) part stime r
    exact ⟨h.replays, h.latest⟩

theorem readPart_issues (d : Dev) (last stime : ℕ) (r : ReadState) (first : ℕ) :
    Issues c r (readPartIssued c d last stime r first) (readPart c d last stime r first) := by
  have hloop := Issues.foldl (readLpn_issues (c := c) (d.ftls (first % c.nrParts)) (first % c.nrParts) stime)
    { r with xferSize := 0, prevPpa := (d.ftls (first % c.nrParts)).maptbl (first / c.nrParts) }
    (List.range' first ((last - first) / c.nrParts + 1) c.nrParts)
  have h := hloop.trans (readIssue_issues (first % c.nrParts) stime _)
  exact ⟨h.replays, h.latest⟩

/-- **The list is what `conv_read` does**: the commands in it take the clocks of the device
    to those the handler leaves, and the handler changes nothing else of it. -/
theorem convRead_replays (d : Dev) {rw : RwCommand} (nsecsStart : ℕ)
    (hin : ¬ c.sp.ttPgs ≤ endLpn c.sp rw.slba rw.nrLba / c.nrParts) :
    ∃ timing, Replays c.sp d.timing (convReadIssued c d rw nsecsStart) timing ∧
      convRead c d rw nsecsStart = (some ⟨.success, latestOf nsecsStart (convReadIssued c d rw nsecsStart)⟩,
        { d with timing := timing }) := by
  unfold convRead convReadIssued
  dsimp only
  rw [if_neg hin, if_neg hin]
  have h := Issues.foldl (readPart_issues (c := c) d (endLpn c.sp rw.slba rw.nrLba)
    (u64 (nsecsStart + if rw.bytes ≤ 4096 * c.nrParts then c.sp.fw4kbRdLat else c.sp.fwRdLat)))
    ⟨d.timing, 0, .unmapped, nsecsStart⟩
    ((lpnRange (startLpn c.sp rw.slba) (endLpn c.sp rw.slba rw.nrLba)).take c.nrParts)
  exact ⟨_, h.replays, by rw [h.latest]⟩

end WaitGc

/-
  WAITGC verification — the timing model (`channel_model.c`, the `ssd_advance_*`
  functions of `ssd.c`) and the write buffer (`ssd.c`).

  Time is in nanoseconds, in 64 bits.  The clocks of the kernel are an input:
  `Timing.clock` is the sequence of values that successive readings of
  `cpu_clock` and `local_clock` return, and `tick` counts the readings.

  A channel model carries the two bounds its functions keep: the head is a
  slot, and at most all slots are in use.  So the assertion on `valid_len` in
  `chmodel_request` cannot fail, and the function is total.
-/
import WaitGc.Geometry

namespace WaitGc

open Outcome

/-! ## Channel model -/

def NR_CREDIT_ENTRIES : ℕ := 1024 * 2048
def UNIT_TIME_INTERVAL : ℕ := 4000
def UNIT_XFER_SIZE : ℕ := 128
def UNIT_XFER_CREDITS : ℕ := 1

theorem nrCreditEntries_pos : 0 < NR_CREDIT_ENTRIES := by decide

/-- `struct channel_model`. -/
structure ChannelModel where
  curTime : ℕ
  head : ℕ
  validLen : ℕ
  maxCredits : ℕ
  commandCredits : ℕ
  xferLat : ℕ
  availCredits : ℕ → ℕ
  head_lt : head < NR_CREDIT_ENTRIES
  validLen_le : validLen ≤ NR_CREDIT_ENTRIES

/-- `MEMSET(&avail[lo], v, len)`; an entry is one byte. -/
def memset (avail : ℕ → ℕ) (lo len v : ℕ) : ℕ → ℕ :=
  fun j => if lo ≤ j ∧ j < lo + len then v % 2 ^ 8 else avail j

/-- `chmodel_init`. -/
def chmodelInit (bandwidth : ℕ) : ChannelModel where
  curTime := 0
  head := 0
  validLen := 0
  maxCredits := u32 ((bandwidth <<< 20) * UNIT_TIME_INTERVAL / 1000000000 / UNIT_XFER_SIZE *
    UNIT_XFER_CREDITS)
  commandCredits := 0
  xferLat := u32 (UNIT_XFER_SIZE * 1000000000 / (bandwidth <<< 20))
  availCredits := memset (fun _ => 0) 0 NR_CREDIT_ENTRIES ((bandwidth <<< 20) *
    UNIT_TIME_INTERVAL / 1000000000 / UNIT_XFER_SIZE * UNIT_XFER_CREDITS)
  head_lt := nrCreditEntries_pos
  validLen_le := Nat.zero_le _

/-- "Search current time index and move head to it". -/
def ChannelModel.advance (ch : ChannelModel) (curTime : ℕ) : ChannelModel :=
  let offs := u32 (sub64 (curTime / UNIT_TIME_INTERVAL) (ch.curTime / UNIT_TIME_INTERVAL))
  let offs := if offs < ch.validLen then offs else ch.validLen
  { ch with
    availCredits :=
      if NR_CREDIT_ENTRIES ≤ ch.head + offs then
        memset (memset ch.availCredits ch.head (NR_CREDIT_ENTRIES - ch.head) ch.maxCredits) 0
          (offs - (NR_CREDIT_ENTRIES - ch.head)) ch.maxCredits
      else memset ch.availCredits ch.head offs ch.maxCredits
    head := (ch.head + offs) % NR_CREDIT_ENTRIES
    curTime := curTime
    validLen := ch.validLen - offs
    head_lt := Nat.mod_lt _ (by decide)
    validLen_le := (Nat.sub_le _ _).trans ch.validLen_le }

/-- The loop that takes credits slot by slot from `pos` on; it ends when the
    request is served or the slot before `head` is reached. -/
def takeCredits (head : ℕ) : ℕ → ℕ → ℕ → ℕ → (ℕ → ℕ) → ℕ × ℕ × (ℕ → ℕ)
  | 0, pos, _, delay, avail => (pos, delay, avail)
  | fuel + 1, pos, remaining, delay, avail =>
    let consumed := if remaining ≤ avail pos then remaining else avail pos
    let avail := Function.update avail pos (avail pos - consumed)
    let remaining := remaining - consumed
    if remaining ≠ 0 then
      let next := (pos + 1) % NR_CREDIT_ENTRIES
      if next ≠ head then takeCredits head fuel next remaining (delay + 1) avail
      else (pos, delay, avail)
    else (pos, delay, avail)

/-- The number of slots from `head` to `pos`, both included. -/
def slotsUpTo (head pos : ℕ) : ℕ :=
  if head ≤ pos then pos - head + 1 else NR_CREDIT_ENTRIES - (head - pos - 1)

theorem takeCredits_lt {head : ℕ} : ∀ {fuel pos remaining delay : ℕ} {avail : ℕ → ℕ},
    pos < NR_CREDIT_ENTRIES →
      (takeCredits head fuel pos remaining delay avail).1 < NR_CREDIT_ENTRIES
  | 0, _, _, _, _, h => h
  | fuel + 1, pos, remaining, delay, avail, h => by
    unfold takeCredits
    dsimp only
    generalize (if remaining ≤ avail pos then remaining else avail pos) = consumed
    split_ifs
    · exact takeCredits_lt (Nat.mod_lt _ (by decide))
    · exact h
    · exact h

theorem slotsUpTo_le {head pos : ℕ} (h : pos < NR_CREDIT_ENTRIES) :
    slotsUpTo head pos ≤ NR_CREDIT_ENTRIES := by
  unfold slotsUpTo; split_ifs <;> omega

/-- `chmodel_request`, with the reading `curTime` of the wall clock. -/
def chmodelRequest (ch : ChannelModel) (curTime requestTime length : ℕ) : ℕ × ChannelModel :=
  let unitsToXfer := u32 (divRoundUp length UNIT_XFER_SIZE)
  let ch := ch.advance curTime
  if requestTime < curTime then (requestTime, ch)
  else
    let requestTimeOffs :=
      u32 (sub64 (requestTime / UNIT_TIME_INTERVAL) (curTime / UNIT_TIME_INTERVAL))
    if NR_CREDIT_ENTRIES ≤ requestTimeOffs then (requestTime, ch)
    else
      let pos := (ch.head + requestTimeOffs) % NR_CREDIT_ENTRIES
      let remaining := u32 (u32 (unitsToXfer * UNIT_XFER_CREDITS) + ch.commandCredits)
      let defaultDelay := remaining / ch.maxCredits
      let r := takeCredits ch.head NR_CREDIT_ENTRIES pos remaining 0 ch.availCredits
      let validLength := slotsUpTo ch.head r.1
      let delay := if defaultDelay < r.2.1 then r.2.1 - defaultDelay else 0
      let totalLatency := u64 (u32 (ch.xferLat * unitsToXfer) + delay * UNIT_TIME_INTERVAL)
      (u64 (requestTime + totalLatency),
        { ch with
          availCredits := r.2.2
          validLen := if ch.validLen < validLength then validLength else ch.validLen
          validLen_le := by
            have h : validLength ≤ NR_CREDIT_ENTRIES :=
              slotsUpTo_le (takeCredits_lt (Nat.mod_lt _ (by decide)))
            split_ifs
            · exact h
            · exact ch.validLen_le })

/-! ## NAND, PCIe and write buffer latencies -/

/-- The clocks of one `struct ssd`: its channels and its LUNs, a LUN named by
    its channel and its number. -/
structure NandTiming where
  perfModel : ℕ → ChannelModel
  nextLunAvailTime : ℕ × ℕ → ℕ
  gcEndtime : ℕ × ℕ → ℕ

/-- The clocks of the device.  All instances share `pcie`. -/
structure Timing where
  ssd : ℕ → NandTiming
  pcie : ChannelModel
  clock : ℕ → ℕ
  tick : ℕ

/-- The clocks `ssd_init` sets up. -/
def Timing.init (sp : SsdParams) (clock : ℕ → ℕ) : Timing where
  ssd _ :=
    { perfModel := fun _ =>
        let ch := chmodelInit sp.chBandwidth
        { ch with xferLat := u32 (ch.xferLat + sp.fwChXferLat * UNIT_XFER_SIZE / 4096) }
      nextLunAvailTime := fun _ => 0
      gcEndtime := fun _ => 0 }
  pcie := chmodelInit sp.pcieBandwidth
  clock := clock
  tick := 0

/-- One reading of the clock. -/
def Timing.readClock (t : Timing) : ℕ × Timing := (u64 (t.clock t.tick), { t with tick := t.tick + 1 })

/-- Change the clocks of one instance. -/
def Timing.modSsd (t : Timing) (part : ℕ) (f : NandTiming → NandTiming) : Timing :=
  { t with ssd := Function.update t.ssd part (f (t.ssd part)) }

/-- The command of a `struct nand_cmd`. -/
inductive NandOp where
  | read
  | write
  | erase
  | nop
  deriving DecidableEq, Repr

/-- `struct nand_cmd`. -/
structure NandCmd where
  cmd : NandOp
  xferSize : ℕ
  stime : ℕ
  interleavePciDma : Bool
  ppa : Ppa

/-- `ssd_advance_pcie`. -/
def ssdAdvancePcie (t : Timing) (requestTime length : ℕ) : ℕ × Timing :=
  let (now, t) := t.readClock
  let (time, pcie) := chmodelRequest t.pcie now requestTime length
  (time, { t with pcie })

/-- `chmodel_request` on a NAND channel. -/
def ssdAdvanceChannel (t : Timing) (part ch : ℕ) (requestTime length : ℕ) : ℕ × Timing :=
  let (now, t) := t.readClock
  let (time, m) := chmodelRequest ((t.ssd part).perfModel ch) now requestTime length
  (time, t.modSsd part fun s => { s with perfModel := Function.update s.perfModel ch m })

/-- `ssd_advance_write_buffer`. -/
def ssdAdvanceWriteBuffer (sp : SsdParams) (t : Timing) (requestTime length : ℕ) : ℕ × Timing :=
  ssdAdvancePcie t (u64 (requestTime + sp.fwWbufLat0 + sp.fwWbufLat1 * divRoundUp length 4096))
    length

/-- `get_cell`. -/
def getCell (sp : SsdParams) (p : Ppa) : ℕ := p.pg.toNat / sp.pgsPerFlashpg % sp.cellMode

/-- The transfer loop of `NAND_READ`: the time the channel is done, and the
    completion time. -/
def readXfer (sp : SsdParams) (part ch : ℕ) (dma : Bool) :
    ℕ → ℕ → ℕ → ℕ → Timing → ℕ × ℕ × Timing
  | 0, _, chnl, completed, t => (chnl, completed, t)
  | fuel + 1, remaining, chnl, completed, t =>
    if remaining = 0 then (chnl, completed, t)
    else
      let xferSize := min remaining sp.maxChXferSize
      let (chnl, t) := ssdAdvanceChannel t part ch chnl xferSize
      let (completed, t) := if dma then ssdAdvancePcie t chnl xferSize else (chnl, t)
      readXfer sp part ch dma fuel (remaining - xferSize) chnl completed t

/-- `lun->next_lun_avail_time = time`. -/
def Timing.setLun (t : Timing) (part : ℕ) (p : Ppa) (time : ℕ) : Timing :=
  t.modSsd part fun s =>
    { s with nextLunAvailTime :=
        Function.update s.nextLunAvailTime (p.ch.toNat, p.lun.toNat) time }

/-- `ssd_advance_nand`: the completion time. -/
def ssdAdvanceNand (sp : SsdParams) (part : ℕ) (t : Timing) (ncmd : NandCmd) : ℕ × Timing :=
  let (cmdStime, t) := if ncmd.stime = 0 then t.readClock else (ncmd.stime, t)
  let p := ncmd.ppa
  if p.ppa = UNMAPPED_PPA then (cmdStime, t)
  else
    let start := max ((t.ssd part).nextLunAvailTime (p.ch.toNat, p.lun.toNat)) cmdStime
    match ncmd.cmd with
    | .read =>
      -- perform NAND cmd first, then data transfer through channel
      let lat := if ncmd.xferSize = 4096 then sp.pg4kbRdLat (getCell sp p)
        else sp.pgRdLat (getCell sp p)
      let (chnl, completed, t) := readXfer sp part p.ch.toNat ncmd.interleavePciDma ncmd.xferSize
        ncmd.xferSize (u64 (start + lat)) 0 t
      (completed, t.setLun part p chnl)
    | .write =>
      -- transfer data through channel first, then do NAND program
      let (chnl, t) := ssdAdvanceChannel t part p.ch.toNat start ncmd.xferSize
      let etime := u64 (chnl + sp.pgWrLat)
      (etime, t.setLun part p etime)
    | .erase =>
      let etime := u64 (start + sp.blkErLat)
      (etime, t.setLun part p etime)
    | .nop => (start, t.setLun part p start)

/-- `ssd_next_idle_time`. -/
def ssdNextIdleTime (sp : SsdParams) (part : ℕ) (t : Timing) : ℕ × Timing :=
  let (now, t) := t.readClock
  let luns := (List.range sp.nchs).flatMap fun i => (List.range sp.lunsPerCh).map fun j => (i, j)
  (luns.foldl (fun latest l => max latest ((t.ssd part).nextLunAvailTime l)) now, t)

/-! ## Write buffer -/

/-- `struct buffer`. -/
structure Buffer where
  size : ℕ
  remaining : ℕ
  deriving DecidableEq, Repr

/-- `buffer_init`. -/
def bufferInit (size : ℕ) : Buffer := ⟨size, size⟩

/-- `buffer_allocate`: the allocated size, `0` if the buffer is short. -/
def bufferAllocate (buf : Buffer) (size : ℕ) : Except Fault (ℕ × Buffer) := do
  nvmevAssert (size ≤ buf.size) .bufferSize
  let size := if buf.remaining < size then 0 else size
  pure (u32 size, { buf with remaining := buf.remaining - size })

/-- The space a buffer gives: all or nothing. -/
theorem bufferAllocate_short {buf : Buffer} {size : ℕ} {a : ℕ × Buffer} (hsize : size < 2 ^ 32)
    (hpos : 0 < size) (h : bufferAllocate buf size = .ok a) : a.1 < size ↔ buf.remaining < size := by
  unfold bufferAllocate at h
  obtain ⟨-, -, h⟩ := bind_eq_ok h
  cases h
  dsimp only
  split_ifs with hshort
  · exact iff_of_true hpos hshort
  · rw [show u32 size = size from Nat.mod_eq_of_lt hsize]
    exact iff_of_false (lt_irrefl _) hshort

/-- `buffer_release`. -/
def bufferRelease (buf : Buffer) (size : ℕ) : Buffer :=
  { buf with remaining := u64 (buf.remaining + size) }

end WaitGc

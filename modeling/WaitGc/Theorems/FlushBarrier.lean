/-
  WAITGC verification — flushes of the I/O-unit timing model.

  `__schedule_io_units` looks at the busy time of its first unit only, and
  overwrites those of the others.  `flush_barrier`: a flush waits for every
  earlier command if no command finds a unit busy for longer than the busy times
  that it leaves.
-/
import WaitGc.Io.IoUnits
import Mathlib.Data.Finset.Lattice.Fold
import Mathlib.Data.Nat.ModEq
import Mathlib.Order.Lattice.Nat

namespace WaitGc

open Outcome Function

variable {cfg : IoUnitConfig} {times : IoTimes} {j : IoTurn} {e : IoCall} {stat : ℕ → ℕ} {r r' : UnitRun}

/-! ## The loop -/

/-- The number of turns of the loop for `length` bytes. -/
def ioTurns (cfg : IoUnitConfig) (length : ℕ) : ℕ :=
  max 1 ((length + ioUnitSize cfg - 1) / ioUnitSize cfg)

theorem ioUnitSize_pos (cfg : IoUnitConfig) : 0 < ioUnitSize cfg := Nat.two_pow_pos _

theorem ioTurns_pos (cfg : IoUnitConfig) (length : ℕ) : 0 < ioTurns cfg length :=
  Nat.lt_of_lt_of_le Nat.one_pos (le_max_left _ _)

theorem ioTurns_of_le (cfg : IoUnitConfig) (length : ℕ) (h : length ≤ ioUnitSize cfg) : ioTurns cfg length = 1 := by
  have hpos := ioUnitSize_pos cfg
  refine max_eq_left ?_
  calc (length + ioUnitSize cfg - 1) / ioUnitSize cfg
      ≤ (2 * ioUnitSize cfg - 1) / ioUnitSize cfg := Nat.div_le_div_right (by omega)
    _ ≤ 1 := Nat.le_of_lt_succ ((Nat.div_lt_iff_lt_mul hpos).2 (by omega))

theorem ioTurns_of_gt (cfg : IoUnitConfig) (length : ℕ) (h : ioUnitSize cfg < length) :
    ioTurns cfg length = ioTurns cfg (length - ioUnitSize cfg) + 1 := by
  have hpos := ioUnitSize_pos cfg
  have hone : 1 ≤ (length - ioUnitSize cfg + ioUnitSize cfg - 1) / ioUnitSize cfg :=
    (Nat.one_le_div_iff hpos).2 (by omega)
  have hdiv : (length + ioUnitSize cfg - 1) / ioUnitSize cfg =
      (length - ioUnitSize cfg + ioUnitSize cfg - 1) / ioUnitSize cfg + 1 := by
    rw [← Nat.add_div_right _ hpos]
    congr 1
    omega
  rw [ioTurns, ioTurns, hdiv, max_eq_right hone]
  exact max_eq_right (by omega)

theorem ioTurns_le (cfg : IoUnitConfig) (length : ℕ) : ioTurns cfg length ≤ length + 1 := by
  have hpos := ioUnitSize_pos cfg
  induction length using Nat.strong_induction_on with
  | _ length ih =>
    by_cases h : length ≤ ioUnitSize cfg
    · rw [ioTurns_of_le cfg length h]
      omega
    · rw [ioTurns_of_gt cfg length (by omega)]
      have := ih (length - ioUnitSize cfg) (by omega)
      omega

/-- The loop ends by itself. -/
theorem IoTurn.loop_eq : ∀ {fuel : ℕ} {j : IoTurn}, ioTurns cfg j.length ≤ fuel →
    IoTurn.loop cfg times fuel j = (IoTurn.next cfg times)^[ioTurns cfg j.length] j
  | 0, j, h => absurd h (ioTurns_pos cfg j.length).not_ge
  | fuel + 1, j, h => by
    have hlen : (j.next cfg times).length = j.length - ioUnitSize cfg := by
      show j.length - min j.length (ioUnitSize cfg) = _
      omega
    unfold loop
    dsimp only
    by_cases hlt : 0 < (j.next cfg times).length
    · have hturns := ioTurns_of_gt cfg j.length (by omega)
      rw [if_pos hlt, loop_eq (by rw [hlen]; omega), hlen, hturns, iterate_succ_apply]
    · rw [if_neg hlt, ioTurns_of_le cfg j.length (by omega)]
      rfl

theorem IoTurn.next_ioUnit (times : IoTimes) {a m : ℕ} (h : j.ioUnit = (a + m) % cfg.nrIoUnits) :
    (j.next cfg times).ioUnit = (a + (m + 1)) % cfg.nrIoUnits := by
  have hpos := cfg.nrIoUnits_pos
  have hlt := cfg.nrIoUnits_lt
  have hunit : j.ioUnit < cfg.nrIoUnits := h ▸ Nat.mod_lt _ hpos
  have hu32 : u32 (j.ioUnit + 1) = j.ioUnit + 1 := Nat.mod_eq_of_lt (by omega)
  have hnext : (a + (m + 1)) % cfg.nrIoUnits = (j.ioUnit + 1) % cfg.nrIoUnits := by
    rw [h, Nat.mod_add_mod, Nat.add_assoc]
  show (if cfg.nrIoUnits ≤ u32 (j.ioUnit + 1) then 0 else u32 (j.ioUnit + 1)) = _
  rw [hnext, hu32]
  split_ifs with hwrap
  · rw [show j.ioUnit + 1 = cfg.nrIoUnits by omega, Nat.mod_self]
  · rw [Nat.mod_eq_of_lt (by omega)]

/-- What `m` turns from `j` on have done. -/
structure IoTurn.After (cfg : IoUnitConfig) (times : IoTimes) (j : IoTurn) (m : ℕ) (j' : IoTurn) : Prop where
  latest : j'.latest = j.latest + m * times.latency
  ioUnit : j'.ioUnit = (j.ioUnit + m) % cfg.nrIoUnits
  kept (u : ℕ) : (∀ i < m, u ≠ (j.ioUnit + i) % cfg.nrIoUnits) → j'.ioUnitStat u = j.ioUnitStat u
  last (i : ℕ) : m = i + 1 → j'.latest ≤ j'.ioUnitStat ((j.ioUnit + i) % cfg.nrIoUnits)

theorem IoTurn.After.next {m : ℕ} {j' : IoTurn} (h : IoTurn.After cfg times j m j')
    (hfits : j.latest + (m + 1) * times.latency + times.trailing < 2 ^ 64) :
    IoTurn.After cfg times j (m + 1) (j'.next cfg times) := by
  rw [Nat.add_mul, one_mul] at hfits
  have hlatest := h.latest
  have hu64 : u64 (j'.latest + times.latency) = j'.latest + times.latency := Nat.mod_eq_of_lt (by omega)
  constructor
  · show u64 (j'.latest + times.latency) = _
    rw [hu64, hlatest, Nat.add_mul, one_mul, Nat.add_assoc]
  · exact IoTurn.next_ioUnit times h.ioUnit
  · intro u hu
    have hne : u ≠ j'.ioUnit := by
      rw [h.ioUnit]
      exact hu m (Nat.lt_succ_self m)
    rw [← h.kept u fun i hi => hu i (hi.trans (Nat.lt_succ_self m))]
    exact update_of_ne hne _ _
  · intro i hi
    obtain rfl : m = i := Nat.succ.inj hi
    rw [← h.ioUnit]
    show u64 (j'.latest + times.latency) ≤ update j'.ioUnitStat j'.ioUnit _ j'.ioUnit
    rw [update_self, hu64]
    split_ifs
    · rw [show u64 (j'.latest + times.latency + times.trailing) = _ from Nat.mod_eq_of_lt (by omega)]
      exact Nat.le_add_right _ _
    · exact le_rfl

theorem IoTurn.after_iterate (cfg : IoUnitConfig) (times : IoTimes) {j : IoTurn}
    (hunit : j.ioUnit < cfg.nrIoUnits) {m : ℕ}
    (hfits : j.latest + m * times.latency + times.trailing < 2 ^ 64) :
    IoTurn.After cfg times j m ((IoTurn.next cfg times)^[m] j) := by
  induction m with
  | zero =>
    refine ⟨?_, ?_, fun _ _ => rfl, fun i hi => absurd hi (Nat.succ_ne_zero i).symm⟩
    · simp
    · exact (Nat.mod_eq_of_lt hunit).symm
  | succ m ih =>
    rw [iterate_succ_apply']
    refine (ih ?_).next hfits
    rw [Nat.add_mul] at hfits
    omega

theorem IoTurn.nrIoUnits_iterate {n m : ℕ} (hcount : j.nrIoUnits = n) (hn : n < 2 ^ 31) (hm : m ≤ n) :
    ((IoTurn.next cfg times)^[m] j).nrIoUnits = (n - m : ℕ) := by
  induction m with
  | zero => exact hcount
  | succ m ih =>
    rw [iterate_succ_apply']
    change int32 (((IoTurn.next cfg times)^[m] j).nrIoUnits - 1) = _
    rw [ih (by omega), int32, Int.bmod_eq_of_le (by omega) (by omega)]
    omega

/-- The busy time that the last of these turns leaves, if no later one passes its unit. -/
theorem IoTurn.trailing_kept (cfg : IoUnitConfig) (times : IoTimes) {j : IoTurn} {n m : ℕ}
    (hunit : j.ioUnit < cfg.nrIoUnits) (hcount : j.nrIoUnits = n) (hpos : 0 < n)
    (hn : n < 2 ^ 31) (hnm : n ≤ m) (hm : m < n + cfg.nrIoUnits)
    (hfits : j.latest + m * times.latency + times.trailing < 2 ^ 64) :
    ((IoTurn.next cfg times)^[m] j).ioUnitStat ((j.ioUnit + (n - 1)) % cfg.nrIoUnits) =
      j.latest + n * times.latency + times.trailing := by
  obtain ⟨i, rfl⟩ : ∃ i, n = i + 1 := ⟨n - 1, by omega⟩
  obtain ⟨k, rfl⟩ := Nat.exists_eq_add_of_le hnm
  rw [Nat.add_mul, Nat.add_one_mul] at hfits
  have hbefore := IoTurn.after_iterate cfg times (m := i) hunit (by omega)
  have hafter := IoTurn.after_iterate cfg times (m := i + 1) hunit (by rw [Nat.add_one_mul]; omega)
  have hlatest := hafter.latest
  rw [Nat.add_one_mul] at hlatest
  rw [Nat.add_comm (i + 1), iterate_add_apply, Nat.add_sub_cancel]
  -- the later turns stay clear of the unit
  have hrest := IoTurn.after_iterate cfg times (m := k) (j := (IoTurn.next cfg times)^[i + 1] j)
    (by rw [hafter.ioUnit]; exact Nat.mod_lt _ cfg.nrIoUnits_pos) (by rw [hlatest]; omega)
  rw [hrest.kept _ fun l hl heq => ?_, iterate_succ_apply', ← hbefore.ioUnit]
  · have hlatest' := hbefore.latest
    have hu64 {x : ℕ} (hx : x < 2 ^ 64) : u64 x = x := Nat.mod_eq_of_lt hx
    show update _ _ (if 0 < ((IoTurn.next cfg times)^[i] j).nrIoUnits then _ else _) _ = _
    rw [update_self, IoTurn.nrIoUnits_iterate hcount hn (by omega), if_pos (by omega),
      hu64 (show ((IoTurn.next cfg times)^[i] j).latest + times.latency < _ by omega), hlatest',
      hu64 (by omega), Nat.add_one_mul]
    omega
  · rw [hafter.ioUnit, Nat.mod_add_mod, Nat.add_assoc] at heq
    have hmod : Nat.ModEq cfg.nrIoUnits i (i + 1 + l) := Nat.ModEq.add_left_cancel' j.ioUnit heq
    have hdvd := (Nat.modEq_iff_dvd' (by omega)).1 hmod
    rw [show i + 1 + l - i = l + 1 by omega] at hdvd
    have := Nat.le_of_dvd (Nat.succ_pos l) hdvd
    omega

/-! ## A call -/

/-- The call assigns the busy time of unit `u`. -/
def IoCall.Passes (cfg : IoUnitConfig) (e : IoCall) (u : ℕ) : Prop :=
  ∃ i < ioTurns cfg e.length.toNat, u = (ioUnitOf cfg e.lba + i) % cfg.nrIoUnits

/-- When `n` of its turns are done, if the times fit in 64 bits: the command starts with its
    first unit. -/
def IoCall.doneAt (cfg : IoUnitConfig) (stat : ℕ → ℕ) (e : IoCall) (n : ℕ) : ℕ :=
  max e.nsecsStart.toNat (stat (ioUnitOf cfg e.lba)) + (e.times cfg).delay + n * (e.times cfg).latency

/-- When its last unit is done. -/
def IoCall.finish (cfg : IoUnitConfig) (stat : ℕ → ℕ) (e : IoCall) : ℕ :=
  e.doneAt cfg stat (ioTurns cfg e.length.toNat)

/-- `nr_io_units` of the call: in so many turns the trailing time is added. -/
def IoCall.nrTrailing (cfg : IoUnitConfig) (e : IoCall) : ℕ :=
  min cfg.nrIoUnits (u32 (e.length.toNat + ioUnitSize cfg - 1) / ioUnitSize cfg)

/-- The last of these turns is counted by an `int`, and no later turn passes its unit. -/
def IoCall.Trails (cfg : IoUnitConfig) (e : IoCall) : Prop :=
  0 < e.nrTrailing cfg ∧ e.nrTrailing cfg < 2 ^ 31 ∧
    ioTurns cfg e.length.toNat < e.nrTrailing cfg + cfg.nrIoUnits

instance (cfg : IoUnitConfig) (e : IoCall) : Decidable (e.Trails cfg) := inferInstanceAs (Decidable (_ ∧ _))

/-- The latest busy time that the call leaves. -/
def IoCall.busy (cfg : IoUnitConfig) (stat : ℕ → ℕ) (e : IoCall) : ℕ :=
  max (e.finish cfg stat)
    (if e.Trails cfg then e.doneAt cfg stat (e.nrTrailing cfg) + (e.times cfg).trailing else 0)

/-- The call finds no unit that it passes busy for longer than the call leaves one, or than a
    unit that it does not pass; and its times fit in 64 bits. -/
structure IoCall.Waits (cfg : IoUnitConfig) (stat : ℕ → ℕ) (e : IoCall) : Prop where
  fits : e.finish cfg stat + (e.times cfg).trailing < 2 ^ 64
  waits (u : ℕ) : u < cfg.nrIoUnits → e.Passes cfg u → stat u ≤ e.busy cfg stat ∨
    ∃ v < cfg.nrIoUnits, ¬ e.Passes cfg v ∧ stat u ≤ stat v

theorem IoCall.nrTrailing_le (e : IoCall) : e.nrTrailing cfg ≤ ioTurns cfg e.length.toNat :=
  (min_le_right _ _).trans ((Nat.div_le_div_right (Nat.mod_le _ _)).trans (le_max_right _ _))

theorem scheduleIoUnits_spec (hfits : e.finish cfg stat + (e.times cfg).trailing < 2 ^ 64) :
    let p := scheduleIoUnits cfg (e.times cfg) stat e.lba e.length e.nsecsStart
    p.1 = e.finish cfg stat ∧ (∀ u, ¬ e.Passes cfg u → p.2 u = stat u) ∧
      ∃ u < cfg.nrIoUnits, e.busy cfg stat ≤ p.2 u := by
  have hturns := ioTurns_pos cfg e.length.toNat
  obtain ⟨k, hk⟩ := Nat.exists_eq_succ_of_ne_zero hturns.ne'
  have hunit : ioUnitOf cfg e.lba < cfg.nrIoUnits := Nat.mod_lt _ cfg.nrIoUnits_pos
  have hlatest : (IoTurn.first cfg (e.times cfg) stat e.lba e.length e.nsecsStart).latest =
      max e.nsecsStart.toNat (stat (ioUnitOf cfg e.lba)) + (e.times cfg).delay := by
    unfold IoCall.finish IoCall.doneAt at hfits
    exact Nat.mod_eq_of_lt (by omega)
  have hafter := IoTurn.after_iterate cfg (e.times cfg) (m := ioTurns cfg e.length.toNat)
    (j := .first cfg (e.times cfg) stat e.lba e.length e.nsecsStart) hunit (by rw [hlatest]; exact hfits)
  have hloop : IoTurn.loop cfg (e.times cfg) (e.length.toNat + 1)
      (.first cfg (e.times cfg) stat e.lba e.length e.nsecsStart) = _ :=
    IoTurn.loop_eq (ioTurns_le cfg e.length.toNat)
  have hfinish := hafter.latest.trans (congrArg (· + _) hlatest)
  dsimp only
  unfold scheduleIoUnits
  dsimp only
  rw [hloop]
  refine ⟨hfinish, fun u hu => hafter.kept u fun i hi hui => hu ⟨i, hi, hui⟩, ?_⟩
  -- the latest busy time is on the unit of the last turn, or of the last one with a trailing time
  unfold IoCall.busy
  rcases max_choice (e.finish cfg stat)
    (if e.Trails cfg then e.doneAt cfg stat (e.nrTrailing cfg) + (e.times cfg).trailing else 0) with hmax | hmax
  · exact ⟨_, Nat.mod_lt _ cfg.nrIoUnits_pos, hmax.trans_le (hfinish.ge.trans (hafter.last k hk))⟩
  · rw [hmax]
    split_ifs with htrails
    · obtain ⟨hpos, hlt, hclear⟩ := htrails
      have hcount : (IoTurn.first cfg (e.times cfg) stat e.lba e.length e.nsecsStart).nrIoUnits =
          (e.nrTrailing cfg : ℤ) := by
        have hfirst : (IoTurn.first cfg (e.times cfg) stat e.lba e.length e.nsecsStart).nrIoUnits =
            int32 (e.nrTrailing cfg) := by
          simp only [IoTurn.first, IoCall.nrTrailing]
        rw [hfirst, int32]
        exact Int.bmod_eq_of_le (by omega) (by omega)
      have hkept := IoTurn.trailing_kept cfg (e.times cfg)
        (j := .first cfg (e.times cfg) stat e.lba e.length e.nsecsStart) hunit hcount hpos hlt e.nrTrailing_le
        hclear (by rw [hlatest]; exact hfits)
      refine ⟨_, Nat.mod_lt _ cfg.nrIoUnits_pos, (Eq.le ?_).trans hkept.ge⟩
      rw [hlatest]
      rfl
    · exact ⟨0, cfg.nrIoUnits_pos, Nat.zero_le _⟩

/-! ## The flush -/

theorem scheduleFlush_eq (cfg : IoUnitConfig) (stat : ℕ → ℕ) :
    scheduleFlush cfg stat = (Finset.range cfg.nrIoUnits).sup stat := by
  unfold scheduleFlush
  induction cfg.nrIoUnits with
  | zero => rfl
  | succ n ih => rw [List.range_succ, List.foldl_append, ih, Finset.range_add_one, Finset.sup_insert,
      List.foldl_cons, List.foldl_nil, max_comm]

theorem le_scheduleFlush {u : ℕ} (hu : u < cfg.nrIoUnits) : stat u ≤ scheduleFlush cfg stat := by
  rw [scheduleFlush_eq]
  exact Finset.le_sup (Finset.mem_range.2 hu)

/-- A flush after the call does not complete before a flush before it would have, nor
    before the call. -/
theorem IoCall.Waits.flush_mono (h : e.Waits cfg stat) :
    let p := scheduleIoUnits cfg (e.times cfg) stat e.lba e.length e.nsecsStart
    scheduleFlush cfg stat ≤ scheduleFlush cfg p.2 ∧ p.1 ≤ scheduleFlush cfg p.2 := by
  obtain ⟨hdone, hkept, last, hlast, hle⟩ := scheduleIoUnits_spec h.fits
  generalize scheduleIoUnits cfg (e.times cfg) stat e.lba e.length e.nsecsStart = p at hdone hkept hle
  have hbusy := hle.trans (le_scheduleFlush hlast)
  refine ⟨?_, hdone.le.trans ((le_max_left _ _).trans hbusy)⟩
  rw [scheduleFlush_eq cfg stat]
  refine Finset.sup_le fun u hu => ?_
  rw [Finset.mem_range] at hu
  by_cases hpass : e.Passes cfg u
  · rcases h.waits u hu hpass with hle | ⟨v, hv, hvpass, hvle⟩
    · exact hle.trans hbusy
    · rw [← hkept v hvpass] at hvle
      exact hvle.trans (le_scheduleFlush hv)
  · rw [← hkept u hpass]
    exact le_scheduleFlush hu

/-- No completion that was returned is later than a flush. -/
def UnitRun.Flushed (cfg : IoUnitConfig) (r : UnitRun) : Prop :=
  ∀ t ∈ r.completed, t ≤ scheduleFlush cfg r.ioUnitStat

theorem UnitRun.Flushed.step (h : r.Flushed cfg) (hwaits : e.Waits cfg r.ioUnitStat)
    (hstep : (ioUnits cfg).step r e = .ok r') : r'.Flushed cfg := by
  obtain ⟨hmono, hnew⟩ := hwaits.flush_mono
  cases hstep
  intro t ht
  rcases List.mem_cons.1 ht with rfl | ht
  · exact hnew
  · exact (h t ht).trans hmono

/-- **Flushes are barriers**, as long as every call waits for the units that it passes. -/
theorem flush_barrier {es : List IoCall}
    (hwaits : (ioUnits cfg).Along (fun r e => e.Waits cfg r.ioUnitStat) ⟨stat, []⟩ es)
    (hrun : (ioUnits cfg).run ⟨stat, []⟩ es = .ok r) :
    ∀ t ∈ r.completed, t ≤ scheduleFlush cfg r.ioUnitStat := by
  have hinit : (⟨stat, []⟩ : UnitRun).Flushed cfg := fun t ht => nomatch ht
  refine (Machine.run_sat (E := fun _ => True) ?_ hinit hwaits).of_ok hrun
  intro r e h hwaits
  exact h.step hwaits rfl

instance (e : IoCall) (u : ℕ) : Decidable (e.Passes cfg u) :=
  inferInstanceAs (Decidable (∃ i < _, _))

instance (stat : ℕ → ℕ) (e : IoCall) : Decidable (e.Waits cfg stat) :=
  decidable_of_iff (e.finish cfg stat + (e.times cfg).trailing < 2 ^ 64 ∧
    ∀ u < cfg.nrIoUnits, e.Passes cfg u → stat u ≤ e.busy cfg stat ∨
      ∃ v < cfg.nrIoUnits, ¬ e.Passes cfg v ∧ stat u ≤ stat v)
    ⟨fun h => ⟨h.1, h.2⟩, fun h => ⟨h.fits, h.waits⟩⟩

/-- Two units of 4096 bytes; a write takes 10 ns. -/
def twoUnits : IoUnitConfig where
  nrIoUnits := 2
  ioUnitShift := 12
  readDelay := 0
  readTime := 10
  readTrailing := 0
  writeDelay := 0
  writeTime := 10
  writeTrailing := 0
  nrIoUnits_pos := by decide
  nrIoUnits_lt := by decide
  ioUnitShift_ge := by decide

/-- A write of `length` bytes, submitted at time 0. -/
def unitWrite (lba : BitVec 64) (length : BitVec 32) : IoCall := ⟨false, nvme_cmd_write, lba, length, 0⟩

/-- The second unit is written, and both. -/
def secondThenBoth : List IoCall := [unitWrite 8 4096, unitWrite 0 8192]

theorem flush_barrier_secondThenBoth :
    ∃ r, (ioUnits twoUnits).run ⟨fun _ => 0, []⟩ secondThenBoth = .ok r ∧ r.completed = [20, 10] ∧
      ∀ t ∈ r.completed, t ≤ scheduleFlush twoUnits r.ioUnitStat := by
  have hmap : ((ioUnits twoUnits).run ⟨fun _ => 0, []⟩ secondThenBoth).map UnitRun.completed =
      .ok [20, 10] := by decide +kernel
  obtain ⟨r, hrun, hcompleted⟩ := exists_ok_of_map hmap
  exact ⟨r, hrun, hcompleted, flush_barrier (by decide +kernel) hrun⟩

/-- The second unit is written three times, and both. -/
def busySecondThenBoth : List IoCall :=
  [unitWrite 8 4096, unitWrite 8 4096, unitWrite 8 4096, unitWrite 0 8192]

/-- The third write is done at 30; the flush after the fourth is done at 20. -/
theorem flush_barrier_busySecondThenBoth :
    ((ioUnits twoUnits).run ⟨fun _ => 0, []⟩ busySecondThenBoth).map
      (fun r => (r.completed, scheduleFlush twoUnits r.ioUnitStat)) = .ok ([20, 30, 20, 10], 20) ∧
    ¬ ∀ r, (ioUnits twoUnits).run ⟨fun _ => 0, []⟩ busySecondThenBoth = .ok r →
      ∀ t ∈ r.completed, t ≤ scheduleFlush twoUnits r.ioUnitStat := by
  have hmap : ((ioUnits twoUnits).run ⟨fun _ => 0, []⟩ busySecondThenBoth).map
      (fun r => (r.completed, scheduleFlush twoUnits r.ioUnitStat)) = .ok ([20, 30, 20, 10], 20) := by
    decide +kernel
  refine ⟨hmap, fun h => ?_⟩
  obtain ⟨r, hrun, hx⟩ := exists_ok_of_map hmap
  rw [Prod.mk.injEq] at hx
  have hle := h r hrun 30 (by rw [hx.1]; decide)
  rw [hx.2] at hle
  omega

end WaitGc

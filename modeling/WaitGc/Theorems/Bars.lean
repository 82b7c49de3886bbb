/-
  WAITGC verification — the controller registers settle.

  The dispatcher sees the writes of the host late and in an order of its own.
  `BarsOk` is what holds of its copies between two looks, of a host that writes AQA
  before CC.

  * `bars_settle`: once the host stops, four looks are enough: all registers
    are seen, RDY says what `cc.en` says, and the admin queue has the depth and
    the place that the registers give.
  * `handshake_confluent`: bringing the controller up ends in one state,
    wherever the looks fall between the writes and in whatever order AQA, ASQ
    and ACQ are written.
  * `rings_covered`: the page arrays of the rings cover their depths, of a host
    that never enlarges the admin queue: a larger AQA alone does not map them
    again.
-/
import WaitGc.Io.Admin
import WaitGc.Io.Bars
import Mathlib.Order.Basic
import Mathlib.Tactic.Ring

namespace WaitGc

open Outcome Function

variable {s s' : Bars} {e : BarEvent} {es : List BarEvent} {t : CtrlRegs}

/-! ## The invariant -/

/-- The host sets up the admin queue before it writes CC. -/
def BarEvent.Legal (s : Bars) : BarEvent → Prop
  | .writeAqa v => v ≠ 0
  | .writeCc _ => s.bar.aqa ≠ 0
  | _ => True

/-- The admin queue, against the registers that were seen. -/
structure QueueSeen (r : CtrlRegs) (q : NvmevAdminQueue) : Prop where
  sqDepth : q.sqDepth = r.asqs + 1
  cqDepth : q.cqDepth = r.acqs + 1
  sq : ∀ pages, q.nvmeSq = some pages → ∃ depth, pages = ringPages r.asq depth COMMAND_SIZE
  cq : ∀ pages, q.nvmeCq = some pages → ∃ depth, pages = ringPages r.acq depth COMPLETION_SIZE
  sq_some : r.asq ≠ 0 → q.nvmeSq ≠ none
  cq_some : r.acq ≠ 0 → q.nvmeCq ≠ none

/-- What holds between the registers and what the dispatcher keeps of them. -/
structure BarsOk (s : Bars) : Prop where
  cc : s.bar.aqa = 0 → s.bar.cc = 0
  aqa : s.oldBar.aqa ≠ 0 → s.bar.aqa ≠ 0
  missing : s.adminQ = none → s.oldBar = ⟨0, 0, 0, 0⟩
  queue : ∀ q, s.adminQ = some q → QueueSeen s.oldBar q
  rdy : s.rdy = s.oldBar.en

theorem barsOk_boot : BarsOk .boot :=
  ⟨fun _ => rfl, fun h => absurd rfl h, fun _ => rfl, fun _ h => (nomatch h), rfl⟩

/-- What a look of the dispatcher does: it takes the first register that differs. -/
theorem look_cases {E : BarFault → Prop} {Q : Bool × Bars → Prop}
    (haqa : s.oldBar.aqa ≠ s.bar.aqa → Q (true, s.takeAqa))
    (hasq : s.oldBar.aqa = s.bar.aqa → s.oldBar.asq ≠ s.bar.asq → Q (true, s.takeAsq))
    (hacq : s.oldBar.aqa = s.bar.aqa → s.oldBar.asq = s.bar.asq → s.oldBar.acq ≠ s.bar.acq →
      Q (true, s.takeAcq))
    (hcc : s.oldBar.aqa = s.bar.aqa → s.oldBar.asq = s.bar.asq → s.oldBar.acq = s.bar.acq →
      s.oldBar.cc ≠ s.bar.cc → Sat E (fun s' => Q (true, s')) s.takeCc)
    (hidle : s.oldBar.aqa = s.bar.aqa → s.oldBar.asq = s.bar.asq → s.oldBar.acq = s.bar.acq →
      s.oldBar.cc = s.bar.cc → Q (false, s)) : Sat E Q s.nvmevProcBars := by
  unfold Bars.nvmevProcBars
  by_cases h₁ : s.oldBar.aqa = s.bar.aqa
  swap
  · rw [if_pos h₁]
    exact haqa h₁
  rw [if_neg (not_not.2 h₁)]
  by_cases h₂ : s.oldBar.asq = s.bar.asq
  swap
  · rw [if_pos h₂]
    exact hasq h₁ h₂
  rw [if_neg (not_not.2 h₂)]
  by_cases h₃ : s.oldBar.acq = s.bar.acq
  swap
  · rw [if_pos h₃]
    exact hacq h₁ h₂ h₃
  rw [if_neg (not_not.2 h₃)]
  by_cases h₄ : s.oldBar.cc = s.bar.cc
  swap
  · rw [if_pos h₄]
    exact (hcc h₁ h₂ h₃ h₄).map_ok fun _ h => h
  rw [if_neg (not_not.2 h₄)]
  exact hidle h₁ h₂ h₃ h₄

theorem ne_none_of_some {q : NvmevAdminQueue} (hadmin : s.adminQ = some q) : s.adminQ ≠ none := by
  rw [hadmin]
  exact Option.some_ne_none q

theorem QueueSeen.congr {r r' : CtrlRegs} {q q' : NvmevAdminQueue} (h : QueueSeen r q)
    (haqa : r'.aqa = r.aqa) (hasq : r'.asq = r.asq) (hacq : r'.acq = r.acq)
    (hsd : q'.sqDepth = q.sqDepth) (hcd : q'.cqDepth = q.cqDepth)
    (hsq : q'.nvmeSq = q.nvmeSq) (hcq : q'.nvmeCq = q.nvmeCq) : QueueSeen r' q' where
  sqDepth := by rw [hsd, h.sqDepth, CtrlRegs.asqs, CtrlRegs.asqs, haqa]
  cqDepth := by rw [hcd, h.cqDepth, CtrlRegs.acqs, CtrlRegs.acqs, haqa]
  sq := by rw [hsq, hasq]; exact h.sq
  cq := by rw [hcq, hacq]; exact h.cq
  sq_some := by rw [hsq, hasq]; exact h.sq_some
  cq_some := by rw [hcq, hacq]; exact h.cq_some

theorem BarsOk.takeAqa (h : BarsOk s) : BarsOk s.takeAqa where
  cc := h.cc
  aqa hnew := hnew
  missing hnone := by cases hnone
  queue q hq := by
    cases hq
    cases hadmin : s.adminQ with
    | none =>
      have hold := h.missing hadmin
      refine ⟨rfl, rfl, fun _ hp => (nomatch hp), fun _ hp => (nomatch hp), fun hasq => ?_,
        fun hacq => ?_⟩
      · exact absurd (congrArg CtrlRegs.asq hold) hasq
      · exact absurd (congrArg CtrlRegs.acq hold) hacq
    | some q =>
      have hseen := h.queue q hadmin
      exact ⟨rfl, rfl, hseen.sq, hseen.cq, hseen.sq_some, hseen.cq_some⟩
  rdy := h.rdy

theorem Bars.takeAsq_some {q : NvmevAdminQueue} (hq : s.adminQ = some q) : s.takeAsq =
    { s with
      oldBar := { s.oldBar with asq := s.bar.asq }
      adminQ := some { q with
        sqDepth := s.bar.asqs + 1
        nvmeSq := some (ringPages s.bar.asq (s.bar.asqs + 1) COMMAND_SIZE) } }.clearDb 0 := by
  rw [Bars.takeAsq, hq]

theorem Bars.takeAcq_some {q : NvmevAdminQueue} (hq : s.adminQ = some q) : s.takeAcq =
    { s with
      oldBar := { s.oldBar with acq := s.bar.acq }
      adminQ := some { q with
        cqDepth := s.bar.acqs + 1
        cqHead := 0
        phase := true
        nvmeCq := some (ringPages s.bar.acq (s.bar.acqs + 1) COMPLETION_SIZE) } }.clearDb 1 := by
  rw [Bars.takeAcq, hq]

theorem Bars.takeAsq_bar (s : Bars) : s.takeAsq.bar = s.bar := by
  unfold Bars.takeAsq
  cases s.adminQ <;> rfl

theorem Bars.takeAcq_bar (s : Bars) : s.takeAcq.bar = s.bar := by
  unfold Bars.takeAcq
  cases s.adminQ <;> rfl

theorem BarsOk.takeAsq (h : BarsOk s) (haqa : s.oldBar.aqa = s.bar.aqa) : BarsOk s.takeAsq := by
  unfold Bars.takeAsq
  cases hadmin : s.adminQ with
  | none => exact h
  | some q =>
    have hseen := h.queue q hadmin
    refine ⟨h.cc, h.aqa, fun hnone => (nomatch hnone), ?_, h.rdy⟩
    rintro q' ⟨⟩
    refine ⟨?_, hseen.cqDepth, ?_, hseen.cq, fun _ hnone => (nomatch hnone), hseen.cq_some⟩
    · change s.bar.asqs + 1 = s.oldBar.aqa.toNat % 2 ^ 12 + 1
      rw [haqa]
      rfl
    · rintro pages ⟨⟩
      exact ⟨_, rfl⟩

theorem BarsOk.takeAcq (h : BarsOk s) (haqa : s.oldBar.aqa = s.bar.aqa) : BarsOk s.takeAcq := by
  unfold Bars.takeAcq
  cases hadmin : s.adminQ with
  | none => exact h
  | some q =>
    have hseen := h.queue q hadmin
    refine ⟨h.cc, h.aqa, fun hnone => (nomatch hnone), ?_, h.rdy⟩
    rintro q' ⟨⟩
    refine ⟨hseen.sqDepth, ?_, hseen.sq, ?_, hseen.sq_some, fun _ hnone => (nomatch hnone)⟩
    · change s.bar.acqs + 1 = s.oldBar.aqa.toNat / 2 ^ 16 % 2 ^ 12 + 1
      rw [haqa]
      rfl
    · rintro pages ⟨⟩
      exact ⟨_, rfl⟩

theorem BarsOk.queue_of_cc (h : BarsOk s) (haqa : s.oldBar.aqa = s.bar.aqa)
    (hcc : s.oldBar.cc ≠ s.bar.cc) : ∃ q, s.adminQ = some q := by
  cases hadmin : s.adminQ with
  | some q => exact ⟨q, rfl⟩
  | none =>
    have hold := h.missing hadmin
    rw [hold] at haqa hcc
    exact absurd (h.cc haqa.symm).symm hcc

theorem BarsOk.takeCc (h : BarsOk s) {q : NvmevAdminQueue} (hadmin : s.adminQ = some q) :
    Sat (fun _ => False) (fun s' => BarsOk s' ∧ s'.bar = s.bar ∧
      s'.oldBar = { s.oldBar with cc := s.bar.cc }) s.takeCc := by
  have hseen := h.queue q hadmin
  have hrdy : (if s.bar.en then s.adminQ.isSome || s.rdy else false) = s.bar.en := by
    rw [hadmin]
    cases s.bar.en <;> rfl
  unfold Bars.takeCc
  dsimp only
  rw [hrdy, hadmin]
  by_cases hshn : s.bar.shn = 1
  · rw [if_pos hshn]
    refine ⟨⟨h.cc, h.aqa, fun hnone => (nomatch hnone), ?_, rfl⟩, rfl, rfl⟩
    rintro q' ⟨⟩
    exact hseen.congr rfl rfl rfl rfl rfl rfl rfl
  · rw [if_neg hshn]
    refine ⟨⟨h.cc, h.aqa, fun hnone => (nomatch hnone), ?_, rfl⟩, rfl, rfl⟩
    rintro q' ⟨⟩
    exact hseen.congr rfl rfl rfl rfl rfl rfl rfl

/-- The registers that were not seen yet. -/
def Bars.pending (s : Bars) : ℕ :=
  (if s.oldBar.aqa ≠ s.bar.aqa then 1 else 0) + (if s.oldBar.asq ≠ s.bar.asq then 1 else 0) +
    (if s.oldBar.acq ≠ s.bar.acq then 1 else 0) + (if s.oldBar.cc ≠ s.bar.cc then 1 else 0)

/-- **A look of the dispatcher** keeps the invariant; if the host wrote AQA, one register less is
    pending, or none was. -/
theorem BarsOk.look (h : BarsOk s) :
    Sat (fun _ => False) (fun r => BarsOk r.2 ∧ r.2.bar = s.bar ∧
      (s.bar.aqa ≠ 0 → s.pending = 0 ∧ r = (false, s) ∨ r.1 = true ∧ r.2.pending + 1 = s.pending))
      s.nvmevProcBars := by
  -- AQA was seen, so there is a queue
  have hsome (haqa : s.oldBar.aqa = s.bar.aqa) (h0 : s.bar.aqa ≠ 0) :
      ∃ q, s.adminQ = some q := by
    cases hadmin : s.adminQ with
    | some q => exact ⟨q, rfl⟩
    | none =>
      rw [h.missing hadmin] at haqa
      exact absurd haqa.symm h0
  refine look_cases ?_ ?_ ?_ ?_ ?_
  · intro haqa
    refine ⟨h.takeAqa, rfl, fun _ => .inr ⟨rfl, ?_⟩⟩
    change Bars.pending { s with oldBar := { s.oldBar with aqa := s.bar.aqa } } + 1 = s.pending
    simp only [Bars.pending, haqa, ne_eq, not_true_eq_false, not_false_eq_true, if_true, if_false]
    omega
  · intro haqa hasq
    refine ⟨h.takeAsq haqa, s.takeAsq_bar, fun h0 => .inr ⟨rfl, ?_⟩⟩
    obtain ⟨q, hq⟩ := hsome haqa h0
    rw [Bars.takeAsq_some hq]
    change Bars.pending { s with oldBar := { s.oldBar with asq := s.bar.asq } } + 1 = s.pending
    simp only [Bars.pending, hasq, ne_eq, not_true_eq_false, not_false_eq_true, if_true, if_false]
    omega
  · intro haqa hasq hacq
    refine ⟨h.takeAcq haqa, s.takeAcq_bar, fun h0 => .inr ⟨rfl, ?_⟩⟩
    obtain ⟨q, hq⟩ := hsome haqa h0
    rw [Bars.takeAcq_some hq]
    change Bars.pending { s with oldBar := { s.oldBar with acq := s.bar.acq } } + 1 = s.pending
    simp only [Bars.pending, hacq, ne_eq, not_true_eq_false, not_false_eq_true, if_true, if_false]
    omega
  · intro haqa hasq hacq hcc
    obtain ⟨q, hq⟩ := h.queue_of_cc haqa hcc
    refine (h.takeCc hq).mono (fun _ hf => hf) ?_
    rintro s' ⟨hok, hbar, hold⟩
    refine ⟨hok, hbar, fun _ => .inr ⟨rfl, ?_⟩⟩
    simp [Bars.pending, hbar, hold, haqa, hasq, hacq, hcc]
  · intro haqa hasq hacq hcc
    refine ⟨h, rfl, fun _ => .inl ⟨?_, rfl⟩⟩
    simp [Bars.pending, haqa, hasq, hacq, hcc]

/-- **One step** of the host or the dispatcher. -/
theorem BarsOk.step (h : BarsOk s) (hlegal : e.Legal s) :
    Sat (fun _ => False) BarsOk (bars.step s e) := by
  cases e with
  | writeAqa v => exact ⟨fun h0 => absurd h0 hlegal, fun _ => hlegal, h.missing, h.queue, h.rdy⟩
  | writeAsq v => exact ⟨h.cc, h.aqa, h.missing, h.queue, h.rdy⟩
  | writeAcq v => exact ⟨h.cc, h.aqa, h.missing, h.queue, h.rdy⟩
  | writeCc v => exact ⟨fun h0 => absurd h0 hlegal, h.aqa, h.missing, h.queue, h.rdy⟩
  | ring i v => exact ⟨h.cc, h.aqa, h.missing, h.queue, h.rdy⟩
  | look => exact h.look.map_ok fun r hr => hr.1
  | serve cqHead phase =>
    change BarsOk (s.serve cqHead phase)
    unfold Bars.serve
    cases hadmin : s.adminQ with
    | none => exact h
    | some q =>
      refine ⟨h.cc, h.aqa, fun hnone => (nomatch hnone), ?_, h.rdy⟩
      rintro q' ⟨⟩
      exact (h.queue q hadmin).congr rfl rfl rfl rfl rfl rfl rfl

/-! ## The registers settle -/

/-- The dispatcher has seen everything, and a look changes nothing. -/
structure Settled (s : Bars) : Prop where
  seen : s.oldBar = s.bar
  rdy : s.rdy = s.bar.en
  queue : ∃ q, s.adminQ = some q ∧ QueueSeen s.bar q
  idle : s.nvmevProcBars = .ok (false, s)

theorem pending_zero (h : s.pending = 0) : s.oldBar = s.bar := by
  unfold Bars.pending at h
  have h₁ : s.oldBar.aqa = s.bar.aqa := by
    by_contra hne
    rw [if_pos hne] at h
    omega
  have h₂ : s.oldBar.asq = s.bar.asq := by
    by_contra hne
    rw [if_pos hne] at h
    omega
  have h₃ : s.oldBar.acq = s.bar.acq := by
    by_contra hne
    rw [if_pos hne] at h
    omega
  have h₄ : s.oldBar.cc = s.bar.cc := by
    by_contra hne
    rw [if_pos hne] at h
    omega
  cases hs : s.oldBar
  cases hb : s.bar
  simp only [hs, hb] at h₁ h₂ h₃ h₄
  rw [h₁, h₂, h₃, h₄]

theorem pending_le (s : Bars) : s.pending ≤ 4 := by
  unfold Bars.pending
  split_ifs <;> omega

theorem BarsOk.settled (h : BarsOk s) (h0 : s.bar.aqa ≠ 0) (hp : s.pending = 0) : Settled s := by
  have hseen := pending_zero hp
  refine ⟨hseen, by rw [h.rdy, hseen], ?_, ?_⟩
  · cases hadmin : s.adminQ with
    | none =>
      rw [h.missing hadmin] at hseen
      exact absurd (congrArg CtrlRegs.aqa hseen).symm h0
    | some q => exact ⟨q, rfl, hseen ▸ h.queue q hadmin⟩
  · unfold Bars.nvmevProcBars
    rw [hseen]
    simp

theorem BarsOk.looks (n : ℕ) {s : Bars} (h : BarsOk s) (h0 : s.bar.aqa ≠ 0) (hp : s.pending ≤ n) :
    ∃ s', bars.run s (List.replicate n .look) = .ok s' ∧ s'.bar = s.bar ∧ Settled s' := by
  induction n generalizing s with
  | zero => exact ⟨s, rfl, rfl, h.settled h0 (Nat.le_zero.1 hp)⟩
  | succ n ih =>
    obtain ⟨r, hr, hok, hbar, hlook⟩ := h.look.exists_ok fun _ hf => hf
    have hp' : r.2.pending ≤ n := by
      rcases hlook h0 with ⟨hz, rfl⟩ | ⟨-, hless⟩
      · change s.pending ≤ n
        omega
      · omega
    obtain ⟨s', hrun, hbar', hsettled⟩ := ih hok (by rw [hbar]; exact h0) hp'
    refine ⟨s', ?_, hbar'.trans hbar, hsettled⟩
    rw [List.replicate_succ, Machine.run_cons]
    change (s.nvmevProcBars.map Prod.snd >>= fun s => bars.run s _) = _
    rw [hr]
    exact hrun

theorem bars_run_ok (hlegal : bars.Along (fun s e => e.Legal s) .boot es) :
    Sat (fun _ => False) BarsOk (bars.run .boot es) :=
  Machine.run_sat (fun _ _ h hlegal => h.step hlegal) barsOk_boot hlegal

/-- The controller that the registers `t` describe. -/
def Bars.ready (t : CtrlRegs) : Bars where
  bar := t
  oldBar := t
  rdy := true
  shst := 0
  adminQ := some {
    phase := true
    sqDepth := t.asqs + 1
    cqDepth := t.acqs + 1
    cqHead := 0
    nvmeSq := some (ringPages t.asq (t.asqs + 1) COMMAND_SIZE)
    nvmeCq := some (ringPages t.acq (t.acqs + 1) COMPLETION_SIZE) }
  dbs := fun _ => 0
  oldDbs := fun _ => 0

/-- The host writes the registers of `t`, CC after AQA, and the dispatcher looks. -/
def BarEvent.BringsUp (t : CtrlRegs) (s : Bars) : BarEvent → Prop
  | .writeAqa v => v = t.aqa
  | .writeAsq v => v = t.asq
  | .writeAcq v => v = t.acq
  | .writeCc v => v = t.cc ∧ s.bar.aqa = t.aqa
  | .look => True
  | .ring .. => False
  | .serve .. => False

/-- Registers that bring a controller up. -/
structure CtrlRegs.Starts (t : CtrlRegs) : Prop where
  aqa : t.aqa ≠ 0
  asq : t.asq ≠ 0
  acq : t.acq ≠ 0
  en : t.en = true
  shn : t.shn ≠ 1

/-- A register on its way from 0 to `target`: `new` was written, `old` was seen. -/
def Rises {n : ℕ} (target new old : BitVec n) : Prop :=
  new = 0 ∧ old = 0 ∨ new = target ∧ (old = 0 ∨ old = target)

namespace Rises
variable {n : ℕ} {target new old : BitVec n}

theorem write (h : Rises target new old) : Rises target target old := by
  rcases h with ⟨-, hold⟩ | ⟨-, hold⟩
  · exact .inr ⟨rfl, .inl hold⟩
  · exact .inr ⟨rfl, hold⟩

theorem see (h : Rises target new old) : Rises target new new := by
  rcases h with ⟨hnew, -⟩ | ⟨hnew, -⟩
  · exact .inl ⟨hnew, hnew⟩
  · exact .inr ⟨hnew, .inr hnew⟩

theorem eq_of_ne (h : Rises target new old) (hne : old ≠ new) : new = target := by
  rcases h with ⟨hnew, hold⟩ | ⟨hnew, -⟩
  · exact absurd (hold.trans hnew.symm) hne
  · exact hnew

end Rises

/-- A ring is in place once its base was seen. -/
def ringOf (base old : BitVec 64) (depth entrySize : ℕ) : Option (List ℕ) :=
  if old = 0 then none else some (ringPages base depth entrySize)

theorem ringOf_zero (base : BitVec 64) (depth entrySize : ℕ) :
    ringOf base 0 depth entrySize = none := if_pos rfl

theorem ringOf_ne {base old : BitVec 64} (depth entrySize : ℕ) (h : old ≠ 0) :
    ringOf base old depth entrySize = some (ringPages base depth entrySize) := if_neg h

/-- The controller on its way up to `t`. -/
structure BringUp (t : CtrlRegs) (s : Bars) : Prop where
  ok : BarsOk s
  aqa : Rises t.aqa s.bar.aqa s.oldBar.aqa
  asq : Rises t.asq s.bar.asq s.oldBar.asq
  acq : Rises t.acq s.bar.acq s.oldBar.acq
  cc : Rises t.cc s.bar.cc s.oldBar.cc
  shst : s.shst = 0
  dbs : s.dbs = fun _ => 0
  oldDbs : s.oldDbs = fun _ => 0
  seen : s.adminQ ≠ none → s.oldBar.aqa = t.aqa
  queue : ∀ q, s.adminQ = some q → q = {
    phase := true
    sqDepth := t.asqs + 1
    cqDepth := t.acqs + 1
    cqHead := 0
    nvmeSq := ringOf t.asq s.oldBar.asq (t.asqs + 1) COMMAND_SIZE
    nvmeCq := ringOf t.acq s.oldBar.acq (t.acqs + 1) COMPLETION_SIZE }

theorem bringUp_boot (t : CtrlRegs) : BringUp t .boot where
  ok := barsOk_boot
  aqa := .inl ⟨rfl, rfl⟩
  asq := .inl ⟨rfl, rfl⟩
  acq := .inl ⟨rfl, rfl⟩
  cc := .inl ⟨rfl, rfl⟩
  shst := rfl
  dbs := rfl
  oldDbs := rfl
  seen h := absurd rfl h
  queue _ h := by cases h

theorem clear_zero {db : ℕ → ℤ} (h : db = fun _ => 0) (i : ℕ) : update db i 0 = fun _ => 0 := by
  rw [h]
  exact update_eq_self i _

namespace BringUp
variable (h : BringUp t s)
include h

theorem takeAqa (hne : s.oldBar.aqa ≠ s.bar.aqa) : BringUp t s.takeAqa := by
  have hbar : s.bar.aqa = t.aqa := h.aqa.eq_of_ne hne
  have hasqs : s.bar.asqs = t.asqs := by rw [CtrlRegs.asqs, hbar]; rfl
  have hacqs : s.bar.acqs = t.acqs := by rw [CtrlRegs.acqs, hbar]; rfl
  refine ⟨h.ok.takeAqa, h.aqa.see, h.asq, h.acq, h.cc, h.shst,
    clear_zero (clear_zero h.dbs 0) 1, clear_zero (clear_zero h.oldDbs 0) 1, fun _ => hbar, ?_⟩
  rintro q' ⟨⟩
  rw [hasqs, hacqs]
  cases hadmin : s.adminQ with
  | none =>
    have hasq : s.oldBar.asq = 0 := congrArg CtrlRegs.asq (h.ok.missing hadmin)
    have hacq : s.oldBar.acq = 0 := congrArg CtrlRegs.acq (h.ok.missing hadmin)
    change _ = NvmevAdminQueue.mk true (t.asqs + 1) (t.acqs + 1) 0
      (ringOf t.asq s.oldBar.asq (t.asqs + 1) COMMAND_SIZE)
      (ringOf t.acq s.oldBar.acq (t.acqs + 1) COMPLETION_SIZE)
    rw [hasq, hacq, ringOf_zero, ringOf_zero]
    rfl
  | some q =>
    rw [h.queue q hadmin]
    rfl

theorem takeAsq (hstart : t.Starts) (hne : s.oldBar.asq ≠ s.bar.asq)
    (haqa : s.oldBar.aqa = s.bar.aqa) : BringUp t s.takeAsq := by
  have hok := h.ok.takeAsq haqa
  cases hadmin : s.adminQ with
  | none =>
    unfold Bars.takeAsq
    rw [hadmin]
    exact h
  | some q =>
    rw [Bars.takeAsq_some hadmin] at hok ⊢
    have hseen := h.seen (ne_none_of_some hadmin)
    have hasq : s.bar.asq = t.asq := h.asq.eq_of_ne hne
    have hasqs : s.bar.asqs = t.asqs := by rw [CtrlRegs.asqs, ← haqa, hseen]; rfl
    refine ⟨hok, h.aqa, h.asq.see, h.acq, h.cc, h.shst, clear_zero h.dbs 0,
      clear_zero h.oldDbs 0, fun _ => hseen, ?_⟩
    rintro q' ⟨⟩
    rw [h.queue q hadmin, hasqs, hasq]
    change NvmevAdminQueue.mk _ _ _ _ (some _) _ = NvmevAdminQueue.mk _ _ _ _ (ringOf t.asq t.asq _ _) _
    rw [ringOf_ne _ _ hstart.asq]
    rfl

theorem takeAcq (hstart : t.Starts) (hne : s.oldBar.acq ≠ s.bar.acq)
    (haqa : s.oldBar.aqa = s.bar.aqa) : BringUp t s.takeAcq := by
  have hok := h.ok.takeAcq haqa
  cases hadmin : s.adminQ with
  | none =>
    unfold Bars.takeAcq
    rw [hadmin]
    exact h
  | some q =>
    rw [Bars.takeAcq_some hadmin] at hok ⊢
    have hseen := h.seen (ne_none_of_some hadmin)
    have hacq : s.bar.acq = t.acq := h.acq.eq_of_ne hne
    have hacqs : s.bar.acqs = t.acqs := by rw [CtrlRegs.acqs, ← haqa, hseen]; rfl
    refine ⟨hok, h.aqa, h.asq, h.acq.see, h.cc, h.shst, clear_zero h.dbs 1,
      clear_zero h.oldDbs 1, fun _ => hseen, ?_⟩
    rintro q' ⟨⟩
    rw [h.queue q hadmin, hacqs, hacq]
    change NvmevAdminQueue.mk _ _ _ _ _ (some _) = NvmevAdminQueue.mk _ _ _ _ _ (ringOf t.acq t.acq _ _)
    rw [ringOf_ne _ _ hstart.acq]
    rfl

theorem takeCc (hstart : t.Starts) (hne : s.oldBar.cc ≠ s.bar.cc)
    (haqa : s.oldBar.aqa = s.bar.aqa) : Sat (fun _ => False) (BringUp t) s.takeCc := by
  obtain ⟨q, hadmin⟩ := h.ok.queue_of_cc haqa hne
  have hok := h.ok.takeCc hadmin
  have hshn : s.bar.shn ≠ 1 := by
    rw [CtrlRegs.shn, h.cc.eq_of_ne hne]
    exact hstart.shn
  unfold Bars.takeCc at hok ⊢
  dsimp only at hok ⊢
  rw [if_neg hshn] at hok ⊢
  exact ⟨hok.1, h.aqa, h.asq, h.acq, h.cc.see, h.shst, h.dbs, h.oldDbs, h.seen, h.queue⟩

/-- **A look** on the way up. -/
theorem look (hstart : t.Starts) :
    Sat (fun _ => False) (fun r => BringUp t r.2) s.nvmevProcBars :=
  look_cases (fun haqa => h.takeAqa haqa) (fun haqa hasq => h.takeAsq hstart hasq haqa)
    (fun haqa _ hacq => h.takeAcq hstart hacq haqa)
    (fun haqa _ _ hcc => h.takeCc hstart hcc haqa) (fun _ _ _ _ => h)

/-- **One step** on the way up. -/
theorem step (hstart : t.Starts) (hlegal : e.BringsUp t s) :
    Sat (fun _ => False) (BringUp t) (bars.step s e) := by
  cases e with
  | writeAqa v =>
    cases hlegal
    exact ⟨(h.ok.step (e := .writeAqa t.aqa) hstart.aqa), h.aqa.write, h.asq, h.acq, h.cc, h.shst,
      h.dbs, h.oldDbs, h.seen, h.queue⟩
  | writeAsq v =>
    cases hlegal
    exact ⟨(h.ok.step (e := .writeAsq t.asq) trivial), h.aqa, h.asq.write, h.acq, h.cc, h.shst,
      h.dbs, h.oldDbs, h.seen, h.queue⟩
  | writeAcq v =>
    cases hlegal
    exact ⟨(h.ok.step (e := .writeAcq t.acq) trivial), h.aqa, h.asq, h.acq.write, h.cc, h.shst,
      h.dbs, h.oldDbs, h.seen, h.queue⟩
  | writeCc v =>
    obtain ⟨rfl, haqa⟩ := hlegal
    have h0 : s.bar.aqa ≠ 0 := haqa ▸ hstart.aqa
    exact ⟨(h.ok.step (e := .writeCc t.cc) h0), h.aqa, h.asq, h.acq, h.cc.write, h.shst,
      h.dbs, h.oldDbs, h.seen, h.queue⟩
  | look => exact (h.look hstart).map_ok fun _ hr => hr
  | ring i v => exact hlegal.elim
  | serve cqHead phase => exact hlegal.elim

end BringUp

theorem bringUp_run (hstart : t.Starts) (hlegal : bars.Along (BarEvent.BringsUp t) s es)
    (h : BringUp t s) : Sat (fun _ => False) (BringUp t) (bars.run s es) :=
  Machine.run_sat (fun _ _ h hlegal => h.step hstart hlegal) h hlegal

theorem along_looks (n : ℕ) (s : Bars) :
    bars.Along (BarEvent.BringsUp t) s (List.replicate n .look) := by
  induction n generalizing s with
  | zero => trivial
  | succ n ih => exact ⟨trivial, fun s' _ => ih s'⟩

/-- On the way up, with everything seen, the controller is the one that `t` describes. -/
theorem BringUp.eq_ready (h : BringUp t s) (hstart : t.Starts) (hbar : s.bar = t)
    (hseen : s.oldBar = s.bar) : s = .ready t := by
  have hold : s.oldBar = t := hseen.trans hbar
  cases hadmin : s.adminQ with
  | none =>
    have h0 : t = ⟨0, 0, 0, 0⟩ := hold.symm.trans (h.ok.missing hadmin)
    exact absurd (congrArg CtrlRegs.aqa h0) hstart.aqa
  | some q =>
    have hq := h.queue q hadmin
    rw [hold, ringOf_ne _ _ hstart.asq, ringOf_ne _ _ hstart.acq] at hq
    have hrdy : s.rdy = true := by rw [h.ok.rdy, hold, hstart.en]
    calc s = ⟨s.bar, s.oldBar, s.rdy, s.shst, s.adminQ, s.dbs, s.oldDbs⟩ := rfl
      _ = .ready t := by
        rw [hbar, hold, hrdy, h.shst, hadmin, hq, h.dbs, h.oldDbs]
        rfl

/-- **Bringing up is confluent**: wherever the looks fall between the writes of the host, and in
    whatever order and how often it writes AQA, ASQ and ACQ, four looks after it has written
    all registers the controller is the same. -/
theorem handshake_confluent (hstart : t.Starts) (hlegal : bars.Along (BarEvent.BringsUp t) .boot es)
    (hall : Yields (fun s => s.bar = t) (bars.run .boot es)) :
    bars.run .boot (es ++ List.replicate 4 .look) = .ok (.ready t) := by
  obtain ⟨s, hrun, h⟩ := (bringUp_run hstart hlegal (bringUp_boot t)).exists_ok fun _ hf => hf
  have hbar : s.bar = t := hall.of_ok hrun
  obtain ⟨s', hlooks, hbar', hsettled⟩ :=
    h.ok.looks 4 (by rw [hbar]; exact hstart.aqa) (pending_le s)
  have hup : BringUp t s' := (bringUp_run hstart (along_looks 4 s) h).of_ok hlooks
  rw [Machine.run_append, hrun]
  change bars.run s _ = _
  rw [hlooks, hup.eq_ready hstart (hbar'.trans hbar) hsettled.seen]

/-- The host writes ACQ first and ASQ last. -/
theorem handshake_confluent_acqFirst : bars.run .boot
      ([.writeAcq 0x9000, .look, .writeAqa 0x1f001f, .look, .writeCc 1, .writeAsq 0x8000] ++
        List.replicate 4 .look) = .ok (.ready ⟨0x1f001f, 0x8000, 0x9000, 1⟩) := by
  refine handshake_confluent ⟨by decide, by decide, by decide, rfl, by decide⟩ ⟨rfl, ?_⟩ rfl
  rintro _ ⟨⟩
  refine ⟨trivial, ?_⟩
  rintro _ ⟨⟩
  refine ⟨rfl, ?_⟩
  rintro _ ⟨⟩
  refine ⟨trivial, ?_⟩
  rintro _ ⟨⟩
  refine ⟨⟨rfl, rfl⟩, ?_⟩
  rintro _ ⟨⟩
  exact ⟨rfl, fun _ _ => trivial⟩

/-! ## The rings -/

theorem lt_divRoundUp {n k : ℕ} (hn : n ≤ 4096 * 4096) (hk : k * 4096 < n) :
    k < divRoundUp n 4096 := by
  have hwrap : u64 (n + 4096 - 1) = n + 4096 - 1 := Nat.mod_eq_of_lt (by omega)
  rw [divRoundUp, hwrap]
  exact (Nat.le_div_iff_mul_le (by decide)).2 (by omega)

theorem entryAddr_ringPages {base : BitVec 64} {depth entrySize i : ℕ} (hsize : entrySize ∣ 4096)
    (hbase : 4096 ∣ base.toNat) (hdepth : depth ≤ 4096) (hi : i < depth) :
    entryAddr (ringPages base depth entrySize) entrySize i = some (base.toNat + i * entrySize) := by
  have hfits : depth * entrySize ≤ 4096 * 4096 :=
    Nat.mul_le_mul hdepth (Nat.le_of_dvd (by decide) hsize)
  obtain ⟨per, hper⟩ := hsize
  have hpos : 0 < entrySize := Nat.pos_of_mul_pos_right (hper ▸ (by decide : 0 < 4096))
  have hdiv : 4096 / entrySize = per := by rw [hper, Nat.mul_div_cancel_left _ hpos]
  obtain ⟨frame, hframe⟩ := hbase
  have hsplit : entrySize * (per * (i / per) + i % per) = entrySize * i := by rw [Nat.div_add_mod]
  have hpage : i / per < numPages depth entrySize := by
    refine lt_divRoundUp hfits ?_
    calc i / per * 4096 = entrySize * (per * (i / per)) := by rw [hper]; ring
      _ ≤ entrySize * i := Nat.mul_le_mul_left _ (Nat.mul_div_le i per)
      _ < entrySize * depth := Nat.mul_lt_mul_of_pos_left hi hpos
      _ = depth * entrySize := Nat.mul_comm _ _
  have hget : (ringPages base depth entrySize)[i / per]? = some (frame + i / per) := by
    rw [ringPages, List.getElem?_map, List.getElem?_range hpage, hframe,
      Nat.mul_div_cancel_left _ (by decide)]
    rfl
  rw [entryAddr, hdiv, hget, hframe, Option.map_some]
  congr 1
  calc (frame + i / per) * 4096 + i % per * entrySize
      = frame * 4096 + entrySize * (per * (i / per) + i % per) := by
        rw [hper]; ring
    _ = 4096 * frame + i * entrySize := by rw [hsplit, Nat.mul_comm frame, Nat.mul_comm entrySize]

/-- The host never enlarges the admin queue. -/
def BarEvent.Shrinks (s : Bars) : BarEvent → Prop
  | .writeAqa v => s.bar.aqa ≠ 0 →
      { s.bar with aqa := v }.asqs ≤ s.bar.asqs ∧ { s.bar with aqa := v }.acqs ≤ s.bar.acqs
  | _ => True

/-- The pages of the ring at `base` cover `depth` entries. -/
def RingCovers (base : BitVec 64) (ring : Option (List ℕ)) (depth entrySize : ℕ) : Prop :=
  ∀ pages, ring = some pages →
    ∃ depth', depth ≤ depth' ∧ depth' ≤ 4096 ∧ pages = ringPages base depth' entrySize

theorem RingCovers.mono {base : BitVec 64} {ring : Option (List ℕ)} {depth depth' entrySize : ℕ}
    (h : RingCovers base ring depth entrySize) (hle : depth' ≤ depth) :
    RingCovers base ring depth' entrySize := by
  intro pages hpages
  obtain ⟨n, hn, hring⟩ := h pages hpages
  exact ⟨n, hle.trans hn, hring⟩

/-- What holds of the registers when the host never enlarges the admin queue. -/
structure RingsOk (s : Bars) : Prop where
  ok : BarsOk s
  seen : s.adminQ ≠ none → s.oldBar.aqa ≠ 0
  asqs : s.oldBar.aqa ≠ 0 → s.bar.asqs ≤ s.oldBar.asqs
  acqs : s.oldBar.aqa ≠ 0 → s.bar.acqs ≤ s.oldBar.acqs
  sq : ∀ q, s.adminQ = some q → RingCovers s.oldBar.asq q.nvmeSq q.sqDepth COMMAND_SIZE
  cq : ∀ q, s.adminQ = some q → RingCovers s.oldBar.acq q.nvmeCq q.cqDepth COMPLETION_SIZE

theorem ringsOk_boot : RingsOk .boot :=
  ⟨barsOk_boot, fun h => absurd rfl h, fun h => absurd rfl h, fun h => absurd rfl h,
    fun _ h => (nomatch h), fun _ h => (nomatch h)⟩

namespace RingsOk
variable (h : RingsOk s)
include h

theorem takeAqa (hne : s.oldBar.aqa ≠ s.bar.aqa) : RingsOk s.takeAqa := by
  have hnew : s.bar.aqa ≠ 0 := by
    cases hadmin : s.adminQ with
    | none =>
      rw [h.ok.missing hadmin] at hne
      exact hne.symm
    | some q => exact h.ok.aqa (h.seen (ne_none_of_some hadmin))
  refine ⟨h.ok.takeAqa, fun _ => hnew, fun _ => le_rfl, fun _ => le_rfl, ?_, ?_⟩
  · rintro q' ⟨⟩
    cases hadmin : s.adminQ with
    | none => exact fun _ hp => (nomatch hp)
    | some q =>
      have hless := h.asqs (h.seen (ne_none_of_some hadmin))
      exact (h.sq q hadmin).mono ((h.ok.queue q hadmin).sqDepth ▸ Nat.succ_le_succ hless)
  · rintro q' ⟨⟩
    cases hadmin : s.adminQ with
    | none => exact fun _ hp => (nomatch hp)
    | some q =>
      have hless := h.acqs (h.seen (ne_none_of_some hadmin))
      exact (h.cq q hadmin).mono ((h.ok.queue q hadmin).cqDepth ▸ Nat.succ_le_succ hless)

theorem takeAsq (haqa : s.oldBar.aqa = s.bar.aqa) : RingsOk s.takeAsq := by
  have hok := h.ok.takeAsq haqa
  cases hadmin : s.adminQ with
  | none =>
    unfold Bars.takeAsq
    rw [hadmin]
    exact h
  | some q =>
    rw [Bars.takeAsq_some hadmin] at hok ⊢
    refine ⟨hok, fun _ => h.seen (ne_none_of_some hadmin), h.asqs, h.acqs, ?_, ?_⟩
    · rintro q' ⟨⟩ pages ⟨⟩
      exact ⟨_, le_rfl, Nat.mod_lt _ (by decide), rfl⟩
    · rintro q' ⟨⟩
      exact h.cq q hadmin

theorem takeAcq (haqa : s.oldBar.aqa = s.bar.aqa) : RingsOk s.takeAcq := by
  have hok := h.ok.takeAcq haqa
  cases hadmin : s.adminQ with
  | none =>
    unfold Bars.takeAcq
    rw [hadmin]
    exact h
  | some q =>
    rw [Bars.takeAcq_some hadmin] at hok ⊢
    refine ⟨hok, fun _ => h.seen (ne_none_of_some hadmin), h.asqs, h.acqs, ?_, ?_⟩
    · rintro q' ⟨⟩
      exact h.sq q hadmin
    · rintro q' ⟨⟩ pages ⟨⟩
      exact ⟨_, le_rfl, Nat.mod_lt _ (by decide), rfl⟩

theorem takeCc (haqa : s.oldBar.aqa = s.bar.aqa) (hcc : s.oldBar.cc ≠ s.bar.cc) :
    Sat (fun _ => False) RingsOk s.takeCc := by
  obtain ⟨q, hadmin⟩ := h.ok.queue_of_cc haqa hcc
  have hok := h.ok.takeCc hadmin
  have hseen := h.seen (ne_none_of_some hadmin)
  unfold Bars.takeCc at hok ⊢
  dsimp only at hok ⊢
  rw [hadmin] at hok ⊢
  by_cases hshn : s.bar.shn = 1
  · rw [if_pos hshn] at hok ⊢
    refine ⟨hok.1, fun _ => hseen, h.asqs, h.acqs, ?_, ?_⟩
    · rintro q' ⟨⟩
      exact h.sq q hadmin
    · rintro q' ⟨⟩
      exact h.cq q hadmin
  · rw [if_neg hshn] at hok ⊢
    refine ⟨hok.1, fun _ => hseen, h.asqs, h.acqs, ?_, ?_⟩
    · rintro q' ⟨⟩
      exact h.sq q hadmin
    · rintro q' ⟨⟩
      exact h.cq q hadmin

/-- **One step** of a host that never enlarges the admin queue. -/
theorem step (hlegal : e.Legal s) (hshrinks : e.Shrinks s) :
    Sat (fun _ => False) RingsOk (bars.step s e) := by
  have hok := h.ok.step hlegal
  cases e with
  | writeAqa v =>
    refine ⟨hok, h.seen, fun hold => ?_, fun hold => ?_, h.sq, h.cq⟩
    · exact (hshrinks (h.ok.aqa hold)).1.trans (h.asqs hold)
    · exact (hshrinks (h.ok.aqa hold)).2.trans (h.acqs hold)
  | writeAsq v => exact ⟨hok, h.seen, h.asqs, h.acqs, h.sq, h.cq⟩
  | writeAcq v => exact ⟨hok, h.seen, h.asqs, h.acqs, h.sq, h.cq⟩
  | writeCc v => exact ⟨hok, h.seen, h.asqs, h.acqs, h.sq, h.cq⟩
  | ring i v => exact ⟨hok, h.seen, h.asqs, h.acqs, h.sq, h.cq⟩
  | look =>
    refine (look_cases (Q := fun r => RingsOk r.2) (fun haqa => h.takeAqa haqa)
      (fun haqa _ => h.takeAsq haqa) (fun haqa _ _ => h.takeAcq haqa)
      (fun haqa _ _ hcc => h.takeCc haqa hcc) fun _ _ _ _ => h).map_ok fun _ hr => hr
  | serve cqHead phase =>
    change RingsOk (s.serve cqHead phase)
    change BarsOk (s.serve cqHead phase) at hok
    unfold Bars.serve at hok ⊢
    cases hadmin : s.adminQ with
    | none => exact h
    | some q =>
      rw [hadmin] at hok
      refine ⟨hok, fun _ => h.seen (ne_none_of_some hadmin), h.asqs,
        h.acqs, ?_, ?_⟩
      · rintro q' ⟨⟩
        exact h.sq q hadmin
      · rintro q' ⟨⟩
        exact h.cq q hadmin

end RingsOk

/-- Every entry of the rings of the admin queue is where the host put it. -/
structure EntriesInPlace (s : Bars) (q : NvmevAdminQueue) : Prop where
  sq : ∀ pages, q.nvmeSq = some pages → 4096 ∣ s.oldBar.asq.toNat → ∀ i < q.sqDepth,
    entryAddr pages COMMAND_SIZE i = some (s.oldBar.asq.toNat + i * COMMAND_SIZE)
  cq : ∀ pages, q.nvmeCq = some pages → 4096 ∣ s.oldBar.acq.toNat → ∀ i < q.cqDepth,
    entryAddr pages COMPLETION_SIZE i = some (s.oldBar.acq.toNat + i * COMPLETION_SIZE)

theorem RingCovers.entryAddr {base : BitVec 64} {ring : Option (List ℕ)} {depth entrySize : ℕ}
    (h : RingCovers base ring depth entrySize) (hsize : entrySize ∣ 4096) (pages : List ℕ)
    (hpages : ring = some pages) (hbase : 4096 ∣ base.toNat) (i : ℕ) (hi : i < depth) :
    entryAddr pages entrySize i = some (base.toNat + i * entrySize) := by
  obtain ⟨depth', hle, hdepth, rfl⟩ := h pages hpages
  exact entryAddr_ringPages hsize hbase hdepth (hi.trans_le hle)

/-- **The rings are covered**: of a host that never enlarges the admin queue, between any two events the
    entries up to the depths are inside the pages, and where the host put them. -/
theorem rings_covered (hlegal : bars.Along (fun s e => e.Legal s ∧ e.Shrinks s) .boot es) :
    ∃ s, bars.run .boot es = .ok s ∧ ∀ q, s.adminQ = some q → EntriesInPlace s q := by
  obtain ⟨s, hrun, h⟩ := (Machine.run_sat (fun _ _ h hlegal => h.step hlegal.1 hlegal.2)
    ringsOk_boot hlegal).exists_ok fun _ hf => hf
  refine ⟨s, hrun, fun q hq => ⟨?_, ?_⟩⟩
  · exact (h.sq q hq).entryAddr (by decide)
  · exact (h.cq q hq).entryAddr (by decide)

/-- The host halves the admin queue. -/
theorem rings_covered_halved : ∃ s, bars.run .boot
      [.writeAqa 0x7f007f, .writeAsq 0x8000, .look, .look, .writeAqa 0x3f003f, .look] = .ok s ∧
    ∀ q, s.adminQ = some q → EntriesInPlace s q := by
  have hne : (0x7f007f : BitVec 32) ≠ 0 := by decide
  have hne' : (0x3f003f : BitVec 32) ≠ 0 := by decide
  refine rings_covered ⟨⟨hne, fun h0 => absurd rfl h0⟩, ?_⟩
  rintro _ ⟨⟩
  refine ⟨⟨trivial, trivial⟩, ?_⟩
  rintro _ ⟨⟩
  refine ⟨⟨trivial, trivial⟩, ?_⟩
  rintro _ ⟨⟩
  refine ⟨⟨trivial, trivial⟩, ?_⟩
  rintro _ ⟨⟩
  refine ⟨⟨hne', fun _ => ⟨by decide, by decide⟩⟩, ?_⟩
  rintro _ ⟨⟩
  exact ⟨⟨trivial, trivial⟩, fun _ _ => trivial⟩

end WaitGc

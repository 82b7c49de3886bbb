/-
  WAITGC verification — the lines in every reachable state.

  `LinesSound` says where the lines are and what their counters count: a line
  is in one place only, the counters of the places are their sizes, `pos` tells
  the members of the victim queue, `vpc` and `ipc` count pages and sum up the
  blocks, and the pages of a line are in the states that its place admits.
-/
import WaitGc.Proof.Devices
import WaitGc.Proof.System

namespace WaitGc

open Outcome Tally

variable {c : Cfg} {s : ConvFtl} {d : Device} {pl : ℕ → Place} {i part : ℕ}

/-- Line `i` is on the shelf `x` of the FTL. -/
def ConvFtl.Holds (s : ConvFtl) (x : Place) (i : ℕ) : Prop :=
  match x with
  | .free => i ∈ s.lm.freeLineList
  | .full => i ∈ s.lm.fullLineList
  | .victim => ∃ k, 1 ≤ k ∧ k < s.lm.victimLinePq.size ∧ s.lm.victimLinePq.d k = .ptr i
  | .opened io => (s.getWp io).curline = i
  | .gone => False

/-- The pages of line `i` in state `st`, counted over its blocks. -/
def linePages (c : Cfg) (s : ConvFtl) (i : ℕ) (st : PgStatus) : ℕ :=
  lineSum c i fun b => ((Finset.range c.sp.pgsPerBlk).filter fun k => (s.blk b).pg k = st).card

/-- The lines and their counters. -/
structure LinesSound (c : Cfg) (s : ConvFtl) : Prop where
  one_place : ∀ i < c.sp.ttLines, ∃! x, s.Holds x i
  once : s.lm.freeLineList.Nodup ∧ s.lm.fullLineList.Nodup ∧
    ∀ j k, 1 ≤ j → j < s.lm.victimLinePq.size → 1 ≤ k → k < s.lm.victimLinePq.size →
      s.lm.victimLinePq.d j = s.lm.victimLinePq.d k → j = k
  counters : s.lm.freeLineCnt = s.lm.freeLineList.length ∧
    s.lm.fullLineCnt = s.lm.fullLineList.length ∧
    s.lm.victimLineCnt + 1 = s.lm.victimLinePq.size
  pos : ∀ i < c.sp.ttLines, ((s.lm.lines i).pos ≠ 0 ↔ s.Holds .victim i) ∧
    ((s.lm.lines i).pos ≠ 0 → s.lm.victimLinePq.d (s.lm.lines i).pos = .ptr i)
  pages : ∀ i < c.sp.ttLines, (s.lm.lines i).vpc = linePages c s i .valid ∧
    (s.lm.lines i).ipc = linePages c s i .invalid
  blocks : ∀ i < c.sp.ttLines, (s.lm.lines i).vpc = lineSum c i (fun b => (s.blk b).vpc) ∧
    (s.lm.lines i).ipc = lineSum c i (fun b => (s.blk b).ipc)
  free : ∀ i < c.sp.ttLines, s.Holds .free i → ∀ p, IsPage c p → p.line = i → s.status p = .free
  full : ∀ i < c.sp.ttLines, s.Holds .full i → (s.lm.lines i).vpc = c.sp.pgsPerLine
  victim : ∀ i < c.sp.ttLines, s.Holds .victim i → 1 ≤ (s.lm.lines i).ipc ∧
    (s.lm.lines i).vpc + (s.lm.lines i).ipc = c.sp.pgsPerLine
  opened : ∀ io, (s.lm.lines (s.getWp io).curline).vpc + (s.lm.lines (s.getWp io).curline).ipc =
    (s.getWp io).ord c

theorem FtlOk.holds_iff (h : FtlOk c s pl) (hi : i < c.sp.blksPerPl) (x : Place) :
    s.Holds x i ↔ pl i = x := by
  have hsh := h.phys.shelved
  cases x with
  | free =>
    change i ∈ s.lm.freeLineList ↔ _
    rw [hsh.mem_free]
    exact ⟨fun h => h.2, fun h => ⟨hi, h⟩⟩
  | full =>
    change i ∈ s.lm.fullLineList ↔ _
    rw [hsh.mem_full]
    exact ⟨fun h => h.2, fun h => ⟨hi, h⟩⟩
  | victim =>
    constructor
    · rintro ⟨k, h₁, hk, hd⟩
      obtain ⟨j, -, hj, hd'⟩ := hsh.slot h₁ hk
      rw [hd] at hd'
      obtain rfl := Slot.ptr.inj hd'
      exact hj
    · intro hv
      exact ⟨_, hsh.member hi hv⟩
  | opened io =>
    change (s.getWp io).curline = i ↔ _
    rw [h.phys.opened io i hi]
    exact eq_comm
  | gone =>
    constructor
    · exact False.elim
    · exact fun hg => absurd hg (h.settled i hi)

theorem linePages_eq (hi : i < c.sp.blksPerPl) (st : PgStatus) :
    linePages c s i st = tally (Finset.range c.sp.pgsPerLine) (lineSt c s.blk i) st :=
  (tally_lineSt hi s.blk st).symm

theorem FtlOk.vpc_add_ipc (h : FtlOk c s pl) (hi : i < c.sp.blksPerPl)
    (hpg : ∀ k < c.sp.pgsPerLine, lineSt c s.blk i k ≠ .free) :
    (s.lm.lines i).vpc + (s.lm.lines i).ipc = c.sp.pgsPerLine :=
  (h.phys.line_counted i hi (h.settled i hi)).add_eq le_rfl fun k hk =>
    ⟨fun _ => hk, fun _ => hpg k hk⟩

theorem FtlOk.linesSound (h : FtlOk c s pl) : LinesSound c s := by
  have hsh := h.phys.shelved
  have hB : c.sp.ttLines = c.sp.blksPerPl := Geometry.ttLines_eq'
  have hcount (i : ℕ) (hi : i < c.sp.blksPerPl) := h.phys.line_counted i hi (h.settled i hi)
  have hcnt : s.lm.victimLineCnt + 1 = s.lm.victimLinePq.size := by
    rw [hsh.victimCnt, Nat.sub_add_cancel hsh.linked.size_pos]
  refine ⟨?_, ⟨hsh.free_nodup, hsh.full_nodup, ?_⟩, ⟨hsh.freeCnt, hsh.fullCnt, hcnt⟩,
    ?_, ?_, ?_, ?_, ?_, ?_, ?_⟩ <;> try rw [hB]
  · intro i hi
    refine ⟨pl i, (h.holds_iff hi _).2 rfl, ?_⟩
    intro x hx
    exact ((h.holds_iff hi x).1 hx).symm
  · intro j k hj hjs hk hks he
    obtain ⟨a, -, hd, hp⟩ := hsh.linked.slot j hj hjs
    obtain ⟨b, -, hd', hp'⟩ := hsh.linked.slot k hk hks
    rw [hd, hd'] at he
    obtain rfl := Slot.ptr.inj he
    exact hp.symm.trans hp'
  · intro i hi
    rw [h.holds_iff hi, hsh.pos_ne_zero_iff hi]
    exact ⟨Iff.rfl, fun hv => (hsh.member hi hv).2.2⟩
  · intro i hi
    rw [linePages_eq hi, linePages_eq hi]
    exact hcount i hi
  · intro i hi
    exact h.phys.line_eq_sum hi (h.settled i hi)
  · rintro i hi hf p hp rfl
    have hpg := h.phys.pages p.line hi
    rw [(h.holds_iff hi _).1 hf] at hpg
    change pageSt s.blk p = .free
    rw [← hp.lineSt_eq]
    exact hpg _ hp.ord_lt
  · intro i hi hf
    have hpg := h.phys.pages i hi
    rw [(h.holds_iff hi _).1 hf] at hpg
    exact (hcount i hi).vpc_eq_iff.2 hpg
  · intro i hi hv
    have hpg := h.phys.pages i hi
    rw [(h.holds_iff hi _).1 hv] at hpg
    exact ⟨(hcount i hi).ipc_pos_iff.2 hpg.2, h.vpc_add_ipc hi hpg.1⟩
  · intro io
    have hi := (h.phys.wp_ok io).lt
    have hpg := h.phys.pages _ hi
    rw [(h.phys.opened io _ hi).2 rfl] at hpg
    exact (hcount _ hi).add_eq (h.phys.pos_le io) hpg

/-- **The lines are sound in every reachable state of the greedy build.** -/
theorem lines_sound (hpol : c.build.policy = .greedy) (h : Reachable c d) (hpart : part < c.nrParts) :
    LinesSound c (d.dev.ftls part) := by
  obtain ⟨⟨pl, hok⟩, -⟩ := greedy_inv hpol h hpart
  exact hok.linesSound

theorem lines_sound_trimRun :
    ∃ d, Reachable greedyCfg d ∧ LinesSound greedyCfg (d.dev.ftls 0) := by
  obtain ⟨d, hd⟩ := trimRun_reachable
  exact ⟨d, hd, lines_sound rfl hd Nat.one_pos⟩

end WaitGc

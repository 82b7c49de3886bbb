/-
  WAITGC verification — which samples a block of the fit holds.

  A `Part` is a block with its samples.  `Fitted rows blocks` says that the blocks
  are those of consecutive parts of the sorted samples, every age in one part;
  `load_points` makes such blocks (`groupRows_fitted`), and joining neighbours
  keeps them so (`Fitted.coarsens`).
-/
import WaitGc.Proof.Fit
import Mathlib.Data.List.SplitBy

namespace WaitGc

open Outcome

variable {rows : List Row} {blocks groups : List Block} {columns : List String} {csv : List CsvRow}

/-! ## Parts -/

/-- The block `b` is that of the samples `rows`. -/
structure Covers (rows : List Row) (b : Block) : Prop where
  ageMin_le : ∀ r ∈ rows, b.ageMin ≤ r.age
  le_ageMax : ∀ r ∈ rows, r.age ≤ b.ageMax
  ageMin_mem : ∃ r ∈ rows, r.age = b.ageMin
  ageMax_mem : ∃ r ∈ rows, r.age = b.ageMax
  weight : b.weight = (rows.map (·.weight)).sum
  weightedY : b.weightedY = (rows.map fun r => r.futureInvalid * r.weight).sum
  weightedY2 : b.weightedY2 = (rows.map fun r => r.futureInvalid * r.futureInvalid * r.weight).sum
  samples : b.samples = rows.length

/-- A block, and its samples. -/
structure Part where
  rows : List Row
  block : Block
  covers : Covers rows block

/-- The samples of `p` are younger than those of `q`. -/
def Part.Before (p q : Part) : Prop := ∀ r ∈ p.rows, ∀ r' ∈ q.rows, r.age < r'.age

/-- Two neighbours are one part. -/
def Part.join (p q : Part) (h : p.Before q) : Part where
  rows := p.rows ++ q.rows
  block := p.block.join q.block
  covers := by
    obtain ⟨rp, hrp, hpmax⟩ := p.covers.ageMax_mem
    obtain ⟨rq, hrq, hqmin⟩ := q.covers.ageMin_mem
    constructor
    · intro r hr
      rcases List.mem_append.1 hr with hr | hr
      · exact p.covers.ageMin_le r hr
      · exact (p.covers.ageMin_le rp hrp).trans (h rp hrp r hr).le
    · intro r hr
      rcases List.mem_append.1 hr with hr | hr
      · exact (h r hr rq hrq).le.trans (q.covers.le_ageMax rq hrq)
      · exact q.covers.le_ageMax r hr
    · obtain ⟨r, hr, hmin⟩ := p.covers.ageMin_mem
      exact ⟨r, List.mem_append_left _ hr, hmin⟩
    · obtain ⟨r, hr, hmax⟩ := q.covers.ageMax_mem
      exact ⟨r, List.mem_append_right _ hr, hmax⟩
    · rw [List.map_append, List.sum_append, ← p.covers.weight, ← q.covers.weight]
      rfl
    · rw [List.map_append, List.sum_append, ← p.covers.weightedY, ← q.covers.weightedY]
      rfl
    · rw [List.map_append, List.sum_append, ← p.covers.weightedY2, ← q.covers.weightedY2]
      rfl
    · rw [List.length_append, ← p.covers.samples, ← q.covers.samples]
      rfl

/-- The blocks are those of consecutive parts of the samples. -/
def Fitted (rows : List Row) (blocks : List Block) : Prop :=
  ∃ parts : List Part, parts.map (·.block) = blocks ∧ (parts.map (·.rows)).flatten = rows ∧
    parts.Pairwise Part.Before

theorem Fitted.join {pre post : List Block} {a b : Block} (h : Fitted rows (pre ++ a :: b :: post)) :
    Fitted rows (pre ++ a.join b :: post) := by
  obtain ⟨parts, hblocks, hrows, hbefore⟩ := h
  obtain ⟨ps, tail, rfl, rfl, htail⟩ := List.map_eq_append_iff.1 hblocks
  obtain ⟨p, tail, rfl, rfl, htail'⟩ := List.map_eq_cons_iff.1 htail
  obtain ⟨q, qs, rfl, rfl, rfl⟩ := List.map_eq_cons_iff.1 htail'
  rw [List.pairwise_append] at hbefore
  obtain ⟨hps, hrest, hcross⟩ := hbefore
  obtain ⟨hp, hq, hqs⟩ : (∀ x ∈ q :: qs, p.Before x) ∧ (∀ x ∈ qs, q.Before x) ∧ qs.Pairwise Part.Before := by
    rw [List.pairwise_cons, List.pairwise_cons] at hrest
    exact ⟨hrest.1, hrest.2.1, hrest.2.2⟩
  have hpq := hp q List.mem_cons_self
  refine ⟨ps ++ p.join q hpq :: qs, by simp [Part.join], by simpa [Part.join] using hrows, ?_⟩
  rw [List.pairwise_append, List.pairwise_cons]
  refine ⟨hps, ⟨fun x hx r hr r' hr' => ?_, hqs⟩, fun x hx y hy r hr r' hr' => ?_⟩
  · rcases List.mem_append.1 hr with hr | hr
    · exact hp x (List.mem_cons_of_mem _ hx) r hr r' hr'
    · exact hq x hx r hr r' hr'
  · rcases List.mem_cons.1 hy with rfl | hy
    · rcases List.mem_append.1 hr' with hr' | hr'
      · exact hcross x hx p List.mem_cons_self r hr r' hr'
      · exact hcross x hx q (by simp) r hr r' hr'
    · exact hcross x hx y (by simp [hy]) r hr r' hr'

/-- **Joining neighbours keeps the parts.** -/
theorem Fitted.coarsens (h : Fitted rows blocks) (hc : Coarsens Block.join blocks groups) :
    Fitted rows groups := hc.preserves (fun _ _ _ _ => Fitted.join) h

theorem Fitted.ne_nil (h : Fitted rows blocks) (hne : rows ≠ []) : blocks ≠ [] := by
  obtain ⟨parts, rfl, hrows, -⟩ := h
  intro hnil
  rw [List.map_eq_nil_iff] at hnil
  rw [hnil] at hrows
  exact hne hrows.symm

/-! ## Loading -/

theorem pairwise_lt_of_isChain_ne {l : List ℕ} (hle : l.Pairwise (· ≤ ·)) (hne : l.IsChain (· ≠ ·)) :
    l.Pairwise (· < ·) := by
  induction l with
  | nil => exact .nil
  | cons a l ih =>
    cases l with
    | nil => exact List.pairwise_singleton _ _
    | cons b l =>
      rw [List.isChain_cons_cons] at hne
      rw [List.pairwise_cons] at hle
      have hlt := ih hle.2 hne.2
      refine List.pairwise_cons.2 ⟨fun x hx => ?_, hlt⟩
      have hab : a < b := lt_of_le_of_ne (hle.1 b List.mem_cons_self) hne.1
      rcases List.mem_cons.1 hx with rfl | hx
      · exact hab
      · exact hab.trans ((List.pairwise_cons.1 hlt).1 x hx)

/-- The age of the first sample. -/
def headAge (run : List Row) : ℕ := (run.head?.map (·.age)).getD 0

/-- The runs of sorted samples: one for each age, in order. -/
theorem runs_spec (hsorted : rows.Pairwise fun r r' => r.age ≤ r'.age) :
    let runs := rows.splitBy fun r r' => r.age = r'.age
    runs.flatten = rows ∧ (∀ run ∈ runs, run ≠ [] ∧ ∀ r ∈ run, r.age = headAge run) ∧
      (runs.map headAge).Pairwise (· < ·) := by
  intro runs
  have hflat : runs.flatten = rows := List.flatten_splitBy _ _
  have hne : ∀ run ∈ runs, run ≠ [] := fun run => List.ne_nil_of_mem_splitBy
  have hsame : ∀ run ∈ runs, ∀ r ∈ run, r.age = headAge run := by
    intro run hrun r hr
    have hchain := List.isChain_of_mem_splitBy hrun
    cases run with
    | nil => exact absurd hr List.not_mem_nil
    | cons first rest =>
      have hage : ((first :: rest).map (·.age)).IsChain (· = ·) := by
        rw [List.isChain_map]
        exact hchain.imp fun _ _ h => of_decide_eq_true h
      rw [List.isChain_iff_pairwise, List.map_cons, List.pairwise_cons] at hage
      rcases List.mem_cons.1 hr with rfl | hr
      · rfl
      · exact (hage.1 r.age (List.mem_map_of_mem hr)).symm
  refine ⟨hflat, fun run hrun => ⟨hne run hrun, hsame run hrun⟩, pairwise_lt_of_isChain_ne ?_ ?_⟩
  · rw [← hflat, List.pairwise_flatten] at hsorted
    rw [List.pairwise_map]
    refine hsorted.2.imp_of_mem fun {p q} hp hq hle => ?_
    obtain ⟨r, hr⟩ := List.exists_mem_of_ne_nil p (hne p hp)
    obtain ⟨r', hr'⟩ := List.exists_mem_of_ne_nil q (hne q hq)
    rw [← hsame p hp r hr, ← hsame q hq r' hr']
    exact hle r hr r' hr'
  · have hchain := List.isChain_getLast_head_splitBy (fun r r' : Row => decide (r.age = r'.age)) rows
    rw [List.isChain_map]
    refine hchain.imp_of_mem_imp fun p q hp hq ⟨hpne, hqne, hdiff⟩ heq => ?_
    have hlast := hsame p hp _ (List.getLast_mem hpne)
    have hhead := hsame q hq _ (List.head_mem hqne)
    exact of_decide_eq_false hdiff (hlast.trans (heq.trans hhead.symm))

/-- The samples of one age and their block. -/
theorem sameAgeBlock_covers {first : Row} {rest : List Row} (h : ∀ r ∈ rest, r.age = first.age) :
    Covers (first :: rest) (sameAgeBlock first rest) := by
  have hall : ∀ r ∈ first :: rest, r.age = first.age := List.forall_mem_cons.2 ⟨rfl, h⟩
  exact {
    ageMin_le := fun r hr => (hall r hr).ge
    le_ageMax := fun r hr => (hall r hr).le
    ageMin_mem := ⟨first, List.mem_cons_self, rfl⟩
    ageMax_mem := ⟨first, List.mem_cons_self, rfl⟩
    weight := rfl
    weightedY := rfl
    weightedY2 := rfl
    samples := rfl }

/-- **`load_points`** makes one block for each age. -/
theorem groupRows_fitted (hsorted : rows.Pairwise fun r r' => r.age ≤ r'.age) :
    Fitted rows (groupRows rows) := by
  obtain ⟨hflat, hrun, hlt⟩ := runs_spec hsorted
  unfold groupRows
  generalize (rows.splitBy fun r r' => decide (r.age = r'.age)) = runs at hflat hrun hlt ⊢
  suffices h : ∃ parts : List Part, parts.map (·.block) = _ ∧ parts.map (·.rows) = runs ∧
      parts.Pairwise Part.Before by
    obtain ⟨parts, hblocks, hrows, hbefore⟩ := h
    exact ⟨parts, hblocks, hrows ▸ hflat, hbefore⟩
  clear hflat
  induction runs with
  | nil => exact ⟨[], rfl, rfl, .nil⟩
  | cons run runs ih =>
    rw [List.map_cons, List.pairwise_cons] at hlt
    obtain ⟨⟨hne, hsame⟩, hruns⟩ := List.forall_mem_cons.1 hrun
    obtain ⟨parts, hblocks, hrows, hbefore⟩ := ih hruns hlt.2
    cases run with
    | nil => exact absurd rfl hne
    | cons first rest =>
      have hcov := sameAgeBlock_covers fun r hr => hsame r (List.mem_cons_of_mem _ hr)
      refine ⟨⟨_, _, hcov⟩ :: parts, ?_, ?_, List.pairwise_cons.2 ⟨fun q hq r hr r' hr' => ?_, hbefore⟩⟩
      · rw [List.map_cons, hblocks]
        rfl
      · rw [List.map_cons, hrows]
      · have hmem : q.rows ∈ runs := hrows ▸ List.mem_map_of_mem hq
        rw [hsame r hr, (hruns q.rows hmem).2 r' hr']
        exact hlt.1 _ (List.mem_map_of_mem hmem)

theorem sortRows_spec (rows : List Row) :
    let sorted := rows.mergeSort fun r r' => r.age ≤ r'.age
    sorted.Perm rows ∧ sorted.Pairwise fun r r' => r.age ≤ r'.age := by
  refine ⟨List.mergeSort_perm _ _, ?_⟩
  have h := @List.pairwise_mergeSort _ (fun r r' : Row => decide (r.age ≤ r'.age))
    (fun a b d hab hbd => decide_eq_true ((of_decide_eq_true hab).trans (of_decide_eq_true hbd)))
    (fun a b => by simpa using Nat.le_total a.age b.age) rows
  exact h.imp fun h => of_decide_eq_true h

theorem loadRows_ne_nil (h : loadRows columns csv = .ok rows) : rows ≠ [] := by
  unfold loadRows at h
  dsimp only at h
  split_ifs at h
  · cases h
  · obtain ⟨rows', -, h⟩ := bind_eq_ok h
    split_ifs at h with hnil
    · cases h
    · cases h
      exact hnil

end WaitGc

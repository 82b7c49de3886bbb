/-
  WAITGC verification — PAVA finds the best non-increasing fit.

  The blocks of `fitted` stand with their groups, newest first (`PavaInv`): each group
  is pooled by its mean (`Isotonic.Pools`), and the means never increase from the oldest
  on.  A push joins the last group with the one before it while their means increase
  (`pavaPush_groups`), so the means at the end are the best assignment
  (`pava_decreasing_exact`).
-/
import WaitGc.Proof.Groups

namespace WaitGc

open Outcome Isotonic

/-! ## PAVA -/

/-- A group of PAVA with its block. -/
structure PooledGroup (g : List Block × Block) : Prop where
  groupOf : GroupOf g.1 g.2
  pools : Pools Block.weight Block.mean g.1 g.2.mean

/-- `fitted` after the blocks `pre`, with the groups of its blocks. -/
structure PavaInv (pre : List Block) (fitted : List (List Block × Block)) : Prop where
  flatten : (fitted.reverse.map Prod.fst).flatten = pre
  pooled : ∀ g ∈ fitted, PooledGroup g
  sorted : (fitted.map fun g => g.2.mean).Pairwise (· ≤ ·)

theorem PavaInv.tail {pre : List Block} {g : List Block × Block} {fitted : List (List Block × Block)}
    (h : PavaInv pre (g :: fitted)) :
    ∃ pre', pre = pre' ++ g.1 ∧ PavaInv pre' fitted := by
  refine ⟨(fitted.reverse.map Prod.fst).flatten, ?_, rfl, fun g' hg' => ?_, ?_⟩
  · rw [← h.flatten]
    simp
  · exact h.pooled g' (List.mem_cons_of_mem _ hg')
  · exact (List.pairwise_cons.1 h.sorted).2

theorem PavaInv.cons {pre : List Block} {g : List Block × Block} {fitted : List (List Block × Block)}
    (h : PavaInv pre fitted) (hg : PooledGroup g) (hle : ∀ g' ∈ fitted, g.2.mean ≤ g'.2.mean) :
    PavaInv (pre ++ g.1) (g :: fitted) := by
  refine ⟨?_, fun g' hg' => ?_, List.pairwise_cons.2 ⟨fun m hm => ?_, h.sorted⟩⟩
  · rw [← h.flatten]
    simp
  · rcases List.mem_cons.1 hg' with rfl | hg'
    · exact hg
    · exact h.pooled g' hg'
  · obtain ⟨g', hg', rfl⟩ := List.mem_map.1 hm
    exact hle g' hg'

theorem PooledGroup.join {g g' : List Block × Block} (h : PooledGroup g) (h' : PooledGroup g')
    (hlt : g.2.mean < g'.2.mean) : PooledGroup (g.1 ++ g'.1, g.2.join g'.2) :=
  have hgroup := h.groupOf.append h'.groupOf
  ⟨hgroup, h.pools.append Block.weight_pos h'.pools hlt.le hgroup.moment⟩

/-- **A push of `pava_decreasing`.** -/
theorem pavaPush_groups {pre : List Block} {last : List Block × Block} {fitted : List (List Block × Block)}
    (hlast : PooledGroup last) (h : PavaInv pre fitted) :
    ∃ fitted', pavaPush last.2 (fitted.map Prod.snd) = .ok (fitted'.map Prod.snd) ∧
      PavaInv (pre ++ last.1) fitted' := by
  induction fitted generalizing pre last with
  | nil => exact ⟨[last], rfl, h.cons hlast (by simp)⟩
  | cons prev fitted ih =>
    obtain ⟨pre', rfl, htail⟩ := h.tail
    rw [List.map_cons, pavaPush]
    by_cases hmean : prev.2.mean < last.2.mean
    · -- the two are joined, and the joined one is compared with the one before
      obtain ⟨fitted', hpush, hinv⟩ := ih ((h.pooled prev List.mem_cons_self).join hlast hmean) htail
      refine ⟨fitted', ?_, by rwa [List.append_assoc]⟩
      rw [if_pos hmean, mergeBlocks_pair, ok_bind]
      exact hpush
    · refine ⟨last :: prev :: fitted, by rw [if_neg hmean]; rfl, h.cons hlast fun g hg => ?_⟩
      rcases List.mem_cons.1 hg with rfl | hg
      · exact not_lt.1 hmean
      · have hprev := (List.pairwise_cons.1 h.sorted).1 g.2.mean (List.mem_map.2 ⟨g, hg, rfl⟩)
        exact (not_lt.1 hmean).trans hprev

/-- **The run of `pava_decreasing`.** -/
theorem pavaDecreasing_groups (points : List Block) :
    ∃ fitted, pavaDecreasing points = .ok (fitted.reverse.map Prod.snd) ∧ PavaInv points fitted := by
  let I (pre fitted : List Block) : Prop := ∃ gs, fitted = gs.map Prod.snd ∧ PavaInv pre gs
  have hloop : Sat (fun _ => False) (I points)
      (points.foldlM (fun fitted point => pavaPush point fitted) [] : Except FitError (List Block)) := by
    refine sat_foldlM I points ?_ ⟨[], rfl, rfl, by simp, .nil⟩
    rintro pre point post _ - ⟨gs, rfl, hinv⟩
    have hpoint : PooledGroup ([point], point) := ⟨GroupOf.single point, Pools.single point⟩
    obtain ⟨gs', hpush, hinv'⟩ := pavaPush_groups hpoint hinv
    rw [hpush]
    exact ⟨gs', rfl, hinv'⟩
  obtain ⟨fitted, hf, gs, rfl, hinv⟩ := hloop.exists_ok fun _ h => h
  refine ⟨gs, ?_, hinv⟩
  rw [pavaDecreasing, hf, List.map_reverse]
  rfl

/-! ## The best fit -/

/-- The weighted squared error of `values`, one for each block. -/
def fitError (points : List Block) (values : List ℚ) : ℚ :=
  ((points.zip values).map fun p => p.1.weight * (p.1.mean - p.2) ^ 2).sum

/-- The mean of its group, for each block of each group. -/
def fittedValues (groups : List (List Block)) (fitted : List Block) : List ℚ :=
  (List.zipWith (fun group b => List.replicate group.length b.mean) groups fitted).flatten

/-- `values` is the best non-increasing fit of `points`. -/
structure BestFit (points : List Block) (values : List ℚ) : Prop where
  length : values.length = points.length
  decreasing : values.Pairwise (· ≥ ·)
  best : ∀ other : List ℚ, other.length = points.length → other.Pairwise (· ≥ ·) →
    fitError points values ≤ fitError points other

theorem fittedValues_eq (gs : List (List Block × Block)) :
    fittedValues (gs.map Prod.fst) (gs.map Prod.snd)
      = (assign (gs.map fun g => (g.1, g.2.mean))).map Prod.snd := by
  induction gs with
  | nil => rfl
  | cons g gs ih =>
    simp only [fittedValues, assign, List.map_cons, List.zipWith_cons_cons, List.flatten_cons,
      List.flatMap_cons, List.map_append] at ih ⊢
    rw [ih]
    congr 1
    rw [List.map_map]
    exact List.map_const.symm

theorem PavaInv.bestFit {points : List Block} {fitted : List (List Block × Block)}
    (h : PavaInv points fitted) :
    BestFit points (fittedValues (fitted.reverse.map Prod.fst) (fitted.reverse.map Prod.snd)) := by
  let gs := fitted.reverse.map fun g => (g.1, g.2.mean)
  have hfst : (assign gs).map Prod.fst = points := by
    rw [assign_fst, List.map_map]
    exact h.flatten
  have hzip : points.zip ((assign gs).map Prod.snd) = assign gs := by
    rw [← hfst]
    exact (List.zip_of_prod rfl rfl).symm
  have hsorted : (gs.map Prod.snd).Pairwise (· ≥ ·) := by
    rw [List.map_map, List.map_reverse, List.pairwise_reverse]
    exact h.sorted
  rw [fittedValues_eq]
  refine ⟨?_, assign_nonIncreasing hsorted, fun other hlen hmono => ?_⟩
  · rw [List.length_map, ← hfst, List.length_map]
  · have hpools : ∀ g ∈ gs, Pools Block.weight Block.mean g.1 g.2 := by
      intro g hg
      obtain ⟨g', hg', rfl⟩ := List.mem_map.1 hg
      exact (h.pooled g' (List.mem_reverse.1 hg')).pools
    have hother : (points.zip other).map Prod.fst = (gs.map Prod.fst).flatten := by
      rw [List.map_fst_zip hlen.ge, ← assign_fst, hfst]
    have hmono' : NonIncreasing (points.zip other) := by
      rw [NonIncreasing, List.map_snd_zip hlen.le]
      exact hmono
    have hbest := assign_optimal Block.weight_pos hpools hother hmono'
    rw [fitError, hzip]
    exact hbest

/-- **`pava_decreasing` is the exact isotonic fit.**  The blocks it returns are those of a
    partition into groups of neighbours, with the totals of the input; their means never
    increase, and no other non-increasing assignment of the input blocks has a smaller
    weighted squared error. -/
theorem pava_decreasing_exact (points : List Block) :
    ∃ fitted groups, pavaDecreasing points = .ok fitted ∧ groups.flatten = points ∧
      List.Forall₂ GroupOf groups fitted ∧
      (fitted.map (·.weight)).sum = (points.map (·.weight)).sum ∧
      (fitted.map (·.weightedY)).sum = (points.map (·.weightedY)).sum ∧
      (fitted.map (·.weightedY2)).sum = (points.map (·.weightedY2)).sum ∧
      (fitted.map (·.samples)).sum = (points.map (·.samples)).sum ∧
      (fitted.map Block.mean).Pairwise (· ≥ ·) ∧ BestFit points (fittedValues groups fitted) := by
  obtain ⟨fitted, hrun, hinv⟩ := pavaDecreasing_groups points
  have hgroups : List.Forall₂ GroupOf (fitted.reverse.map Prod.fst) (fitted.reverse.map Prod.snd) := by
    rw [List.forall₂_map_left_iff, List.forall₂_map_right_iff, List.forall₂_same]
    exact fun g hg => (hinv.pooled g (List.mem_reverse.1 hg)).groupOf
  have hmeans : ((fitted.reverse.map Prod.snd).map Block.mean).Pairwise (· ≥ ·) := by
    rw [List.map_map, List.map_reverse, List.pairwise_reverse]
    exact hinv.sorted
  refine ⟨_, _, hrun, hinv.flatten, hgroups, ?_, ?_, ?_, ?_, hmeans, hinv.bestFit⟩
  · rw [← hinv.flatten, sum_groups hgroups fun _ _ h => h.weight]
  · rw [← hinv.flatten, sum_groups hgroups fun _ _ h => h.weightedY]
  · rw [← hinv.flatten, sum_groups hgroups fun _ _ h => h.weightedY2]
  · rw [← hinv.flatten, sum_groups hgroups fun _ _ h => h.samples]

end WaitGc

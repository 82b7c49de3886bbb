/-
  Cutting a list into ranges at the least cost.

  `Cuts k stop ranges`: the ranges cut `0 .. stop` into `k` parts that are not empty, in
  order.  They are the partitions of a list into `k` groups of neighbours
  (`Cuts.partition`, `exists_cuts`).  A cost for each range gives the cost of a cut, and
  the least cost of `k + 1` ranges comes from those of `k` (`LeastCost.snoc`).
-/
import Mathlib.Algebra.Order.BigOperators.Group.List
import Mathlib.Data.List.Induction
import Mathlib.Order.Bounds.Basic

universe u v
variable {α : Type u} {K : Type v}

/-- `ranges` cut `0 .. stop` into `k` parts. -/
inductive Cuts : ℕ → ℕ → List (ℕ × ℕ) → Prop
  | nil : Cuts 0 0 []
  | snoc {k start stop : ℕ} {ranges : List (ℕ × ℕ)} (h : Cuts k start ranges) (hlt : start < stop) :
      Cuts (k + 1) stop (ranges ++ [(start, stop)])

/-- A partition of a list into `k` groups of neighbours. -/
structure IsPartition (l : List α) (k : ℕ) (groups : List (List α)) : Prop where
  flatten : groups.flatten = l
  nonempty : ∀ g ∈ groups, g ≠ []
  length : groups.length = k

/-- The groups at some ranges. -/
def cutAt (l : List α) (ranges : List (ℕ × ℕ)) : List (List α) :=
  ranges.map fun r => (l.take r.2).drop r.1

namespace Cuts

variable {k stop : ℕ} {ranges : List (ℕ × ℕ)}

theorem range_bounds (h : Cuts k stop ranges) : ∀ r ∈ ranges, r.1 < r.2 ∧ r.2 ≤ stop := by
  induction h with
  | nil => simp
  | snoc h hlt ih =>
    intro r hr
    rcases List.mem_append.1 hr with hr | hr
    · exact ⟨(ih r hr).1, (ih r hr).2.trans hlt.le⟩
    · rw [List.mem_singleton.1 hr]
      exact ⟨hlt, le_rfl⟩

theorem le (h : Cuts k stop ranges) : (k = 0 ∧ stop = 0) ∨ (0 < k ∧ k ≤ stop) := by
  induction h with
  | nil => exact .inl ⟨rfl, rfl⟩
  | snoc _ _ ih => omega

theorem flatten_cutAt {l : List α} (h : Cuts k stop ranges) (hle : stop ≤ l.length) :
    (cutAt l ranges).flatten = l.take stop := by
  induction h with
  | nil => rfl
  | @snoc k start stop ranges h hlt ih =>
    have hstart := ih (hlt.le.trans hle)
    rw [cutAt] at hstart ⊢
    have htake : (l.take stop).take start = l.take start := by
      rw [List.take_take, Nat.min_eq_left hlt.le]
    simp only [List.map_append, List.map_cons, List.map_nil, List.flatten_append, List.flatten_cons,
      List.flatten_nil, List.append_nil]
    rw [hstart, ← htake, List.take_append_drop]

theorem partition {l : List α} (h : Cuts k l.length ranges) : IsPartition l k (cutAt l ranges) := by
  refine ⟨?_, fun g hg => ?_, ?_⟩
  · rw [h.flatten_cutAt le_rfl, List.take_length]
  · obtain ⟨r, hr, rfl⟩ := List.mem_map.1 hg
    have hbounds := h.range_bounds r hr
    intro hnil
    have hlen := congrArg List.length hnil
    rw [List.length_drop, List.length_take, List.length_nil] at hlen
    omega
  · rw [cutAt, List.length_map]
    generalize l.length = n at h
    induction h with
    | nil => rfl
    | snoc _ _ ih => rw [List.length_append, ih]; rfl

end Cuts

/-- **Every partition is a cut.** -/
theorem exists_cuts {l : List α} {k : ℕ} {groups : List (List α)} (h : IsPartition l k groups) :
    ∃ ranges, Cuts k l.length ranges ∧ cutAt l ranges = groups := by
  induction groups using List.reverseRecOn generalizing l k with
  | nil =>
    obtain ⟨rfl, -, rfl⟩ := h
    exact ⟨[], .nil, rfl⟩
  | append_singleton groups g ih =>
    obtain ⟨rfl, hne, rfl⟩ := h
    have hinit : IsPartition groups.flatten groups.length groups :=
      ⟨rfl, fun g' hg' => hne g' (List.mem_append_left _ hg'), rfl⟩
    obtain ⟨ranges, hcuts, hgroups⟩ := ih hinit
    have hg : g ≠ [] := hne g (List.mem_append_right _ (List.mem_singleton.2 rfl))
    have hpos := List.length_pos_iff.2 hg
    have hflat : (groups ++ [g]).flatten = groups.flatten ++ g := by simp
    have hlast : ((groups.flatten ++ g).take (groups.flatten ++ g).length).drop groups.flatten.length = g := by
      rw [List.take_length, List.drop_left]
    refine ⟨ranges ++ [(groups.flatten.length, (groups.flatten ++ g).length)], ?_, ?_⟩
    · rw [List.length_append, List.length_singleton, hflat]
      exact hcuts.snoc (by rw [List.length_append]; omega)
    · rw [hflat, cutAt, List.map_append, List.map_singleton, hlast]
      refine congrArg (· ++ [g]) (Eq.trans ?_ hgroups)
      -- the earlier ranges end before `g`
      refine List.map_congr_left fun r hr => ?_
      rw [List.take_append_of_le_length (hcuts.range_bounds r hr).2]

theorem IsPartition.le_length {l : List α} {k : ℕ} {groups : List (List α)} (h : IsPartition l k groups) :
    k ≤ l.length := by
  obtain ⟨ranges, hcuts, -⟩ := exists_cuts h
  rcases hcuts.le with ⟨rfl, -⟩ | ⟨-, hle⟩
  · exact Nat.zero_le _
  · exact hle

/-! ## Costs -/

variable [AddCommMonoid K] {cost : ℕ → ℕ → K}

/-- The cost of a cut. -/
def cutCost (cost : ℕ → ℕ → K) (ranges : List (ℕ × ℕ)) : K := (ranges.map fun r => cost r.1 r.2).sum

theorem cutCost_snoc (ranges : List (ℕ × ℕ)) (start stop : ℕ) :
    cutCost cost (ranges ++ [(start, stop)]) = cutCost cost ranges + cost start stop := by
  simp [cutCost]

variable [LinearOrder K]

/-- `c` is the least cost of `k` ranges up to `stop`. -/
def LeastCost (cost : ℕ → ℕ → K) (k stop : ℕ) (c : K) : Prop :=
  IsLeast {d | ∃ ranges, Cuts k stop ranges ∧ cutCost cost ranges = d} c

theorem LeastCost.zero : LeastCost cost 0 0 0 := by
  refine ⟨⟨[], .nil, rfl⟩, ?_⟩
  rintro d ⟨ranges, hcuts, rfl⟩
  cases hcuts with
  | nil => exact le_rfl

variable [IsOrderedAddMonoid K]

/-- **The recursion.**  The last range starts where the rest is at its least cost. -/
theorem LeastCost.snoc {k start stop : ℕ} {d c : K} (hlt : start < stop) (hd : LeastCost cost k start d)
    (hc : c = d + cost start stop)
    (hleast : ∀ start' < stop, ∀ ranges, Cuts k start' ranges →
      ∃ d', LeastCost cost k start' d' ∧ c ≤ d' + cost start' stop) :
    LeastCost cost (k + 1) stop c := by
  obtain ⟨⟨ranges, hcuts, hcost⟩, -⟩ := hd
  refine ⟨⟨_, hcuts.snoc hlt, by rw [cutCost_snoc, hcost, hc]⟩, ?_⟩
  rintro e ⟨ranges', hcuts', rfl⟩
  cases hcuts' with
  | @snoc _ start' _ ranges' h hlt' =>
    obtain ⟨d', hd', hle⟩ := hleast start' hlt' ranges' h
    rw [cutCost_snoc]
    exact hle.trans (add_le_add_left (hd'.2 ⟨ranges', h, rfl⟩) _)

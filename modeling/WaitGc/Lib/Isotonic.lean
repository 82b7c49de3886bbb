/-
  Pooled groups and the least squares of an order.

  The elements of a list have a weight `w` and a response `y`, and an assignment of
  values to them is a list of pairs, an element and its value.  `Pools w y l m`: the
  group `l` fits the mean `m`, and no non-increasing assignment of `l` goes with what
  is left over.

  * `Pools.single`, `Pools.append` — one element is pooled, and two neighbours whose
    means increase are pooled by their common mean.
  * `Pools.optimal` — the mean is the best value of a pooled group.
  * `assign_optimal` — the means of a list of pooled groups are its best assignment.
-/
import Mathlib.Algebra.Order.BigOperators.Group.List
import Mathlib.Algebra.Order.Field.Basic
import Mathlib.Tactic.Linarith
import Mathlib.Tactic.Positivity
import Mathlib.Tactic.Ring

universe u v

namespace Isotonic

variable {α : Type u} {K : Type v} {w y : α → K}

/-! ## Assignments -/

/-- The assignment of its mean to each element of each group. -/
def assign (gs : List (List α × K)) : List (α × K) := gs.flatMap fun g => g.1.map fun a => (a, g.2)

theorem assign_fst (gs : List (List α × K)) : (assign gs).map Prod.fst = (gs.map Prod.fst).flatten := by
  induction gs with
  | nil => rfl
  | cons g gs ih =>
    simp only [assign, List.flatMap_cons, List.map_append, List.map_map, List.map_cons,
      List.flatten_cons] at ih ⊢
    rw [ih]
    simp [Function.comp_def]

section
variable [LinearOrder K]

/-- The values of an assignment never increase. -/
def NonIncreasing (s : List (α × K)) : Prop := (s.map Prod.snd).Pairwise (· ≥ ·)

theorem assign_nonIncreasing {gs : List (List α × K)} (h : (gs.map Prod.snd).Pairwise (· ≥ ·)) :
    NonIncreasing (assign gs) := by
  induction gs with
  | nil => exact .nil
  | cons g gs ih =>
    obtain ⟨hhead, htail⟩ := List.pairwise_cons.1 h
    rw [NonIncreasing, assign, List.flatMap_cons, List.map_append, List.pairwise_append]
    refine ⟨?_, ih htail, ?_⟩
    · rw [List.map_map]
      exact List.pairwise_map.2 (List.pairwise_of_forall fun _ _ => le_rfl)
    · intro x hx z hz
      obtain ⟨p, hp, rfl⟩ := List.mem_map.1 hx
      obtain ⟨q, hq, rfl⟩ := List.mem_map.1 hz
      obtain ⟨a, -, rfl⟩ := List.mem_map.1 hp
      obtain ⟨g', hg', hq⟩ := List.mem_flatMap.1 hq
      obtain ⟨b, -, rfl⟩ := List.mem_map.1 hq
      exact hhead _ (List.mem_map_of_mem hg')

end

/-! ## Weighted sums -/

section
variable [Field K]

/-- The total weight. -/
def weightOf (w : α → K) (l : List α) : K := (l.map w).sum

/-- What the mean `m` leaves over of each response, weighted and summed. -/
def moment (w y : α → K) (l : List α) (m : K) : K := (l.map fun a => w a * (y a - m)).sum

/-- The weighted values of an assignment. -/
def mass (w : α → K) (s : List (α × K)) : K := (s.map fun p => w p.1 * p.2).sum

/-- The values of an assignment against what `m` leaves over. -/
def slack (w y : α → K) (m : K) (s : List (α × K)) : K :=
  (s.map fun p => w p.1 * (y p.1 - m) * p.2).sum

/-- The weighted squared error of an assignment. -/
def error (w y : α → K) (s : List (α × K)) : K := (s.map fun p => w p.1 * (y p.1 - p.2) ^ 2).sum

theorem moment_append (l l' : List α) (m : K) :
    moment w y (l ++ l') m = moment w y l m + moment w y l' m := by
  rw [moment, List.map_append, List.sum_append, moment, moment]

/-- Another mean leaves more over by the difference, for all the weight. -/
theorem moment_sub (l : List α) (m m' : K) :
    moment w y l m' = moment w y l m + (m - m') * weightOf w l := by
  induction l with
  | nil => simp [moment, weightOf]
  | cons a l ih =>
    simp only [moment, weightOf, List.map_cons, List.sum_cons] at ih ⊢
    rw [ih]
    ring

theorem slack_append (m : K) (s s' : List (α × K)) :
    slack w y m (s ++ s') = slack w y m s + slack w y m s' := by
  rw [slack, List.map_append, List.sum_append, slack, slack]

theorem slack_sub (m m' : K) (s : List (α × K)) :
    slack w y m' s = slack w y m s + (m - m') * mass w s := by
  induction s with
  | nil => simp [slack, mass]
  | cons p s ih =>
    simp only [slack, mass, List.map_cons, List.sum_cons] at ih ⊢
    rw [ih]
    ring

theorem error_append (s s' : List (α × K)) : error w y (s ++ s') = error w y s + error w y s' := by
  rw [error, List.map_append, List.sum_append, error, error]

/-- The error of an assignment, from the error of the mean. -/
theorem error_eq (m : K) (s : List (α × K)) :
    error w y s = error w y (s.map fun p => (p.1, m))
      + (2 * m * moment w y (s.map Prod.fst) m - 2 * slack w y m s)
      + (s.map fun p => w p.1 * (m - p.2) ^ 2).sum := by
  induction s with
  | nil => simp [error, moment, slack]
  | cons p s ih =>
    simp only [error, moment, slack, List.map_cons, List.sum_cons] at ih ⊢
    rw [ih]
    ring

end

variable [Field K] [LinearOrder K]

/-- A non-increasing assignment of two lists has a value between those of the two. -/
theorem NonIncreasing.split {s s' : List (α × K)} (h : NonIncreasing (s ++ s')) :
    NonIncreasing s ∧ NonIncreasing s' ∧ ∃ t, (∀ p ∈ s, t ≤ p.2) ∧ ∀ p ∈ s', p.2 ≤ t := by
  rw [NonIncreasing, List.map_append, List.pairwise_append] at h
  obtain ⟨hs, hs', hcross⟩ := h
  refine ⟨hs, hs', ?_⟩
  cases s' with
  | nil =>
    -- below all of `s`: its last value
    rcases List.eq_nil_or_concat s with rfl | ⟨s, p, rfl⟩
    · exact ⟨0, by simp, by simp⟩
    · refine ⟨p.2, fun q hq => ?_, by simp⟩
      rw [List.concat_eq_append, List.map_append, List.pairwise_append] at hs
      rw [List.concat_eq_append] at hq
      rcases List.mem_append.1 hq with hq | hq
      · exact hs.2.2 _ (List.mem_map_of_mem hq) _ (by simp)
      · rw [List.mem_singleton.1 hq]
  | cons p s' =>
    have hhead := List.pairwise_cons.1 hs'
    refine ⟨p.2, fun q hq => ?_, fun q hq => ?_⟩
    · exact hcross _ (List.mem_map_of_mem hq) _ List.mem_cons_self
    · rcases List.mem_cons.1 hq with rfl | hq
      · exact le_rfl
      · exact hhead.1 _ (List.mem_map_of_mem hq)

/-! ## Pooled groups -/

/-- The group `l` is pooled by the mean `m`. -/
structure Pools (w y : α → K) (l : List α) (m : K) : Prop where
  nonempty : l ≠ []
  moment : moment w y l m = 0
  slack : ∀ s : List (α × K), s.map Prod.fst = l → NonIncreasing s → slack w y m s ≤ 0

theorem Pools.single (a : α) : Pools w y [a] (y a) := by
  refine ⟨List.cons_ne_nil _ _, by simp [Isotonic.moment], fun s hs _ => ?_⟩
  have hzero : ∀ p ∈ s, p.1 = a := fun p hp => by simpa [hs] using List.mem_map_of_mem (f := Prod.fst) hp
  refine (List.sum_eq_zero fun x hx => ?_).le
  obtain ⟨p, hp, rfl⟩ := List.mem_map.1 hx
  rw [hzero p hp]
  ring

variable [IsStrictOrderedRing K]

theorem weightOf_pos (hw : ∀ a, 0 < w a) {l : List α} (hl : l ≠ []) : 0 < weightOf w l := by
  obtain ⟨a, l, rfl⟩ := List.exists_cons_of_ne_nil hl
  rw [weightOf, List.map_cons, List.sum_cons]
  refine add_pos_of_pos_of_nonneg (hw a) (List.sum_nonneg fun x hx => ?_)
  obtain ⟨b, -, rfl⟩ := List.mem_map.1 hx
  exact (hw b).le

theorem mul_weightOf_le_mass (hw : ∀ a, 0 < w a) {s : List (α × K)} {t : K} (h : ∀ p ∈ s, t ≤ p.2) :
    t * weightOf w (s.map Prod.fst) ≤ mass w s := by
  induction s with
  | nil => simp [weightOf, mass]
  | cons p s ih =>
    have hrest := ih fun q hq => h q (List.mem_cons_of_mem _ hq)
    have hhead := mul_le_mul_of_nonneg_left (h p List.mem_cons_self) (hw p.1).le
    simp only [weightOf, mass, List.map_cons, List.sum_cons] at hrest ⊢
    linarith

theorem mass_le_mul_weightOf (hw : ∀ a, 0 < w a) {s : List (α × K)} {t : K} (h : ∀ p ∈ s, p.2 ≤ t) :
    mass w s ≤ t * weightOf w (s.map Prod.fst) := by
  induction s with
  | nil => simp [weightOf, mass]
  | cons p s ih =>
    have hrest := ih fun q hq => h q (List.mem_cons_of_mem _ hq)
    have hhead := mul_le_mul_of_nonneg_left (h p List.mem_cons_self) (hw p.1).le
    simp only [weightOf, mass, List.map_cons, List.sum_cons] at hrest ⊢
    linarith

/-- **Two neighbours whose means do not decrease are pooled together.** -/
theorem Pools.append (hw : ∀ a, 0 < w a) {l l' : List α} {m m' M : K} (h : Pools w y l m)
    (h' : Pools w y l' m') (hle : m ≤ m') (hM : Isotonic.moment w y (l ++ l') M = 0) :
    Pools w y (l ++ l') M := by
  have hl := weightOf_pos hw h.nonempty
  have hl' := weightOf_pos hw h'.nonempty
  -- the common mean lies between the two
  have hbalance : (m - M) * weightOf w l + (m' - M) * weightOf w l' = 0 := by
    rw [moment_append, moment_sub l m, moment_sub l' m', h.moment, h'.moment] at hM
    linarith
  have hlow : m ≤ M := by
    by_contra hlt
    push Not at hlt
    have h1 := mul_pos (sub_pos.2 hlt) hl
    have h2 := mul_pos (sub_pos.2 (hlt.trans_le hle)) hl'
    linarith
  have hhigh : M ≤ m' := by
    by_contra hlt
    push Not at hlt
    have h1 := mul_pos (sub_pos.2 (hle.trans_lt hlt)) hl
    have h2 := mul_pos (sub_pos.2 hlt) hl'
    linarith
  refine ⟨List.append_ne_nil_of_left_ne_nil h.nonempty _, hM, fun s hs hmono => ?_⟩
  obtain ⟨sl, sl', rfl, rfl, rfl⟩ := List.map_eq_append_iff.1 hs
  obtain ⟨hmono₁, hmono₂, t, habove, hbelow⟩ := hmono.split
  have h₁ := h.slack sl rfl hmono₁
  have h₂ := h'.slack sl' rfl hmono₂
  have hm₁ : (m - M) * mass w sl ≤ (m - M) * (t * weightOf w (sl.map Prod.fst)) :=
    mul_le_mul_of_nonpos_left (mul_weightOf_le_mass hw habove) (sub_nonpos.2 hlow)
  have hm₂ : (m' - M) * mass w sl' ≤ (m' - M) * (t * weightOf w (sl'.map Prod.fst)) :=
    mul_le_mul_of_nonneg_left (mass_le_mul_weightOf hw hbelow) (sub_nonneg.2 hhigh)
  calc Isotonic.slack w y M (sl ++ sl')
      = Isotonic.slack w y m sl + (m - M) * mass w sl
          + (Isotonic.slack w y m' sl' + (m' - M) * mass w sl') := by
        rw [slack_append, slack_sub m M, slack_sub m' M]
    _ ≤ (m - M) * (t * weightOf w (sl.map Prod.fst)) + (m' - M) * (t * weightOf w (sl'.map Prod.fst)) := by
        linarith
    _ = t * ((m - M) * weightOf w (sl.map Prod.fst) + (m' - M) * weightOf w (sl'.map Prod.fst)) := by ring
    _ = 0 := by rw [hbalance, mul_zero]

/-- **The mean is the best value of a pooled group.** -/
theorem Pools.optimal (hw : ∀ a, 0 < w a) {l : List α} {m : K} (h : Pools w y l m)
    {s : List (α × K)} (hs : s.map Prod.fst = l) (hmono : NonIncreasing s) :
    error w y (l.map fun a => (a, m)) ≤ error w y s := by
  have hmean : (s.map fun p => (p.1, m)) = l.map fun a => (a, m) := by
    rw [← hs, List.map_map]
    rfl
  have hrest : 0 ≤ (s.map fun p => w p.1 * (m - p.2) ^ 2).sum := by
    refine List.sum_nonneg fun x hx => ?_
    obtain ⟨p, -, rfl⟩ := List.mem_map.1 hx
    exact mul_nonneg (hw p.1).le (sq_nonneg _)
  have hslack := h.slack s hs hmono
  rw [error_eq m s, hmean, hs, h.moment]
  linarith

/-! ## Lists of groups -/

/-- **The means of pooled groups are the best non-increasing assignment.** -/
theorem assign_optimal (hw : ∀ a, 0 < w a) {gs : List (List α × K)}
    (h : ∀ g ∈ gs, Pools w y g.1 g.2) {s : List (α × K)}
    (hs : s.map Prod.fst = (gs.map Prod.fst).flatten) (hmono : NonIncreasing s) :
    error w y (assign gs) ≤ error w y s := by
  induction gs generalizing s with
  | nil =>
    have hnil : s = [] := List.map_eq_nil_iff.1 hs
    rw [hnil]
    rfl
  | cons g gs ih =>
    rw [List.map_cons, List.flatten_cons] at hs
    obtain ⟨sl, sl', rfl, hsl, hsl'⟩ := List.map_eq_append_iff.1 hs
    obtain ⟨hmono₁, hmono₂, -⟩ := hmono.split
    have hhead := (h g List.mem_cons_self).optimal hw hsl hmono₁
    have htail := ih (fun g' hg' => h g' (List.mem_cons_of_mem _ hg')) hsl' hmono₂
    rw [assign, List.flatMap_cons, error_append, error_append]
    exact add_le_add hhead htail

end Isotonic

/-
  WAITGC verification — a block and the group of blocks it stands for.

  `GroupOf`: what `merge_blocks` makes of a group of neighbours.  The mean of a group
  leaves nothing over (`GroupOf.moment`) and lies between the means of its blocks
  (`GroupOf.le_mean`, `GroupOf.mean_le`), so groups of non-increasing blocks are
  non-increasing (`groups_nonIncreasing`).
-/
import WaitGc.Lib.Isotonic
import WaitGc.Proof.Fit

namespace WaitGc

open Outcome Isotonic

/-- The block of a group of neighbours. -/
structure GroupOf (group : List Block) (b : Block) : Prop where
  nonempty : group ≠ []
  ageMin : group.head?.map (·.ageMin) = some b.ageMin
  ageMax : group.getLast?.map (·.ageMax) = some b.ageMax
  weight : (group.map (·.weight)).sum = b.weight
  weightedY : (group.map (·.weightedY)).sum = b.weightedY
  weightedY2 : (group.map (·.weightedY2)).sum = b.weightedY2
  samples : (group.map (·.samples)).sum = b.samples

theorem GroupOf.single (b : Block) : GroupOf [b] b := by
  constructor <;> simp

theorem GroupOf.append {g g' : List Block} {b b' : Block} (h : GroupOf g b) (h' : GroupOf g' b') :
    GroupOf (g ++ g') (b.join b') where
  nonempty := List.append_ne_nil_of_left_ne_nil h.nonempty _
  ageMin := by rw [List.head?_append_of_ne_nil _ h.nonempty, h.ageMin]; rfl
  ageMax := by rw [List.getLast?_append_of_ne_nil _ h'.nonempty, h'.ageMax]; rfl
  weight := by rw [List.map_append, List.sum_append, h.weight, h'.weight]; rfl
  weightedY := by rw [List.map_append, List.sum_append, h.weightedY, h'.weightedY]; rfl
  weightedY2 := by rw [List.map_append, List.sum_append, h.weightedY2, h'.weightedY2]; rfl
  samples := by rw [List.map_append, List.sum_append, h.samples, h'.samples]; rfl

/-- What a group of neighbours adds up to, their groups together do. -/
theorem sum_groups {β : Type} [AddCommMonoid β] {f : Block → β} {groups : List (List Block)}
    {blocks : List Block} (h : List.Forall₂ GroupOf groups blocks)
    (hf : ∀ g b, GroupOf g b → (g.map f).sum = f b) :
    (groups.flatten.map f).sum = (blocks.map f).sum := by
  induction h with
  | nil => rfl
  | cons hg _ ih =>
    rw [List.flatten_cons, List.map_append, List.sum_append, hf _ _ hg, ih, List.map_cons, List.sum_cons]

theorem Block.weight_mul_mean (b : Block) : b.weight * b.mean = b.weightedY :=
  mul_div_cancel₀ _ b.weight_pos.ne'

theorem GroupOf.moment {g : List Block} {b : Block} (h : GroupOf g b) :
    moment Block.weight Block.mean g b.mean = 0 := by
  have hsum (l : List Block) (m : ℚ) : Isotonic.moment Block.weight Block.mean l m
      = (l.map (·.weightedY)).sum - m * (l.map (·.weight)).sum := by
    induction l with
    | nil => simp [Isotonic.moment]
    | cons a l ih =>
      rw [Isotonic.moment] at ih ⊢
      simp only [List.map_cons, List.sum_cons, ih, ← a.weight_mul_mean]
      ring
  rw [hsum, h.weight, h.weightedY, mul_comm, b.weight_mul_mean, sub_self]

theorem mergeBlocks_groupOf {group : List Block} (h : group ≠ []) :
    ∃ b, mergeBlocks group = .ok b ∧ GroupOf group b := by
  obtain ⟨first, rest, rfl⟩ := List.exists_cons_of_ne_nil h
  exact ⟨_, rfl, h, rfl, by rw [List.getLast?_eq_getLast_of_ne_nil h]; rfl, rfl, rfl, rfl, rfl⟩

/-! ## Means -/

theorem GroupOf.mass {g : List Block} {b : Block} (h : GroupOf g b) :
    Isotonic.mass Block.weight (g.map fun a => (a, a.mean)) = b.mean * b.weight := by
  rw [Isotonic.mass, List.map_map, mul_comm, b.weight_mul_mean, ← h.weightedY]
  exact congrArg List.sum (List.map_congr_left fun a _ => a.weight_mul_mean)

theorem GroupOf.weightOf {g : List Block} {b : Block} (h : GroupOf g b) :
    Isotonic.weightOf Block.weight ((g.map fun a => (a, a.mean)).map Prod.fst) = b.weight := by
  rw [Isotonic.weightOf, List.map_map, List.map_map]
  exact h.weight

theorem GroupOf.le_mean {g : List Block} {b : Block} (h : GroupOf g b) {t : ℚ}
    (ht : ∀ a ∈ g, t ≤ a.mean) : t ≤ b.mean := by
  have hle := mul_weightOf_le_mass Block.weight_pos (s := g.map fun a => (a, a.mean)) (t := t) (by simpa using ht)
  rw [h.mass, h.weightOf] at hle
  exact le_of_mul_le_mul_right hle b.weight_pos

theorem GroupOf.mean_le {g : List Block} {b : Block} (h : GroupOf g b) {t : ℚ}
    (ht : ∀ a ∈ g, a.mean ≤ t) : b.mean ≤ t := by
  have hle := mass_le_mul_weightOf Block.weight_pos (s := g.map fun a => (a, a.mean)) (t := t) (by simpa using ht)
  rw [h.mass, h.weightOf] at hle
  exact le_of_mul_le_mul_right hle b.weight_pos

/-- **Groups of non-increasing blocks are non-increasing.** -/
theorem groups_nonIncreasing {groups : List (List Block)} {fitted : List Block}
    (h : List.Forall₂ GroupOf groups fitted) (hmono : (groups.flatten.map Block.mean).Pairwise (· ≥ ·)) :
    (fitted.map Block.mean).Pairwise (· ≥ ·) := by
  induction h with
  | nil => exact .nil
  | @cons g b groups fitted hg hrest ih =>
    rw [List.flatten_cons, List.map_append, List.pairwise_append] at hmono
    obtain ⟨-, htail, hcross⟩ := hmono
    refine List.pairwise_cons.2 ⟨fun m hm => ?_, ih htail⟩
    obtain ⟨b', hb', rfl⟩ := List.mem_map.1 hm
    -- `b'` is the block of a later group
    have hex : ∃ g' ∈ groups, GroupOf g' b' := by
      obtain ⟨i, hi, rfl⟩ := List.getElem_of_mem hb'
      have hlen := hrest.length_eq
      exact ⟨groups[i], List.getElem_mem _, hrest.get (by omega) hi⟩
    obtain ⟨g', hmem, hg'⟩ := hex
    refine hg'.mean_le fun a' ha' => hg.le_mean fun a ha => ?_
    exact hcross _ (List.mem_map_of_mem ha) _ (List.mem_map_of_mem (List.mem_flatten_of_mem hmem ha'))

end WaitGc

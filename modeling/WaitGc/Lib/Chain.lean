/-
  Chains of links.

  A link function sends a node to the one it points to.  `Linked next h l t`
  says that the nodes met from `h` on are `l`, and that the last of them points
  to `t`.  Chains compose (`linked_append`), ignore what is written to other
  nodes (`Linked.update`), and are spliced by writing to their last node
  (`Linked.set_last`).

  Where some nodes are used and others are not, `Ended used next a l` says that
  the used nodes from `a` on are `l`: the links lead to an unused node.  Such
  chains may share nodes.  They grow at their ends (`Grows`, `Ended.grow`), and
  a node that goes unused cuts those that go through it (`Shrinks`,
  `Ended.shrink`).  Where they all end, no path of links returns to a used node
  (`acyclic`): what is left of the chain gets shorter on the way.
-/
import Mathlib.Data.List.Basic
import Mathlib.Logic.Function.Basic
import Mathlib.Logic.Relation

namespace Chain

open Function

variable {α : Type*} {next : α → α} {h m t t' a i : α} {l l' : List α}

/-- The nodes from `h` on are `l`; the last of them points to `t`. -/
def Linked (next : α → α) : α → List α → α → Prop
  | h, [], t => h = t
  | h, a :: l, t => h = a ∧ Linked next (next a) l t

@[simp] theorem linked_nil : Linked next h [] t ↔ h = t := Iff.rfl

@[simp] theorem linked_cons : Linked next h (a :: l) t ↔ h = a ∧ Linked next (next a) l t := Iff.rfl

theorem linked_append :
    Linked next h (l ++ l') t ↔ ∃ m, Linked next h l m ∧ Linked next m l' t := by
  induction l generalizing h with
  | nil => simp
  | cons a l ih => simp [ih, and_assoc]

theorem linked_concat : Linked next h (l ++ [a]) t ↔ Linked next h l a ∧ next a = t := by
  simp [linked_append]

theorem Linked.append (hl : Linked next h l m) (hl' : Linked next m l' t) :
    Linked next h (l ++ l') t := linked_append.2 ⟨m, hl, hl'⟩

theorem Linked.update [DecidableEq α] (hc : Linked next h l t) (hi : i ∉ l) (v : α) :
    Linked (update next i v) h l t := by
  induction l generalizing h with
  | nil => exact hc
  | cons a l ih =>
    obtain ⟨rfl, hl⟩ := hc
    simp only [List.mem_cons, not_or] at hi
    refine ⟨rfl, ?_⟩
    rw [update_of_ne (Ne.symm hi.1)]
    exact ih hl hi.2

/-- Writing to the last node moves the end of the chain. -/
theorem Linked.set_last [DecidableEq α] (hc : Linked next h (l ++ [a]) t) (ha : a ∉ l) (t' : α) :
    Linked (Function.update next a t') h (l ++ [a]) t' := by
  rw [linked_concat] at hc ⊢
  exact ⟨hc.1.update ha t', update_self _ _ _⟩

theorem Linked.head (hc : Linked next h (a :: l) t) : h = a := hc.1

/-- A chain that starts where it ends is empty, unless it meets its end. -/
theorem Linked.eq_nil (hc : Linked next t l t) (ht : t ∉ l) : l = [] := by
  cases l with
  | nil => rfl
  | cons a l =>
    obtain ⟨rfl, -⟩ := hc
    simp at ht

theorem Linked.unique (hl : Linked next h l t) (hl' : Linked next h l' t) (ht : t ∉ l)
    (ht' : t ∉ l') : l = l' := by
  induction l generalizing h l' with
  | nil =>
    obtain rfl : h = t := hl
    exact (hl'.eq_nil ht').symm
  | cons a l ih =>
    obtain ⟨rfl, hl⟩ := hl
    cases l' with
    | nil =>
      obtain rfl : h = t := hl'
      simp at ht
    | cons a' l' =>
      obtain ⟨rfl, hl'⟩ := hl'
      simp only [List.mem_cons, not_or] at ht ht'
      rw [ih hl hl' ht.2 ht'.2]

theorem Linked.next_of_mem (hc : Linked next h l t) (ha : a ∈ l) : next a ∈ l ∨ next a = t := by
  induction l generalizing h with
  | nil => simp at ha
  | cons b l ih =>
    obtain ⟨rfl, hl⟩ := hc
    rcases List.mem_cons.1 ha with rfl | ha
    · cases l with
      | nil => exact .inr hl
      | cons c l =>
        left
        rw [hl.1]
        simp
    · rcases ih hl ha with h | h
      · exact .inl (List.mem_cons_of_mem _ h)
      · exact .inr h

/-! ## Chains of used nodes -/

variable {used used' : α → Prop} {next' : α → α} {b d p z : α} {r : List α}

/-- The used nodes from `a` on are `l`. -/
def Ended (used : α → Prop) (next : α → α) (a : α) (l : List α) : Prop :=
  ∃ e, Linked next a l e ∧ (∀ b ∈ l, used b) ∧ ¬ used e

@[simp] theorem ended_nil : Ended used next a [] ↔ ¬ used a := by simp [Ended]

theorem ended_cons : Ended used next a (b :: l) ↔ a = b ∧ used a ∧ Ended used next (next a) l := by
  constructor
  · rintro ⟨e, ⟨rfl, hl⟩, hused, he⟩
    simp only [List.mem_cons, forall_eq_or_imp] at hused
    exact ⟨rfl, hused.1, e, hl, hused.2, he⟩
  · rintro ⟨rfl, ha, e, hl, hused, he⟩
    exact ⟨e, ⟨rfl, hl⟩, by simpa using ⟨ha, hused⟩, he⟩

theorem Ended.eq_nil (h : Ended used next a l) (ha : ¬ used a) : l = [] := by
  cases l with
  | nil => rfl
  | cons b l => exact absurd (ended_cons.1 h).2.1 ha

theorem Ended.used_of_mem (h : Ended used next a l) (hb : b ∈ l) : used b := by
  obtain ⟨e, -, hused, -⟩ := h
  exact hused b hb

theorem Ended.unique (h : Ended used next a l) (h' : Ended used next a l') : l = l' := by
  induction l generalizing a l' with
  | nil => exact (h'.eq_nil (ended_nil.1 h)).symm
  | cons b l ih =>
    obtain ⟨rfl, ha, h⟩ := ended_cons.1 h
    cases l' with
    | nil => exact absurd ha (ended_nil.1 h')
    | cons b' l' =>
      obtain ⟨rfl, -, h'⟩ := ended_cons.1 h'
      rw [ih h h']

theorem Ended.drop (h : Ended used next a (l ++ b :: r)) : Ended used next b (b :: r) := by
  induction l generalizing a with
  | nil =>
    obtain ⟨rfl, -⟩ := ended_cons.1 h
    exact h
  | cons c l ih => exact ih (ended_cons.1 h).2.2

/-- **A chain that ends meets no node twice.** -/
theorem Ended.nodup (h : Ended used next a l) : l.Nodup := by
  induction l generalizing a with
  | nil => exact List.nodup_nil
  | cons b l ih =>
    obtain ⟨rfl, -, hl⟩ := ended_cons.1 h
    refine List.nodup_cons.2 ⟨fun hmem => ?_, ih hl⟩
    obtain ⟨l₁, l₂, rfl⟩ := List.append_of_mem hmem
    have hlen := congrArg List.length (h.unique hl.drop)
    simp at hlen
    omega

theorem Ended.next_last (h : Ended used next a (l ++ [p])) : ¬ used (next p) :=
  ended_nil.1 (ended_cons.1 h.drop).2.2

section acyclic
variable (hends : ∀ a, ∃ l, Ended used next a l) (hfree : ∀ b, ¬ used b → ¬ used (next b))
include hends hfree

/-- What is left of a chain gets shorter along the links. -/
theorem length_lt_of_path (hpath : Relation.TransGen (fun i j => next i = j) a b) (hb : used b)
    (hl : Ended used next a l) (hl' : Ended used next b l') : l'.length < l.length := by
  induction hpath generalizing l' with
  | single hnext =>
    subst hnext
    have ha : used a := by
      by_contra ha
      exact hfree a ha hb
    cases l with
    | nil => exact absurd ha (ended_nil.1 hl)
    | cons i l =>
      rw [hl'.unique (ended_cons.1 hl).2.2]
      exact Nat.lt_succ_self _
  | @tail i j _ hnext ih =>
    subst hnext
    have hi : used i := by
      by_contra hi
      exact hfree i hi hb
    obtain ⟨r, hr⟩ := hends i
    refine Nat.lt_trans ?_ (ih hi hr)
    cases r with
    | nil => exact absurd hi (ended_nil.1 hr)
    | cons i' r =>
      rw [hl'.unique (ended_cons.1 hr).2.2]
      exact Nat.lt_succ_self _

/-- **Chains that end have no cycles.** -/
theorem acyclic (ha : used a) : ¬ Relation.TransGen (fun i j => next i = j) a a := by
  intro hpath
  obtain ⟨l, hl⟩ := hends a
  exact Nat.lt_irrefl _ (length_lt_of_path hends hfree hpath ha hl hl)

end acyclic

/-- The unused node `z` is used, at the end of a chain or on its own. -/
structure Grows (used : α → Prop) (next : α → α) (used' : α → Prop) (next' : α → α) (z : α) : Prop where
  used_iff : ∀ b, used' b ↔ used b ∨ b = z
  fresh : ¬ used z
  last : ¬ used' (next' z)
  keep : ∀ b, used b → next' b = next b ∨ next' b = z ∧ ¬ used (next b)

theorem Grows.single (hg : Grows used next used' next' z) : Ended used' next' z [z] :=
  ended_cons.2 ⟨rfl, (hg.used_iff z).2 (.inr rfl), ended_nil.2 hg.last⟩

/-- **A chain grows at its end**, or not at all. -/
theorem Ended.grow (hg : Grows used next used' next' z) (h : Ended used next a l) :
    Ended used' next' a l ∨ Ended used' next' a (l ++ [z]) := by
  induction l generalizing a with
  | nil =>
    by_cases ha : a = z
    · subst ha; exact .inr hg.single
    · exact .inl (ended_nil.2 fun h' => ((hg.used_iff a).1 h').elim (ended_nil.1 h) ha)
  | cons b l ih =>
    obtain ⟨rfl, ha, hl⟩ := ended_cons.1 h
    have ha' := (hg.used_iff a).2 (.inl ha)
    rcases hg.keep a ha with hnext | ⟨hnext, hend⟩
    · rcases ih hl with hl | hl
      · exact .inl (ended_cons.2 ⟨rfl, ha', hnext ▸ hl⟩)
      · exact .inr (ended_cons.2 ⟨rfl, ha', hnext ▸ hl⟩)
    · -- the chain ended here
      obtain rfl := hl.eq_nil hend
      exact .inr (ended_cons.2 ⟨rfl, ha', hnext ▸ hg.single⟩)

theorem Ended.grow_of_mem (hg : Grows used next used' next' z) (h : Ended used next a l) (hp : p ∈ l)
    (hnext : next' p = z) : Ended used' next' a (l ++ [z]) := by
  rcases h.grow hg with h' | h'
  · exfalso
    obtain ⟨e, hlinked, -, he⟩ := h'
    rcases hlinked.next_of_mem hp with hmem | hend
    · rw [hnext] at hmem
      exact hg.fresh (h.used_of_mem hmem)
    · rw [← hend, hnext] at he
      exact he ((hg.used_iff z).2 (.inr rfl))
  · exact h'

/-- The node `d` goes unused. -/
structure Shrinks (used : α → Prop) (next : α → α) (used' : α → Prop) (next' : α → α) (d : α) : Prop where
  used_iff : ∀ b, used' b ↔ used b ∧ b ≠ d
  keep : ∀ b, used' b → next' b = next b

/-- **A chain is cut where a node goes unused.** -/
theorem Ended.shrink [DecidableEq α] (hs : Shrinks used next used' next' d) (h : Ended used next a l) :
    Ended used' next' a (l.takeWhile (· ≠ d)) := by
  induction l generalizing a with
  | nil => exact ended_nil.2 fun h' => ended_nil.1 h ((hs.used_iff a).1 h').1
  | cons b l ih =>
    obtain ⟨rfl, ha, hl⟩ := ended_cons.1 h
    by_cases hd : a = d
    · rw [List.takeWhile_cons_of_neg (by simpa using hd)]
      exact ended_nil.2 fun h' => ((hs.used_iff a).1 h').2 hd
    · have ha' := (hs.used_iff a).2 ⟨ha, hd⟩
      rw [List.takeWhile_cons_of_pos (by simpa using hd)]
      exact ended_cons.2 ⟨rfl, ha', hs.keep a ha' ▸ ih hl⟩

end Chain

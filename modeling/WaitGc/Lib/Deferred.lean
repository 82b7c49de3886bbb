/-
  Memory whose accesses are deferred.

  Writes and reads are accepted one after the other, and carried out later, in
  another order.  A write is the cells it sets; a read is due to find in its cells
  what the writes accepted before it set last.

  `outlook m ws` is the memory once the writes of `ws` are carried out in the order
  of their acceptance.  An access may overtake another if they share no cell, or
  if both are reads; the rules of `Promised` say that then every read finds what
  it is due to find, and that the memory comes to hold what was set last.
-/
import Mathlib.Data.List.Basic
import Mathlib.Data.List.InsertIdx

namespace Deferred

variable {α β : Type*} {m m' : α → β} {w : α → Option β} {ws : List (α → Option β)} {a : α} {v : β} {i : ℕ}

/-! ## Writes -/

/-- The memory after a write that sets the cells of `w`. -/
def overlay (w : α → Option β) (m : α → β) (a : α) : β := (w a).getD (m a)

/-- The memory after the writes, one after the other. -/
def outlook (m : α → β) (ws : List (α → Option β)) : α → β := ws.foldl (fun m w => overlay w m) m

theorem overlay_of_none (h : w a = none) : overlay w m a = m a := by
  unfold overlay
  rw [h, Option.getD_none]

theorem outlook_congr (h : m a = m' a) : outlook m ws a = outlook m' ws a := by
  induction ws generalizing m m' with
  | nil => exact h
  | cons w ws ih =>
    have hw : overlay w m a = overlay w m' a := congrArg (w a).getD h
    exact ih hw

theorem outlook_of_none (h : ∀ w ∈ ws, w a = none) : outlook m ws a = m a := by
  induction ws generalizing m with
  | nil => rfl
  | cons w ws ih =>
    rw [outlook, List.foldl_cons, ← outlook, ih fun w' hw' => h w' (List.mem_cons_of_mem _ hw')]
    exact overlay_of_none (h w List.mem_cons_self)

theorem outlook_append (ws' : List (α → Option β)) : outlook m (ws ++ ws') = outlook (outlook m ws) ws' :=
  List.foldl_append

/-- **Overtaking**: a write may come first if those before it do not set its cells. -/
theorem outlook_eraseIdx (hi : ws[i]? = some w) (h : ∀ w' ∈ ws.take i, w a = none ∨ w' a = none) :
    outlook (overlay w m) (ws.eraseIdx i) a = outlook m ws a := by
  induction ws generalizing i m with
  | nil => cases hi
  | cons w₀ ws ih =>
    cases i with
    | zero =>
      obtain rfl : w₀ = w := Option.some.inj hi
      rfl
    | succ i =>
      have hswap : overlay w₀ (overlay w m) a = overlay w (overlay w₀ m) a := by
        rcases h w₀ List.mem_cons_self with hw | hw <;> simp [overlay, hw]
      calc outlook (overlay w₀ (overlay w m)) (ws.eraseIdx i) a
          = outlook (overlay w (overlay w₀ m)) (ws.eraseIdx i) a := outlook_congr hswap
        _ = outlook (overlay w₀ m) ws a := ih hi fun w' hw' => h w' (List.mem_cons_of_mem _ hw')

/-! ## Accesses that wait -/

/-- An access: the cells it sets, and what it is due to find in the cells it reads. -/
structure Item (α β : Type*) where
  sets : α → Option β
  due : α → Option β

/-- What is known of the cells outside `S`. -/
def outside (S : α → Prop) [DecidablePred S] (d : α → Option β) (a : α) : Option β :=
  if S a then none else d a

/-- The cells in `S` are due no more. -/
def Item.forget (S : α → Prop) [DecidablePred S] (x : Item α β) : Item α β :=
  { x with due := outside S x.due }

/-- The accesses wait on the memory `m`, and `last` is what the accepted writes set last: the
    memory comes to hold it, and before a read what the read is due to find. -/
structure Promised (m : α → β) (items : List (Item α β)) (last : α → Option β) : Prop where
  last : ∀ a v, last a = some v → outlook m (items.map Item.sets) a = v
  due : ∀ i x, items[i]? = some x → ∀ a v, x.due a = some v → outlook m ((items.take i).map Item.sets) a = v

namespace Promised
variable {items : List (Item α β)} {last : α → Option β} {x : Item α β}

theorem init (m : α → β) : Promised m [] fun _ => none where
  last _ _ h := nomatch h
  due _ _ h := nomatch h

/-- **An access is accepted.** A read is due to find what was set last. -/
theorem accept (h : Promised m items last) (hdue : ∀ a v, x.due a = some v → last a = some v) :
    Promised m (items ++ [x]) fun a => (x.sets a).or (last a) where
  last a v hv := by
    rw [List.map_append, outlook_append]
    show ((x.sets a).getD (outlook m (items.map Item.sets) a)) = v
    cases hs : x.sets a with
    | some v' =>
      rw [hs, Option.some_or] at hv
      exact Option.some.inj hv
    | none =>
      rw [hs, Option.none_or] at hv
      exact h.last a v hv
  due i y hi a v hv := by
    rcases Nat.lt_trichotomy i items.length with hlt | rfl | hgt
    · rw [List.getElem?_append_left hlt] at hi
      rw [List.take_append_of_le_length (Nat.le_of_lt hlt)]
      exact h.due i y hi a v hv
    · rw [List.getElem?_concat_length, Option.some.injEq] at hi
      subst hi
      rw [List.take_left]
      exact h.last a v (hdue a v hv)
    · rw [List.getElem?_eq_none (by simp; omega)] at hi
      cases hi

/-- **The cells in `S` are overwritten**, and nothing is promised of them any more. -/
theorem forget (h : Promised m items last) {S : α → Prop} [DecidablePred S] (hm : ∀ a, ¬ S a → m' a = m a) :
    Promised m' (items.map (Item.forget S)) (outside S last) where
  last a v hv := by
    unfold outside at hv
    by_cases ha : S a
    · rw [if_pos ha] at hv
      cases hv
    · rw [if_neg ha] at hv
      rw [List.map_map]
      exact (outlook_congr (hm a ha)).trans (h.last a v hv)
  due i y hi a v hv := by
    rw [List.getElem?_map, Option.map_eq_some_iff] at hi
    obtain ⟨x, hx, rfl⟩ := hi
    simp only [Item.forget, outside] at hv
    by_cases ha : S a
    · rw [if_pos ha] at hv
      cases hv
    · rw [if_neg ha] at hv
      rw [← List.map_take, List.map_map]
      exact (outlook_congr (hm a ha)).trans (h.due i x hx a v hv)

/-- **An access is carried out** before those accepted earlier, if it sets none of their
    cells. -/
theorem perform (h : Promised m items last) (hi : items[i]? = some x)
    (hord : ∀ y ∈ items.take i, ∀ a, x.sets a = none ∨ y.sets a = none ∧ y.due a = none) :
    Promised (overlay x.sets m) (items.eraseIdx i) last := by
  have hget : (items.map Item.sets)[i]? = some x.sets := by rw [List.getElem?_map, hi, Option.map_some]
  have hapart (a : α) : ∀ w ∈ (items.map Item.sets).take i, x.sets a = none ∨ w a = none := by
    intro w hw
    rw [← List.map_take, List.mem_map] at hw
    obtain ⟨y, hy, rfl⟩ := hw
    exact (hord y hy a).imp_right And.left
  constructor
  · intro a v hv
    rw [← List.eraseIdx_map, outlook_eraseIdx hget (hapart a)]
    exact h.last a v hv
  · intro j y hj a v hv
    rcases Nat.lt_or_ge j i with hlt | hge
    · -- accepted earlier: none of the cells is one of `y`
      rw [List.getElem?_eraseIdx_of_lt hlt] at hj
      have hmem : y ∈ items.take i := List.mem_of_getElem? (by rw [List.getElem?_take_of_lt hlt, hj])
      have hnone : x.sets a = none := by
        refine (hord y hmem a).resolve_right fun hy => ?_
        rw [hy.2] at hv
        cases hv
      rw [List.take_eraseIdx_eq_take_of_le _ _ _ (Nat.le_of_lt hlt), ← h.due j y hj a v hv]
      exact outlook_congr (overlay_of_none hnone)
    · -- accepted later: the write was before `y` already
      rw [List.getElem?_eraseIdx_of_ge hge] at hj
      have herase : (items.eraseIdx i).take j = (items.take (j + 1)).eraseIdx i :=
        List.ext_getElem (by grind) (by grind)
      have hget' : ((items.take (j + 1)).map Item.sets)[i]? = some x.sets := by
        rw [List.getElem?_map, List.getElem?_take_of_lt (by omega), hi, Option.map_some]
      rw [herase, ← List.eraseIdx_map, outlook_eraseIdx hget' ?_]
      · exact h.due (j + 1) y hj a v hv
      · rw [← List.map_take, List.take_take, Nat.min_eq_left (by omega), List.map_take]
        exact hapart a

/-- **A read finds what it is due to find**, if no write of the cell waits before it. -/
theorem read (h : Promised m items last) (hi : items[i]? = some x) (hdue : x.due a = some v)
    (hord : ∀ y ∈ items.take i, y.sets a = none) : m a = v := by
  rw [← h.due i x hi a v hdue, outlook_of_none]
  intro w hw
  obtain ⟨y, hy, rfl⟩ := List.mem_map.1 hw
  exact hord y hy

/-- **The memory holds what was set last**, once no write of the cell waits. -/
theorem settled (h : Promised m items last) (hlast : last a = some v) (hnone : ∀ y ∈ items, y.sets a = none) :
    m a = v := by
  rw [← h.last a v hlast, outlook_of_none]
  intro w hw
  obtain ⟨y, hy, rfl⟩ := List.mem_map.1 hw
  exact hnone y hy

end Promised

end Deferred

/-
  Computations that can fail, and machines whose steps can fail.

  A computation that can run into a fault returns `Except ε α`.  `Sat E Q m`
  says that `m` returns a value in `Q` or stops with a fault in `E`; with
  `E = fun _ => False` it is total correctness.  The rules follow the shape of
  the program: a value, a check, a sequence, a loop over a list.  `Yields Q m`
  is partial correctness: a value that `m` returns is in `Q`.

  A `Machine` is a step function over events.  `run` executes a list of
  events, `Along C` says that every step of the run is taken from a state and
  with an event in `C`, and the run rules lift what one step does to whole
  runs: an invariant (`run_sat`), a preorder (`run_rel`), a running total
  (`run_total`), a log (`run_logged`).
-/
import Mathlib.Data.List.Basic
import Mathlib.Order.Defs.Unbundled

namespace Outcome

universe u v w
variable {ε : Type v} {α β : Type u}

/-! ## Outcomes -/

/-- `m` returns a value in `Q`, or stops with a fault in `E`. -/
def Sat (E : ε → Prop) (Q : α → Prop) : Except ε α → Prop
  | .ok a => Q a
  | .error e => E e

/-- A value that `m` returns is in `Q`. -/
abbrev Yields (Q : α → Prop) (m : Except ε α) : Prop := Sat (fun _ => True) Q m

/-- Stop with the fault `e` unless `p` holds. -/
def require (p : Prop) [Decidable p] (e : ε) : Except ε Unit :=
  if p then .ok () else .error e

@[simp] theorem sat_ok {E : ε → Prop} {Q : α → Prop} {a : α} : Sat E Q (.ok a) ↔ Q a := Iff.rfl

@[simp] theorem sat_error {E : ε → Prop} {Q : α → Prop} {e : ε} :
    Sat E Q (.error e : Except ε α) ↔ E e := Iff.rfl

@[simp] theorem sat_pure {E : ε → Prop} {Q : α → Prop} {a : α} :
    Sat E Q (pure a : Except ε α) ↔ Q a := Iff.rfl

@[simp] theorem ok_bind (a : α) (f : α → Except ε β) : (Except.ok a >>= f) = f a := rfl

@[simp] theorem error_bind (e : ε) (f : α → Except ε β) :
    ((Except.error e : Except ε α) >>= f) = .error e := rfl

theorem bind_eq_ok {m : Except ε α} {f : α → Except ε β} {b : β} (h : m >>= f = .ok b) :
    ∃ a, m = .ok a ∧ f a = .ok b := by
  cases m with
  | ok a => exact ⟨a, rfl, h⟩
  | error e => simp at h

theorem bind_eq_error_iff {m : Except ε α} {f : α → Except ε β} {e : ε} :
    m >>= f = .error e ↔ m = .error e ∨ ∃ a, m = .ok a ∧ f a = .error e := by
  cases m with
  | ok a => simp
  | error e' => simp

theorem require_pos {p : Prop} [Decidable p] (h : p) (e : ε) : require p e = .ok () := if_pos h

theorem require_neg {p : Prop} [Decidable p] (h : ¬ p) (e : ε) : require p e = .error e := if_neg h

theorem of_require_eq_ok {p : Prop} [Decidable p] {e : ε} {u : Unit} (h : require p e = .ok u) : p := by
  by_contra hp
  rw [require_neg hp] at h
  cases h

theorem Sat.mono {E E' : ε → Prop} {Q Q' : α → Prop} {m : Except ε α} (h : Sat E Q m)
    (hE : ∀ e, E e → E' e) (hQ : ∀ a, Q a → Q' a) : Sat E' Q' m := by
  cases m with
  | ok a => exact hQ a h
  | error e => exact hE e h

theorem Sat.bind {E : ε → Prop} {Q : α → Prop} {R : β → Prop} {m : Except ε α}
    {f : α → Except ε β} (hm : Sat E Q m) (hf : ∀ a, Q a → Sat E R (f a)) :
    Sat E R (m >>= f) := by
  cases m with
  | ok a => exact hf a hm
  | error e => exact hm

theorem Sat.map_ok {E : ε → Prop} {Q : α → Prop} {R : β → Prop} {m : Except ε α} {f : α → β}
    (hm : Sat E Q m) (hf : ∀ a, Q a → R (f a)) : Sat E R (m.map f) := by
  cases m with
  | ok a => exact hf a hm
  | error e => exact hm

theorem Sat.and {E : ε → Prop} {Q R : α → Prop} {m : Except ε α} (hQ : Sat E Q m)
    (hR : Sat E R m) : Sat E (fun a => Q a ∧ R a) m := by
  cases m with
  | ok a => exact ⟨hQ, hR⟩
  | error e => exact hQ

theorem Sat.of_ok {E : ε → Prop} {Q : α → Prop} {m : Except ε α} {a : α} (h : Sat E Q m)
    (hm : m = .ok a) : Q a := by
  rw [hm] at h; exact h

theorem yields_iff {Q : α → Prop} {m : Except ε α} : Yields Q m ↔ ∀ a, m = .ok a → Q a := by
  constructor
  · intro h a hm
    exact h.of_ok hm
  · intro h
    cases m with
    | ok a => exact h a rfl
    | error e => trivial

/-- What a computation returns, added to what is known of its faults. -/
theorem Sat.yields {E : ε → Prop} {Q R : α → Prop} {m : Except ε α} (hQ : Sat E Q m)
    (hR : Yields R m) : Sat E (fun a => Q a ∧ R a) m := by
  cases m with
  | ok a => exact ⟨hQ, hR⟩
  | error e => exact hQ

theorem Sat.to_yields {E : ε → Prop} {Q : α → Prop} {m : Except ε α} (h : Sat E Q m) :
    Yields Q m := h.mono (fun _ _ => trivial) fun _ h => h

theorem sat_require {β : Type} {E : ε → Prop} {Q : β → Prop} {p : Prop} [Decidable p] {e : ε}
    {f : Unit → Except ε β} (he : E e) (h : p → Sat E Q (f ())) : Sat E Q (require p e >>= f) := by
  by_cases hp : p
  · rw [require_pos hp]; exact h hp
  · rw [require_neg hp]; exact he

theorem yields_require {β : Type} {Q : β → Prop} {p : Prop} [Decidable p] {e : ε}
    {f : Unit → Except ε β} (h : p → Yields Q (f ())) : Yields Q (require p e >>= f) :=
  sat_require trivial h

theorem Sat.of_error {E : ε → Prop} {Q : α → Prop} {m : Except ε α} {e : ε} (h : Sat E Q m)
    (hm : m = .error e) : E e := by
  rw [hm] at h; exact h

theorem Sat.exists_ok {E : ε → Prop} {Q : α → Prop} {m : Except ε α} (h : Sat E Q m)
    (hE : ∀ e, ¬ E e) : ∃ a, m = .ok a ∧ Q a := by
  cases m with
  | ok a => exact ⟨a, rfl, h⟩
  | error e => exact absurd h (hE e)

/-- What a computation returns, from what is seen of it. -/
theorem exists_ok_of_map {m : Except ε α} {f : α → β} {b : β} (h : m.map f = .ok b) :
    ∃ a, m = .ok a ∧ f a = b := by
  cases m with
  | ok a => exact ⟨a, rfl, Except.ok.inj h⟩
  | error e => cases h

/-- **The loop rule.**  `I pre` is the invariant after the iterations over
    `pre`. -/
theorem sat_foldlM {σ : Type u} {γ : Type w} {E : ε → Prop} {f : σ → γ → Except ε σ}
    (I : List γ → σ → Prop) (l : List γ)
    (hstep : ∀ pre a post s, l = pre ++ a :: post → I pre s → Sat E (I (pre ++ [a])) (f s a))
    {s : σ} (hs : I [] s) : Sat E (I l) (l.foldlM f s) := by
  suffices h : ∀ (post pre : List γ) (s : σ), l = pre ++ post → I pre s →
      Sat E (I l) (post.foldlM f s) from h l [] s rfl hs
  intro post
  induction post with
  | nil => intro pre s hl hs; rw [List.append_nil] at hl; subst hl; exact hs
  | cons a post ih =>
    intro pre s hl hs
    rw [List.foldlM_cons]
    refine (hstep pre a post s hl hs).bind fun s' hs' => ih (pre ++ [a]) s' ?_ hs'
    rw [hl, List.append_assoc]; rfl

theorem sat_foldlM_range {σ : Type u} {E : ε → Prop} {f : σ → ℕ → Except ε σ} (I : ℕ → σ → Prop)
    (n : ℕ) (hstep : ∀ k, k < n → ∀ s, I k s → Sat E (I (k + 1)) (f s k)) {s : σ} (hs : I 0 s) :
    Sat E (I n) ((List.range n).foldlM f s) := by
  induction n with
  | zero => exact hs
  | succ n ih =>
    rw [List.range_succ, List.foldlM_append]
    refine (ih fun k hk => hstep k (Nat.lt_succ_of_lt hk)).bind fun s' hs' => ?_
    rw [List.foldlM_cons]
    refine (hstep n (Nat.lt_succ_self n) s' hs').bind fun s'' hs'' => ?_
    exact hs''

/-- **The rule for `mapM`**: if no element fails, none of the list does. -/
theorem mapM_ok {γ : Type w} {δ : Type u} {f : γ → Except ε δ} {R : γ → δ → Prop} {l : List γ}
    (h : ∀ a ∈ l, ∃ b, f a = .ok b ∧ R a b) : ∃ m, l.mapM f = .ok m ∧ List.Forall₂ R l m := by
  induction l with
  | nil => exact ⟨[], rfl, .nil⟩
  | cons a l ih =>
    obtain ⟨b, hb, hR⟩ := h a List.mem_cons_self
    obtain ⟨m, hm, hRs⟩ := ih fun a ha => h a (List.mem_cons_of_mem _ ha)
    exact ⟨b :: m, by rw [List.mapM_cons, hb, ok_bind, hm]; rfl, .cons hR hRs⟩

/-! ## Two computations -/

/-- The computations return values in `R`, or stop with one fault. -/
def Rel {α' : Type u} (R : α → α' → Prop) : Except ε α → Except ε α' → Prop
  | .ok a, .ok a' => R a a'
  | .error e, .error e' => e = e'
  | _, _ => False

section rel
variable {α' β' : Type u} {R : α → α' → Prop} {S : β → β' → Prop}

/-- **The rule for a sequence.** -/
theorem Rel.bind {m : Except ε α} {m' : Except ε α'} {f : α → Except ε β} {f' : α' → Except ε β'}
    (h : Rel R m m') (hf : ∀ a a', R a a' → Rel S (f a) (f' a')) : Rel S (m >>= f) (m' >>= f') := by
  cases m with
  | ok a => cases m' with
    | ok a' => exact hf a a' h
    | error e' => exact h.elim
  | error e => cases m' with
    | ok a' => exact h.elim
    | error e' => exact h

theorem Rel.bind_same (m : Except ε α) {f : α → Except ε β} {f' : α → Except ε β'}
    (hf : ∀ a, Rel S (f a) (f' a)) : Rel S (m >>= f) (m >>= f') := by
  cases m with
  | ok a => exact hf a
  | error e => exact rfl

theorem Rel.of_ok {m' : Except ε α'} {a : α} (h : Rel R (.ok a) m') : ∃ a', m' = .ok a' ∧ R a a' := by
  cases m' with
  | ok a' => exact ⟨a', rfl, h⟩
  | error e' => exact h.elim

theorem Rel.of_error {m' : Except ε α'} {e : ε} (h : Rel R (.error e) m') : m' = .error e := by
  cases m' with
  | ok a' => exact h.elim
  | error e' => exact congrArg _ (Eq.symm h)

end rel

/-! ## Machines -/

/-- A deterministic machine over events whose steps can fail. -/
structure Machine (σ : Type u) (γ : Type w) (ε : Type v) where
  step : σ → γ → Except ε σ

namespace Machine
variable {σ : Type u} {γ : Type w} (M : Machine σ γ ε)

/-- Execute a list of events. -/
def run (s : σ) (es : List γ) : Except ε σ := es.foldlM M.step s

/-- Every step of the run from `s` is taken from a state and with an event in
    `C`. -/
def Along (C : σ → γ → Prop) : σ → List γ → Prop
  | _, [] => True
  | s, e :: es => C s e ∧ ∀ s', M.step s e = .ok s' → Along C s' es

/-- The sum of `w` over the steps of the run that return. -/
def total (w : σ → γ → ℕ) : σ → List γ → ℕ
  | _, [] => 0
  | s, e :: es => match M.step s e with
    | .ok s' => w s e + total w s' es
    | .error _ => 0

/-- The last value that `w` gives along the run, and `b` if it gives none. -/
def latest {β : Type*} (w : σ → γ → Option β) : β → σ → List γ → β
  | b, _, [] => b
  | b, s, e :: es => match M.step s e with
    | .ok s' => latest w ((w s e).getD b) s' es
    | .error _ => b

/-- What `w` writes to the log in the steps of the run that return. -/
def logged {β : Type*} (w : σ → γ → List β) : σ → List γ → List β
  | _, [] => []
  | s, e :: es => match M.step s e with
    | .ok s' => w s e ++ logged w s' es
    | .error _ => []

variable {M}

@[simp] theorem run_nil (s : σ) : M.run s [] = .ok s := rfl

theorem run_cons (s : σ) (e : γ) (es : List γ) :
    M.run s (e :: es) = M.step s e >>= fun s' => M.run s' es := by
  simp only [run, List.foldlM_cons]

theorem run_append (s : σ) (es es' : List γ) :
    M.run s (es ++ es') = M.run s es >>= fun s' => M.run s' es' := by
  simp only [run, List.foldlM_append]

theorem run_append_ok {s s' : σ} {es : List γ} (es' : List γ) (h : M.run s es = .ok s') :
    M.run s (es ++ es') = M.run s' es' := by
  rw [run_append, h]; rfl

/-- **The run rule for phases.** -/
theorem run_append_sat {E : ε → Prop} {Q R : σ → Prop} {s : σ} {es es' : List γ} (h : Sat E Q (M.run s es))
    (h' : ∀ s', Q s' → Sat E R (M.run s' es')) : Sat E R (M.run s (es ++ es')) := by
  rw [run_append]
  exact h.bind h'

theorem Along.mono {C C' : σ → γ → Prop} (hC : ∀ s e, C s e → C' s e) :
    ∀ {es : List γ} {s : σ}, M.Along C s es → M.Along C' s es
  | [], _, _ => trivial
  | _ :: _, _, h => ⟨hC _ _ h.1, fun s' hs' => Along.mono hC (h.2 s' hs')⟩

theorem Along.and {C C' : σ → γ → Prop} : ∀ {es : List γ} {s : σ}, M.Along C s es → M.Along C' s es →
    M.Along (fun s e => C s e ∧ C' s e) s es
  | [], _, _, _ => trivial
  | _ :: _, _, h, h' => ⟨⟨h.1, h'.1⟩, fun s' hs' => Along.and (h.2 s' hs') (h'.2 s' hs')⟩

/-- **The run rule for conditions**: what an invariant and a condition on the steps entail
    at every step. -/
theorem Along.imp {I : σ → Prop} {C C' : σ → γ → Prop}
    (hstep : ∀ s e s', I s → C s e → M.step s e = .ok s' → I s') (hC : ∀ s e, I s → C s e → C' s e) :
    ∀ {es : List γ} {s : σ}, I s → M.Along C s es → M.Along C' s es
  | [], _, _, _ => trivial
  | _ :: _, _, hs, h =>
    ⟨hC _ _ hs h.1, fun s' hs' => Along.imp hstep hC (hstep _ _ s' hs h.1 hs') (h.2 s' hs')⟩

theorem along_append {C : σ → γ → Prop} {s s' : σ} {es es' : List γ} (h : M.run s es = .ok s') :
    M.Along C s (es ++ es') ↔ M.Along C s es ∧ M.Along C s' es' := by
  induction es generalizing s with
  | nil => simp only [run_nil, Except.ok.injEq] at h; subst h; simp [Along]
  | cons e es ih =>
    rw [run_cons] at h
    cases hm : M.step s e with
    | error f => rw [hm] at h; simp at h
    | ok s₁ =>
      rw [hm] at h
      simp only [List.cons_append, Along, hm, Except.ok.injEq, forall_eq', ih h, and_assoc]

/-- In a run that returns, every step returns. -/
theorem along_ok : ∀ {es : List γ} {s s' : σ}, M.run s es = .ok s' →
    M.Along (fun s e => ∃ s', M.step s e = .ok s') s es
  | [], _, _, _ => trivial
  | e :: es, s, s', h => by
    rw [run_cons] at h
    obtain ⟨s₁, hs₁, h⟩ := bind_eq_ok h
    refine ⟨⟨s₁, hs₁⟩, fun s₂ hs₂ => ?_⟩
    obtain rfl : s₁ = s₂ := Except.ok.inj (hs₁.symm.trans hs₂)
    exact along_ok h

/-- **The run rule for a fault**: a run ends with it exactly if one of its steps does. -/
theorem run_ne_error_iff {f : ε} : ∀ {es : List γ} {s : σ},
    M.run s es ≠ .error f ↔ M.Along (fun s e => M.step s e ≠ .error f) s es
  | [], s => iff_of_true (by simp) trivial
  | e :: es, s => by
    rw [run_cons, Along, Ne, bind_eq_error_iff, not_or, not_exists]
    refine and_congr_right fun _ => forall_congr' fun s' => ?_
    rw [not_and, ← run_ne_error_iff]

/-- Machines that step alike run alike. -/
theorem run_congr {M' : Machine σ γ ε} : ∀ {es : List γ} {s : σ},
    (∀ e ∈ es, ∀ s, M.step s e = M'.step s e) → M.run s es = M'.run s es
  | [], _, _ => rfl
  | e :: es, s, hstep => by
    rw [run_cons, run_cons, hstep e List.mem_cons_self s]
    exact congrArg _ (funext fun s' => run_congr fun e he => hstep e (List.mem_cons_of_mem _ he))

/-- **The run rule for two machines** whose steps correspond. -/
theorem run_simulates {M' : Machine σ γ ε} {R : σ → σ → Prop} : ∀ {es : List γ} {s s' : σ},
    (∀ e ∈ es, ∀ s s', R s s' → Rel R (M.step s e) (M'.step s' e)) → R s s' →
      Rel R (M.run s es) (M'.run s' es)
  | [], _, _, _, h => h
  | e :: es, s, s', hstep, h => by
    rw [run_cons, run_cons]
    exact (hstep e List.mem_cons_self s s' h).bind fun s₁ s₁' h₁ =>
      run_simulates (fun e he => hstep e (List.mem_cons_of_mem _ he)) h₁

theorem along_true (s : σ) (es : List γ) : M.Along (fun _ _ => True) s es := by
  induction es generalizing s with
  | nil => trivial
  | cons e es ih => exact ⟨trivial, fun s' _ => ih s'⟩

/-- A condition on the events alone. -/
theorem along_of_forall {C : γ → Prop} : ∀ {es : List γ} {s : σ}, (∀ e ∈ es, C e) →
    M.Along (fun _ e => C e) s es
  | [], _, _ => trivial
  | e :: _, _, h =>
    ⟨h e List.mem_cons_self, fun _ _ => along_of_forall fun e he => h e (List.mem_cons_of_mem _ he)⟩

/-- On a given run the condition can be checked. -/
instance Along.decidable {C : σ → γ → Prop} [∀ s e, Decidable (C s e)] :
    ∀ (es : List γ) (s : σ), Decidable (M.Along C s es)
  | [], _ => .isTrue trivial
  | e :: es, s =>
    match h : M.step s e with
    | .ok s' =>
      haveI : Decidable (M.Along C s' es) := Along.decidable es s'
      decidable_of_iff (C s e ∧ M.Along C s' es) (by simp [Along, h])
    | .error _ => decidable_of_iff (C s e) (by simp [Along, h])

/-- **The run rule for invariants.** -/
theorem run_sat {E : ε → Prop} {I : σ → Prop} {C : σ → γ → Prop}
    (hstep : ∀ s e, I s → C s e → Sat E I (M.step s e)) :
    ∀ {es : List γ} {s : σ}, I s → M.Along C s es → Sat E I (M.run s es)
  | [], _, hs, _ => hs
  | e :: es, s, hs, hC => by
    rw [run_cons]
    have h := hstep s e hs hC.1
    cases hm : M.step s e with
    | error f => rw [hm] at h; exact h
    | ok s' => rw [hm] at h; exact run_sat hstep h (hC.2 s' hm)

/-- **The run rule for preorders.** -/
theorem run_rel {I : σ → Prop} {C : σ → γ → Prop} {R : σ → σ → Prop} (hrefl : ∀ s, R s s)
    (htrans : ∀ s t u, R s t → R t u → R s u)
    (hstep : ∀ s e s', I s → C s e → M.step s e = .ok s' → I s' ∧ R s s') :
    ∀ {es : List γ} {s s' : σ}, I s → M.Along C s es → M.run s es = .ok s' → R s s'
  | [], s, s', _, _, h => by cases h; exact hrefl s
  | e :: es, s, s', hs, hC, h => by
    rw [run_cons] at h
    cases hm : M.step s e with
    | error f => rw [hm] at h; simp at h
    | ok s₁ =>
      rw [hm] at h
      obtain ⟨h₁, hR⟩ := hstep s e s₁ hs hC.1 hm
      exact htrans _ _ _ hR (run_rel hrefl htrans hstep h₁ (hC.2 s₁ hm) h)

/-- **The run rule for running totals.** -/
theorem run_total {I : σ → Prop} {C : σ → γ → Prop} {f : σ → ℕ} {w : σ → γ → ℕ}
    (hstep : ∀ s e s', I s → C s e → M.step s e = .ok s' → I s' ∧ f s' = f s + w s e) :
    ∀ {es : List γ} {s s' : σ}, I s → M.Along C s es → M.run s es = .ok s' →
      f s' = f s + M.total w s es
  | [], s, s', _, _, h => by cases h; rfl
  | e :: es, s, s', hs, hC, h => by
    rw [run_cons] at h
    cases hm : M.step s e with
    | error f => rw [hm] at h; simp at h
    | ok s₁ =>
      rw [hm] at h
      obtain ⟨h₁, hf⟩ := hstep s e s₁ hs hC.1 hm
      rw [run_total hstep h₁ (hC.2 s₁ hm) h, hf, total, hm]
      exact Nat.add_assoc _ _ _

/-- **The run rule for registers**: a value that each step overwrites or leaves. -/
theorem run_latest {β : Type*} {I : σ → Prop} {C : σ → γ → Prop} {f : σ → β} {w : σ → γ → Option β}
    (hstep : ∀ s e s', I s → C s e → M.step s e = .ok s' → I s' ∧ f s' = (w s e).getD (f s)) :
    ∀ {es : List γ} {s s' : σ}, I s → M.Along C s es → M.run s es = .ok s' →
      f s' = M.latest w (f s) s es
  | [], s, s', _, _, h => by cases h; rfl
  | e :: es, s, s', hs, hC, h => by
    rw [run_cons] at h
    cases hm : M.step s e with
    | error f => rw [hm] at h; simp at h
    | ok s₁ =>
      rw [hm] at h
      obtain ⟨h₁, hf⟩ := hstep s e s₁ hs hC.1 hm
      rw [run_latest hstep h₁ (hC.2 s₁ hm) h, hf, latest, hm]

/-- **The run rule for logs**: a relation that composes along them. -/
theorem run_logged {β : Type*} {I : σ → Prop} {C : σ → γ → Prop} {R : σ → List β → σ → Prop}
    {w : σ → γ → List β} (hrefl : ∀ s, R s [] s)
    (htrans : ∀ s l t l' u, R s l t → R t l' u → R s (l ++ l') u)
    (hstep : ∀ s e s', I s → C s e → M.step s e = .ok s' → I s' ∧ R s (w s e) s') :
    ∀ {es : List γ} {s s' : σ}, I s → M.Along C s es → M.run s es = .ok s' → R s (M.logged w s es) s'
  | [], s, s', _, _, h => by cases h; exact hrefl s
  | e :: es, s, s', hs, hC, h => by
    rw [run_cons] at h
    cases hm : M.step s e with
    | error f => rw [hm] at h; simp at h
    | ok s₁ =>
      rw [hm] at h
      obtain ⟨h₁, hR⟩ := hstep s e s₁ hs hC.1 hm
      rw [logged, hm]
      exact htrans _ _ _ _ _ hR (run_logged hrefl htrans hstep h₁ (hC.2 s₁ hm) h)

/-- A running total of sums. -/
theorem total_add (w w' : σ → γ → ℕ) : ∀ (s : σ) (es : List γ),
    M.total (fun s e => w s e + w' s e) s es = M.total w s es + M.total w' s es
  | _, [] => rfl
  | s, e :: es => by
    simp only [total]
    cases M.step s e with
    | error f => rfl
    | ok s' =>
      dsimp only
      rw [total_add w w' s' es]
      exact Nat.add_add_add_comm _ _ _ _

/-- A running total is zero if no step adds to it. -/
theorem total_eq_zero {w : σ → γ → ℕ} : ∀ {es : List γ} {s s' : σ}, M.run s es = .ok s' →
    (M.total w s es = 0 ↔ M.Along (fun s e => w s e = 0) s es)
  | [], _, _, _ => iff_of_true rfl trivial
  | e :: es, s, s', h => by
    rw [run_cons] at h
    obtain ⟨s₁, hs₁, h⟩ := bind_eq_ok h
    rw [total, hs₁, Along, Nat.add_eq_zero_iff, total_eq_zero h]
    simp only [hs₁, Except.ok.injEq, forall_eq']

end Machine

end Outcome

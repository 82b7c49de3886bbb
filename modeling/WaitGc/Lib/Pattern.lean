/-
  Searching a text for a pattern, as a backtracking engine of regular expressions does.

  A pattern is a list of items: a literal text, `.*?` and `(\d+)`.  A match at a
  place tries what an item can take in the order of its preference, the least
  first for `.*?` and the most first for `(\d+)`, and returns the captures of the
  first way that goes through.

  A scan passes over a text in which its literal does not start (`Absent`), and
  the rules of `Absent` follow the pieces of that text.
-/
import Mathlib.Data.List.Infix

namespace Pattern

/-- An item of a pattern. -/
inductive Item where
  | text (s : List Char)
  | skip
  | digits

variable {β : Type} {digit : Char → Bool} {stop : Char → Bool} {s a b cs : List Char} {p : List Item}

/-- `f` at the first place where it succeeds; no place behind a `stop`. -/
def scan (stop : Char → Bool) (f : List Char → Option β) : List Char → Option β
  | [] => f []
  | c :: cs => (f (c :: cs)).or (if stop c then none else scan stop f cs)

/-- What `(\d+)` can take and what it leaves, the longest first. -/
def runs (digit : Char → Bool) : List Char → List (List Char × List Char)
  | [] => []
  | c :: cs =>
    if digit c then (runs digit cs).map (fun r => (c :: r.1, r.2)) ++ [([c], cs)] else []

/-- The captures of the first match that starts here. -/
def matchAt (digit : Char → Bool) : List Item → List Char → Option (List (List Char))
  | [], _ => some []
  | .text s :: p, cs => if s.isPrefixOf cs then matchAt digit p (cs.drop s.length) else none
  | .skip :: p, cs => scan (· = '\n') (matchAt digit p) cs
  | .digits :: p, cs => (runs digit cs).findSome? fun r => (matchAt digit p r.2).map (r.1 :: ·)

/-- The captures of the leftmost match. -/
def search (digit : Char → Bool) (p : List Item) (cs : List Char) : Option (List (List Char)) :=
  scan (fun _ => false) (matchAt digit p) cs

/-! ## Scans -/

theorem scan_hit {f : List Char → Option β} {g : β} (h : f cs = some g) : scan stop f cs = some g := by
  cases cs with
  | nil => exact h
  | cons c cs => rw [scan, h, Option.some_or]

theorem scan_pass {f : List Char → Option β} (hstop : ∀ c ∈ a, stop c = false)
    (hnone : ∀ x, x ≠ [] → x <:+ a → f (x ++ cs) = none) : scan stop f (a ++ cs) = scan stop f cs := by
  induction a with
  | nil => rfl
  | cons c a ih =>
    have hc := hnone (c :: a) (List.cons_ne_nil c a) List.suffix_rfl
    rw [List.cons_append] at hc ⊢
    rw [scan, hc, Option.none_or, hstop c List.mem_cons_self, if_neg Bool.false_ne_true]
    refine ih (fun d hd => hstop d (List.mem_cons_of_mem c hd)) fun x hx hsuf => ?_
    exact hnone x hx (hsuf.trans (List.suffix_cons c a))

theorem scan_none {f : List Char → Option β} (h : ∀ x, x <:+ cs → f x = none) : scan stop f cs = none := by
  induction cs with
  | nil => exact h [] List.suffix_rfl
  | cons c cs ih =>
    rw [scan, h _ List.suffix_rfl, Option.none_or]
    split_ifs
    · rfl
    · exact ih fun x hx => h x (hx.trans (List.suffix_cons c cs))

/-! ## Where a literal does not start -/

/-- `s` does not start within `a`, before `cs`. -/
def Absent (s a cs : List Char) : Prop := ∀ x, x ≠ [] → x <:+ a → ¬ s <+: x ++ cs

/-- A literal that starts in `x` lies in it or reaches behind it. -/
theorem prefix_append_cases {x : List Char} (h : s <+: x ++ cs) :
    s <+: x ∨ ∃ d t, s = x ++ d :: t ∧ d :: t <+: cs := by
  rcases List.prefix_or_prefix_of_prefix h (List.prefix_append x cs) with hs | ⟨t, rfl⟩
  · exact .inl hs
  · cases t with
    | nil => exact .inl (by rw [List.append_nil])
    | cons d t => exact .inr ⟨d, t, rfl, (List.prefix_append_right_inj x).1 h⟩

/-- A text without `s`, before a character that is not in `s`. -/
theorem Absent.of_text {c : Char} (h : ¬ s <:+: a) (hc : c ∉ s) : Absent s a (c :: cs) := by
  intro x _ hx hs
  rcases prefix_append_cases hs with hs | ⟨d, t, rfl, ht⟩
  · exact h (hs.isInfix.trans hx.isInfix)
  · rw [List.cons_prefix_cons] at ht
    exact hc (ht.1 ▸ List.mem_append_right x List.mem_cons_self)

theorem Absent.of_chars (hs : s ≠ []) (h : ∀ c ∈ a, c ∉ s) : Absent s a cs := by
  intro x hx hsuf hpre
  obtain ⟨c, x, rfl⟩ := List.exists_cons_of_ne_nil hx
  obtain ⟨d, s, rfl⟩ := List.exists_cons_of_ne_nil hs
  rw [List.cons_append, List.cons_prefix_cons] at hpre
  exact h c (hsuf.subset List.mem_cons_self) (hpre.1 ▸ List.mem_cons_self)

/-- A text without `s`, before `s`, whose first character does not come again. -/
theorem Absent.of_before {c : Char} (hc : c ∉ s) (h : ¬ c :: s <:+: a) :
    Absent (c :: s) a (c :: s ++ cs) := by
  intro x hx hsuf hpre
  rcases prefix_append_cases hpre with hpre | ⟨d, t, heq, ht⟩
  · exact h (hpre.isInfix.trans hsuf.isInfix)
  · -- the literal would start again within itself
    obtain ⟨e, x, rfl⟩ := List.exists_cons_of_ne_nil hx
    rw [List.cons_append, List.cons.injEq] at heq
    rw [List.cons_append, List.cons_prefix_cons] at ht
    exact hc (heq.2 ▸ List.mem_append_right x (ht.1 ▸ List.mem_cons_self))

theorem Absent.append (ha : Absent s a (b ++ cs)) (hb : Absent s b cs) : Absent s (a ++ b) cs := by
  intro x hx hsuf
  rcases List.suffix_or_suffix_of_suffix hsuf (List.suffix_append a b) with hxb | ⟨y, rfl⟩
  · exact hb x hx hxb
  · by_cases hy : y = []
    · subst hy
      exact hb b hx List.suffix_rfl
    · obtain ⟨w, hw⟩ := hsuf
      rw [← List.append_assoc] at hw
      rw [List.append_assoc]
      exact ha y hy ⟨w, List.append_cancel_right hw⟩

/-! ## Matches -/

theorem matchAt_text (s cs : List Char) (p : List Item) :
    matchAt digit (.text s :: p) (s ++ cs) = matchAt digit p cs := by
  rw [matchAt, if_pos (List.isPrefixOf_iff_prefix.2 (List.prefix_append s cs)), List.drop_left]

theorem matchAt_text_none (h : ¬ s <+: cs) : matchAt digit (.text s :: p) cs = none := by
  rw [matchAt, if_neg fun hs => h (List.isPrefixOf_iff_prefix.1 hs)]

/-- **`.*?` before a literal** stops where the literal comes first, if the rest matches there. -/
theorem matchAt_skip {g : List (List Char)} (hline : '\n' ∉ a) (habs : Absent s a (s ++ cs))
    (h : matchAt digit p cs = some g) : matchAt digit (.skip :: .text s :: p) (a ++ (s ++ cs)) = some g := by
  rw [matchAt, scan_pass]
  · exact scan_hit (by rw [matchAt_text, h])
  · intro c hc
    exact decide_eq_false fun heq => hline (heq ▸ hc)
  · intro x hx hsuf
    exact matchAt_text_none (habs x hx hsuf)

theorem runs_append {d : List Char} (hne : d ≠ []) (hd : ∀ c ∈ d, digit c = true)
    (hcs : ∀ c ∈ cs.head?, digit c = false) : ∃ l, runs digit (d ++ cs) = (d, cs) :: l := by
  induction d with
  | nil => exact absurd rfl hne
  | cons c d ih =>
    have hc := hd c List.mem_cons_self
    rw [List.cons_append, runs, if_pos hc]
    by_cases hnil : d = []
    · have hruns : runs digit cs = [] := by
        cases cs with
        | nil => rfl
        | cons e cs => rw [runs, hcs e rfl, if_neg Bool.false_ne_true]
      rw [hnil, List.nil_append, hruns]
      exact ⟨[], rfl⟩
    · obtain ⟨l, hl⟩ := ih hnil fun e he => hd e (List.mem_cons_of_mem c he)
      rw [hl]
      exact ⟨_, rfl⟩

/-- **`(\d+)`** takes the whole run, if the rest matches behind it. -/
theorem matchAt_digits {d : List Char} {g : List (List Char)} (hne : d ≠ [])
    (hd : ∀ c ∈ d, digit c = true) (hcs : ∀ c ∈ cs.head?, digit c = false)
    (h : matchAt digit p cs = some g) : matchAt digit (.digits :: p) (d ++ cs) = some (d :: g) := by
  obtain ⟨l, hl⟩ := runs_append hne hd hcs
  rw [matchAt, hl, List.findSome?_cons, h]
  rfl

/-- **A search** finds the pattern where its literal comes first, if it matches there. -/
theorem search_text {g : List (List Char)} (habs : Absent s a (s ++ cs))
    (h : matchAt digit p cs = some g) : search digit (.text s :: p) (a ++ (s ++ cs)) = some g := by
  rw [search, scan_pass (fun _ _ => rfl) fun x hx hsuf => matchAt_text_none (habs x hx hsuf)]
  exact scan_hit (by rw [matchAt_text, h])

theorem search_none (h : ¬ s <:+: cs) : search digit (.text s :: p) cs = none := by
  refine scan_none fun x hx => matchAt_text_none fun hs => h ?_
  exact hs.isInfix.trans hx.isInfix

end Pattern

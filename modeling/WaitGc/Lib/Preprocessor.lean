/-
  The C preprocessor, as far as a header of constants needs it.

  A text is read in the phases of translation: a backslash joins its line to the next
  one, a comment becomes a blank, and a line is a directive or blank.  What is
  neither, an `#endif` without its condition and a macro that is defined twice with
  different bodies are not read (`none`).

  `run_defines` and `run_defaults` say what a list of definitions does, plain or each
  under its own `#ifndef`; `run_skipped` that nothing happens under a condition that
  does not hold.
-/
import Mathlib.Data.List.Basic
import Mathlib.Logic.Function.Basic
import Mathlib.Tactic.IntervalCases

namespace Cpp

open Function

variable {a b cs : List Char}

/-! ## Phases -/

/-- Lines that end in a backslash are joined. -/
def splice : List Char → List Char
  | '\\' :: '\n' :: cs => splice cs
  | c :: cs => c :: splice cs
  | [] => []

/-- Comments are dropped; `true` in a comment. -/
def strip : Bool → List Char → List Char
  | false, '/' :: '*' :: cs => ' ' :: strip true cs
  | true, '*' :: '/' :: cs => strip false cs
  | false, c :: cs => c :: strip false cs
  | true, _ :: cs => strip true cs
  | _, [] => []

/-- The words of a line. -/
def words (line : List Char) : List (List Char) :=
  (line.splitOnP fun c => c = ' ' ∨ c = '\t').filter (· ≠ [])

/-- A line. -/
inductive Line where
  | blank
  | ifndef (name : List Char)
  | define (name : List Char) (body : List (List Char))
  | endif
  deriving DecidableEq, Repr

namespace Word

def ifndef : List Char := "#ifndef".toList
def define : List Char := "#define".toList
def endif : List Char := "#endif".toList

end Word

/-- The line of some words. -/
def Line.ofWords : List (List Char) → Option Line
  | [] => some .blank
  | [w] => if w = Word.endif then some .endif else none
  | w :: name :: body =>
    if w = Word.define then some (.define name body)
    else if w = Word.ifndef ∧ body = [] then some (.ifndef name)
    else none

/-- The lines of a text. -/
def parse (text : List Char) : Option (List Line) :=
  ((strip false (splice text)).splitOn '\n').mapM fun line => Line.ofWords (words line)

/-! ## Reading the phases -/

theorem splice_append_cons {c : Char} (hc : c ≠ '\n') (a : List Char) :
    splice (a ++ c :: cs) = splice a ++ splice (c :: cs) := by
  induction a using splice.induct with
  | case1 a ih => simp only [List.cons_append, splice, ih]
  | case2 d a hno ih =>
    rw [List.cons_append, splice.eq_2, splice.eq_2, ih, List.cons_append]
    · exact hno
    · intro x hd hx
      cases a with
      | nil => exact hc (List.cons.inj hx).1
      | cons e a =>
        obtain ⟨rfl, -⟩ := List.cons.inj hx
        exact hno a hd rfl
  | case3 => rfl

theorem splice_of_notMem (ha : '\\' ∉ a) : splice (a ++ cs) = a ++ splice cs := by
  induction a with
  | nil => rfl
  | cons c a ih =>
    obtain ⟨hc, ha⟩ := not_or.1 (mt List.mem_cons.2 ha)
    rw [List.cons_append, splice.eq_2, ih ha, List.cons_append]
    intro x hx
    exact absurd hx.symm hc

theorem mem_of_mem_splice {c : Char} (hc : c ∈ splice a) : c ∈ a := by
  induction a using splice.induct with
  | case1 a ih => exact List.mem_cons_of_mem _ (List.mem_cons_of_mem _ (ih (by rwa [splice] at hc)))
  | case2 d a hno ih =>
    rw [splice.eq_2 d a hno, List.mem_cons] at hc
    rcases hc with rfl | hc
    · exact List.mem_cons_self
    · exact List.mem_cons_of_mem d (ih hc)
  | case3 => exact hc

theorem strip_code (ha : '/' ∉ a) : strip false (a ++ cs) = a ++ strip false cs := by
  induction a with
  | nil => rfl
  | cons c a ih =>
    obtain ⟨hc, ha⟩ := not_or.1 (mt List.mem_cons.2 ha)
    rw [List.cons_append, strip.eq_3, ih ha, List.cons_append]
    intro x hx
    exact absurd hx.symm hc

theorem strip_comment (ha : '/' ∉ a) : strip true (a ++ '*' :: '/' :: cs) = strip false cs := by
  induction a with
  | nil => rfl
  | cons c a ih =>
    obtain ⟨hc, ha⟩ := not_or.1 (mt List.mem_cons.2 ha)
    rw [List.cons_append, strip.eq_4, ih ha]
    intro x hx hcons
    cases a with
    | nil => cases hcons
    | cons d a => exact ha (by rw [(List.cons.inj hcons).1]; exact List.mem_cons_self)

/-- The text `a`, up to the end of a line, is read as the line `l`. -/
def Reads (a : List Char) (l : Line) : Prop :=
  ∀ cs, parse (a ++ '\n' :: cs) = (parse cs).map (l :: ·)

theorem parse_lines {texts : List (List Char)} {lines : List Line} (h : List.Forall₂ Reads texts lines) :
    parse (texts.flatMap (· ++ ['\n'])) = some (lines ++ [.blank]) := by
  induction h with
  | nil => rfl
  | @cons a l texts lines hal _ ih =>
    rw [List.flatMap_cons, List.append_assoc, List.singleton_append, hal, ih]
    rfl

theorem intercalate_lines (texts : List (List Char)) :
    ['\n'].intercalate (texts ++ [[]]) = texts.flatMap (· ++ ['\n']) := by
  induction texts with
  | nil => rfl
  | cons a texts ih =>
    have hne : texts ++ [[]] ≠ [] := List.append_ne_nil_of_right_ne_nil _ (List.cons_ne_nil _ _)
    rw [List.cons_append, List.intercalate_cons_of_ne_nil hne, ih, List.flatMap_cons]

/-- A comment, in the text of a program. -/
def comment (a : List Char) : List Char := '/' :: '*' :: (a ++ ['*', '/'])

/-- **A comment is blank**, whatever ends of lines and backslashes are in it. -/
theorem reads_comment (ha : '/' ∉ a) : Reads (comment a) .blank := by
  intro cs
  have hsplice : splice (comment a ++ '\n' :: cs) =
      '/' :: '*' :: (splice a ++ '*' :: '/' :: '\n' :: splice cs) := by
    have hopen (x : List Char) : splice ('/' :: '*' :: x) = '/' :: '*' :: splice x :=
      splice_of_notMem (a := ['/', '*']) (by decide)
    have hclose (x : List Char) : splice ('*' :: '/' :: '\n' :: x) = '*' :: '/' :: '\n' :: splice x :=
      splice_of_notMem (a := ['*', '/', '\n']) (by decide)
    have ha (x : List Char) : splice (a ++ '*' :: x) = splice a ++ splice ('*' :: x) :=
      splice_append_cons (by decide) a
    rw [comment, List.cons_append, List.cons_append, List.append_assoc, List.cons_append, List.cons_append,
      List.nil_append, hopen, ha, hclose]
  have hstrip : strip false (splice (comment a ++ '\n' :: cs)) =
      [' '] ++ '\n' :: strip false (splice cs) := by
    rw [hsplice, strip, strip_comment fun h => ha (mem_of_mem_splice h)]
    exact congrArg (' ' :: ·) (strip_code (a := ['\n']) (by decide))
  rw [parse, hstrip, List.splitOn_append_cons_self_of_not_mem (by decide), List.mapM_cons, parse]
  cases ((strip false (splice cs)).splitOn '\n').mapM fun line => Line.ofWords (words line) <;> rfl

/-- Code without a comment, in one line. -/
structure Plain (a : List Char) : Prop where
  chars : ∀ c ∈ a, c ≠ '/' ∧ c ≠ '\\' ∧ c ≠ '\n'

theorem Plain.of_all (h : a.all (fun c => c ≠ '/' ∧ c ≠ '\\' ∧ c ≠ '\n') = true) : Plain a :=
  ⟨fun c hc => of_decide_eq_true (List.all_eq_true.1 h c hc)⟩

theorem Plain.append (ha : Plain a) (hb : Plain b) : Plain (a ++ b) :=
  ⟨fun c hc => (List.mem_append.1 hc).elim (ha.chars c) (hb.chars c)⟩

theorem Plain.cons {c : Char} (hc : c ≠ '/' ∧ c ≠ '\\' ∧ c ≠ '\n') (ha : Plain a) : Plain (c :: a) :=
  ⟨List.forall_mem_cons.2 ⟨hc, ha.chars⟩⟩

theorem reads_plain {l : Line} (ha : Plain a) (hl : Line.ofWords (words a) = some l) : Reads a l := by
  intro cs
  have hslash : '/' ∉ a := fun h => (ha.chars _ h).1 rfl
  have hback : '\\' ∉ a := fun h => (ha.chars _ h).2.1 rfl
  have hnewline : '\n' ∉ a := fun h => (ha.chars _ h).2.2 rfl
  have hsplice : splice ('\n' :: cs) = '\n' :: splice cs := splice_of_notMem (a := ['\n']) (by decide)
  have hstrip : strip false ('\n' :: splice cs) = '\n' :: strip false (splice cs) :=
    strip_code (a := ['\n']) (by decide)
  rw [parse, splice_of_notMem hback, hsplice, strip_code hslash, hstrip,
    List.splitOn_append_cons_self_of_not_mem hnewline, List.mapM_cons, hl, parse]
  cases ((strip false (splice cs)).splitOn '\n').mapM fun line => Line.ofWords (words line) <;> rfl

/-- A word. -/
structure IsWord (w : List Char) : Prop where
  ne_nil : w ≠ []
  chars : ∀ c ∈ w, c ≠ ' ' ∧ c ≠ '\t'

theorem IsWord.of_all {w : List Char} (hne : w ≠ []) (h : w.all (fun c => c ≠ ' ' ∧ c ≠ '\t') = true) :
    IsWord w := ⟨hne, fun c hc => of_decide_eq_true (List.all_eq_true.1 h c hc)⟩

theorem IsWord.append (ha : IsWord a) (hb : ∀ c ∈ b, c ≠ ' ' ∧ c ≠ '\t') : IsWord (a ++ b) :=
  ⟨List.append_ne_nil_of_left_ne_nil ha.ne_nil b,
    fun c hc => (List.mem_append.1 hc).elim (ha.chars c) (hb c)⟩

theorem words_word {w : List Char} (hw : IsWord w) : words w = [w] := by
  rw [words, List.splitOnP_eq_singleton]
  · simpa using hw.ne_nil
  · intro c hc
    simpa using hw.chars c hc

theorem words_cons {w : List Char} (hw : IsWord w) (cs : List Char) :
    words (w ++ ' ' :: cs) = w :: words cs := by
  rw [words, List.splitOnP_append_cons _ _ (by simp), List.filter_append]
  exact congrArg (· ++ words cs) (words_word hw)

theorem reads_define {name body : List Char} (hname : IsWord name) (hname' : Plain name)
    (hbody : IsWord body) (hbody' : Plain body) :
    Reads (Word.define ++ ' ' :: (name ++ ' ' :: body)) (.define name [body]) := by
  have hdefine : IsWord Word.define := .of_all (by decide) (by decide)
  refine reads_plain (.append (.of_all (by decide)) (.cons (by decide) (hname'.append (.cons (by decide) hbody')))) ?_
  rw [words_cons hdefine, words_cons hname, words_word hbody]
  rfl

/-! ## Directives -/

/-- The bodies of the macros that are defined. -/
abbrev Macros := List Char → Option (List (List Char))

/-- The macros, and for each open condition whether it holds, the innermost first. -/
structure State where
  macros : Macros
  conds : List Bool

/-- All open conditions hold. -/
def State.Active (s : State) : Prop := ∀ b ∈ s.conds, b = true

instance (s : State) : Decidable s.Active := List.decidableBAll (· = true) s.conds

/-- One line. -/
def step (s : State) : Line → Option State
  | .blank => some s
  | .ifndef name => some { s with conds := decide (s.macros name = none) :: s.conds }
  | .endif =>
    match s.conds with
    | [] => none
    | _ :: conds => some { s with conds := conds }
  | .define name body =>
    if s.Active then
      if s.macros name = none ∨ s.macros name = some body then
        some { s with macros := update s.macros name (some body) }
      else none
    else some s

/-- Some lines. -/
def run (s : State) (lines : List Line) : Option State := lines.foldlM step s

/-- The macros after a text; its conditions are closed. -/
def preprocess (m : Macros) (text : List Char) : Option Macros := do
  let s ← run ⟨m, []⟩ (← parse text)
  if s.conds = [] then some s.macros else none

theorem run_append (s : State) (l k : List Line) : run s (l ++ k) = (run s l).bind (run · k) :=
  List.foldlM_append

/-- Two conditions on the macros after some definitions: those that are defined, and the rest. -/
structure Defines (defs : List (List Char × List (List Char))) (m m' : Macros)
    (body : Option (List (List Char)) → List (List Char) → List (List Char)) : Prop where
  defined : ∀ p ∈ defs, m' p.1 = some (body (m p.1) p.2)
  frame : ∀ name, name ∉ defs.map Prod.fst → m' name = m name

variable {defs : List (List Char × List (List Char))} {s : State} {m m' : Macros}
  {body : Option (List (List Char)) → List (List Char) → List (List Char)}

theorem Defines.nil : Defines [] m m body := ⟨fun _ h => (nomatch h), fun _ _ => rfl⟩

theorem Defines.cons {p : List Char × List (List Char)} (hp : p.1 ∉ defs.map Prod.fst)
    (h : Defines defs (update m p.1 (some (body (m p.1) p.2))) m' body) : Defines (p :: defs) m m' body := by
  refine ⟨?_, fun name hname => ?_⟩
  · intro q hq
    rcases List.mem_cons.1 hq with rfl | hq
    · rw [h.frame _ hp, update_self]
    · rw [h.defined q hq, update_of_ne]
      rintro heq
      exact hp (heq ▸ List.mem_map_of_mem hq)
  · rw [List.map_cons, List.mem_cons, not_or] at hname
    rw [h.frame name hname.2, update_of_ne hname.1]

/-- **New definitions.** -/
theorem run_defines (hs : s.Active) (hnodup : (defs.map Prod.fst).Nodup)
    (hnew : ∀ p ∈ defs, s.macros p.1 = none) :
    ∃ m, run s (defs.map fun p => .define p.1 p.2) = some ⟨m, s.conds⟩ ∧
      Defines defs s.macros m fun _ b => b := by
  induction defs generalizing s with
  | nil => exact ⟨s.macros, rfl, .nil⟩
  | cons p defs ih =>
    obtain ⟨hp, hnodup⟩ := List.nodup_cons.1 hnodup
    have hnew' : ∀ q ∈ defs, update s.macros p.1 (some p.2) q.1 = none := by
      intro q hq
      have hne : q.1 ≠ p.1 := fun heq => hp (heq ▸ List.mem_map_of_mem hq)
      rw [update_of_ne hne]
      exact hnew q (List.mem_cons_of_mem p hq)
    obtain ⟨m, hrun, hm⟩ := ih (s := ⟨update s.macros p.1 (some p.2), s.conds⟩) hs hnodup hnew'
    refine ⟨m, ?_, hm.cons hp⟩
    have hstep : step s (.define p.1 p.2) = some ⟨update s.macros p.1 (some p.2), s.conds⟩ := by
      rw [step, if_pos hs, if_pos (.inl (hnew p List.mem_cons_self))]
    rw [run, List.map_cons, List.foldlM_cons, hstep]
    exact hrun

@[simp] theorem active_cons {b : Bool} {conds : List Bool} :
    State.Active ⟨m, b :: conds⟩ ↔ b = true ∧ State.Active ⟨m, conds⟩ := List.forall_mem_cons

/-- A definition under its own `#ifndef`. -/
def unlessDefined (p : List Char × List (List Char)) : List Line :=
  [.ifndef p.1, .define p.1 p.2, .endif]

theorem run_unlessDefined (hs : s.Active) (p : List Char × List (List Char)) :
    run s (unlessDefined p) = some ⟨update s.macros p.1 (some ((s.macros p.1).getD p.2)), s.conds⟩ := by
  have hconds : State.Active ⟨s.macros, s.conds⟩ := hs
  cases h : s.macros p.1 with
  | none => simp [run, unlessDefined, step, h, hconds]
  | some body =>
    have hsame : update s.macros p.1 (some body) = s.macros := by rw [← h, update_eq_self]
    simp [run, unlessDefined, step, h, hsame]

/-- **Definitions, each under its own `#ifndef`**: what is defined stays. -/
theorem run_defaults (hs : s.Active) (hnodup : (defs.map Prod.fst).Nodup) :
    ∃ m, run s (defs.flatMap unlessDefined) = some ⟨m, s.conds⟩ ∧
      Defines defs s.macros m fun old b => old.getD b := by
  induction defs generalizing s with
  | nil => exact ⟨s.macros, rfl, .nil⟩
  | cons p defs ih =>
    obtain ⟨hp, hnodup⟩ := List.nodup_cons.1 hnodup
    obtain ⟨m, hrun, hm⟩ :=
      ih (s := ⟨update s.macros p.1 (some ((s.macros p.1).getD p.2)), s.conds⟩) hs hnodup
    refine ⟨m, ?_, hm.cons hp⟩
    rw [List.flatMap_cons, run_append, run_unlessDefined hs]
    exact hrun

/-- **Under a condition that does not hold** nothing is defined. -/
theorem run_skipped (hs : ¬ s.Active) : run s (defs.map fun p => .define p.1 p.2) = some s := by
  induction defs with
  | nil => rfl
  | cons p defs ih =>
    rw [run, List.map_cons, List.foldlM_cons, step, if_neg hs]
    exact ih

/-! ## Numbers -/

/-- The suffix of a constant. -/
def ull : List Char := ['U', 'L', 'L']

/-- A constant, decimal or octal, with or without its suffix. -/
def number (token : List Char) : Option ℕ :=
  let suffixed := ull <:+ token
  let digits := if suffixed then token.take (token.length - ull.length) else token
  let base := if digits.head? = some '0' then 8 else 10
  if digits ≠ [] ∧ digits.all (fun c => c.isDigit ∧ c.toNat < '0'.toNat + base) then
    some (Nat.ofDigitChars base digits 0)
  else none

/-- The value of a macro that stands for a number. -/
def Macros.constant (m : Macros) (name : List Char) : Option ℕ :=
  match m name with
  | some [token] => number token
  | _ => none

theorem isDigit_of_mem {n : ℕ} {c : Char} (hc : c ∈ Nat.toDigits 10 n) : c.isDigit = true :=
  Nat.isDigit_of_mem_toDigits (by decide) (by decide) hc

theorem head_toDigits {n : ℕ} (hn : 0 < n) : (Nat.toDigits 10 n).head? ≠ some '0' := by
  induction n using Nat.strong_induction_on with
  | _ n ih =>
    by_cases hlt : n < 10
    · rw [Nat.toDigits_of_lt_base hlt]
      interval_cases n <;> decide
    · rw [Nat.toDigits_of_base_le (by decide) (by omega), List.head?_append_of_ne_nil _ Nat.toDigits_ne_nil]
      exact ih (n / 10) (by omega) (by omega)

/-- What `number` makes of the digits. -/
theorem ofDigits_toDigits (n : ℕ) :
    (if Nat.toDigits 10 n ≠ [] ∧ (Nat.toDigits 10 n).all (fun c =>
        c.isDigit ∧ c.toNat < '0'.toNat + (if (Nat.toDigits 10 n).head? = some '0' then 8 else 10)) then
      some (Nat.ofDigitChars (if (Nat.toDigits 10 n).head? = some '0' then 8 else 10)
        (Nat.toDigits 10 n) 0)
    else none) = some n := by
  rcases Nat.eq_zero_or_pos n with rfl | hn
  · decide
  rw [if_neg (head_toDigits hn), if_pos, Nat.ofDigitChars_ten_toDigits]
  refine ⟨Nat.toDigits_ne_nil, List.all_eq_true.2 fun c hc => decide_eq_true ⟨isDigit_of_mem hc, ?_⟩⟩
  have h := isDigit_of_mem hc
  simp only [Char.isDigit, Bool.and_eq_true, decide_eq_true_eq, UInt32.le_iff_toNat_le] at h
  exact Nat.lt_succ_of_le h.2

/-- **A number is read as it is printed,** -/
theorem number_toDigits (n : ℕ) : number (Nat.toDigits 10 n) = some n := by
  have hsuffix : ¬ ull <:+ Nat.toDigits 10 n := by
    intro h
    have := isDigit_of_mem (h.subset (by decide : 'L' ∈ ull))
    cases this
  rw [number, if_neg hsuffix]
  exact ofDigits_toDigits n

theorem number_ull (n : ℕ) : number (Nat.toDigits 10 n ++ ull) = some n := by
  rw [number, if_pos (List.suffix_append _ _), List.length_append, Nat.add_sub_cancel, List.take_left]
  exact ofDigits_toDigits n

end Cpp

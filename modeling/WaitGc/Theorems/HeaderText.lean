/-
  WAITGC verification — the generated header is read as it was written.

  `header_text_read`: the preprocessor reads the text of `render_header` to the
  constants of the fit, whatever stood in the name of the CSV file; the defaults of
  `conv_ftl.h` then leave them, and fill in the rest.  The names of the constants
  differ (`constants_nodup`), and reading the header a second time changes nothing.
-/
import WaitGc.Fit.HeaderText

namespace WaitGc

open Cpp

variable {h : IsoHeader} {m m' : Macros}

/-! ## The texts -/

theorem decimal_injective : Function.Injective decimal := fun a b hab => by
  have := congrArg (Nat.ofDigitChars 10 · 0) hab
  simpa only [decimal, Nat.ofDigitChars_ten_toDigits] using this

theorem char_of_mem_decimal {n : ℕ} {c : Char} (hc : c ∈ decimal n) (e : Char) (he : e.isDigit = false) :
    c ≠ e := by
  rintro rfl
  rw [isDigit_of_mem hc] at he
  cases he

theorem plain_decimal (n : ℕ) : Plain (decimal n) :=
  ⟨fun _ hc => ⟨char_of_mem_decimal hc _ rfl, char_of_mem_decimal hc _ rfl, char_of_mem_decimal hc _ rfl⟩⟩

theorem word_decimal (n : ℕ) : IsWord (decimal n) :=
  ⟨Nat.toDigits_ne_nil, fun _ hc => ⟨char_of_mem_decimal hc _ rfl, char_of_mem_decimal hc _ rfl⟩⟩

/-- A name that starts as the constants do. -/
structure IsConstant (name : List Char) : Prop where
  word : IsWord name
  plain : Plain name
  iso : HeaderText.iso <+: name

theorem stepCount_constant : IsConstant HeaderText.stepCount :=
  ⟨.of_all (by decide) (by decide), .of_all (by decide), by decide⟩

theorem boundaryName_constant (i : ℕ) : IsConstant (boundaryName i) where
  word := IsWord.append (.of_all (by decide) (by decide))
    fun c hc => (List.mem_append.1 hc).elim ((word_decimal i).chars c)
      ((IsWord.of_all (by decide) (by decide) : IsWord HeaderText.ns).chars c)
  plain := .append (.of_all (by decide)) (.append (plain_decimal i) (.of_all (by decide)))
  iso := (by decide : HeaderText.iso <+: HeaderText.ageT).trans (List.prefix_append _ _)

theorem valueName_constant (i : ℕ) : IsConstant (valueName i) where
  word := IsWord.append (.of_all (by decide) (by decide)) (word_decimal i).chars
  plain := .append (.of_all (by decide)) (plain_decimal i)
  iso := (by decide : HeaderText.iso <+: HeaderText.ageV).trans (List.prefix_append _ _)

/-- The bodies of the constants. -/
structure IsBody (body : List Char) : Prop where
  word : IsWord body
  plain : Plain body

theorem decimal_body (n : ℕ) : IsBody (decimal n) := ⟨word_decimal n, plain_decimal n⟩

theorem ull_body (n : ℕ) : IsBody (decimal n ++ ull) :=
  ⟨(word_decimal n).append (IsWord.of_all (by decide) (by decide) : IsWord ull).chars,
    (plain_decimal n).append (.of_all (by decide))⟩

theorem constants_texts {p : List Char × List Char} (hp : p ∈ h.constants) : IsConstant p.1 ∧ IsBody p.2 := by
  rw [IsoHeader.constants, List.mem_cons, List.mem_append, List.mem_map, List.mem_map] at hp
  rcases hp with rfl | ⟨q, -, rfl⟩ | ⟨q, -, rfl⟩
  · exact ⟨stepCount_constant, decimal_body _⟩
  · exact ⟨boundaryName_constant _, ull_body _⟩
  · exact ⟨valueName_constant _, ull_body _⟩

/-! ## The names -/

theorem boundaryName_injective : Function.Injective boundaryName := fun _ _ hij =>
  decimal_injective (List.append_cancel_right (List.append_cancel_left hij))

theorem valueName_injective : Function.Injective valueName := fun _ _ hij =>
  decimal_injective (List.append_cancel_left hij)

theorem ne_of_take {a b x y : List Char} (hlen : a.length = b.length) (hab : a ≠ b) : a ++ x ≠ b ++ y :=
  fun heq => hab (List.append_inj_left heq hlen)

theorem boundaryName_ne_valueName (i j : ℕ) : boundaryName i ≠ valueName j :=
  ne_of_take (by decide) (by decide)

theorem boundaryName_ne_stepCount (i : ℕ) : boundaryName i ≠ HeaderText.stepCount := by
  have hsplit : HeaderText.stepCount = HeaderText.stepCount.take 14 ++ HeaderText.stepCount.drop 14 :=
    (List.take_append_drop _ _).symm
  rw [hsplit]
  exact ne_of_take (by decide) (by decide)

theorem valueName_ne_stepCount (i : ℕ) : valueName i ≠ HeaderText.stepCount := by
  have hsplit : HeaderText.stepCount = HeaderText.stepCount.take 14 ++ HeaderText.stepCount.drop 14 :=
    (List.take_append_drop _ _).symm
  rw [hsplit]
  exact ne_of_take (by decide) (by decide)

theorem constants_names (h : IsoHeader) : h.constants.map Prod.fst =
    HeaderText.stepCount :: ((List.range' 1 h.boundaries.length).map boundaryName ++
      (List.range' 1 h.values.length).map valueName) := by
  have hnames {β : Type} (f : ℕ → List Char) (g : β → List Char) (l : List β) :
      ((l.zipIdx 1).map fun p => (f p.2, g p.1)).map Prod.fst = (List.range' 1 l.length).map f := by
    rw [← List.zipIdx_map_snd 1 l, List.map_map, List.map_map]
    rfl
  rw [IsoHeader.constants, List.map_cons, List.map_append, hnames boundaryName fun n => decimal n ++ ull,
    hnames valueName fun n => decimal n ++ ull]

/-- **The names of the constants differ.** -/
theorem constants_nodup (h : IsoHeader) : (h.constants.map Prod.fst).Nodup := by
  rw [constants_names, List.nodup_cons]
  refine ⟨fun hmem => ?_, List.Nodup.append ?_ ?_ ?_⟩
  · rcases List.mem_append.1 hmem with hmem | hmem
    · obtain ⟨i, -, hi⟩ := List.mem_map.1 hmem
      exact boundaryName_ne_stepCount i hi
    · obtain ⟨i, -, hi⟩ := List.mem_map.1 hmem
      exact valueName_ne_stepCount i hi
  · exact (List.nodup_range').map boundaryName_injective
  · exact (List.nodup_range').map valueName_injective
  · intro name hb hv
    obtain ⟨i, -, rfl⟩ := List.mem_map.1 hb
    obtain ⟨j, -, hj⟩ := List.mem_map.1 hv
    exact boundaryName_ne_valueName i j hj.symm

/-! ## Reading -/

/-- Neither the guard nor a constant is defined. -/
structure Unset (m : Macros) : Prop where
  guard : m HeaderText.guard = none
  iso : ∀ name, HeaderText.iso <+: name → m name = none

/-- The definitions of the constants. -/
def IsoHeader.defs (h : IsoHeader) : List (List Char × List (List Char)) :=
  h.constants.map fun p => (p.1, [p.2])

theorem defs_names (h : IsoHeader) : h.defs.map Prod.fst = h.constants.map Prod.fst := by
  rw [IsoHeader.defs, List.map_map]
  rfl

theorem defs_nodup (h : IsoHeader) : (h.defs.map Prod.fst).Nodup := by
  rw [defs_names]
  exact constants_nodup h

theorem iso_of_mem_names {name : List Char} (hname : name ∈ h.defs.map Prod.fst) :
    HeaderText.iso <+: name := by
  rw [defs_names] at hname
  obtain ⟨p, hp, rfl⟩ := List.mem_map.1 hname
  exact (constants_texts hp).1.iso

theorem guard_notMem (h : IsoHeader) : HeaderText.guard ∉ h.defs.map Prod.fst := fun hmem =>
  (by decide : ¬ HeaderText.iso <+: HeaderText.guard) (iso_of_mem_names hmem)

/-- The lines of the header. -/
def IsoHeader.lines (h : IsoHeader) : List Cpp.Line :=
  [.blank, .blank, .ifndef HeaderText.guard, .define HeaderText.guard [], .blank] ++
    h.defs.map (fun p => .define p.1 p.2) ++ [.blank, .endif, .blank]

/-- **The text is parsed** to its lines. -/
theorem renderHeaderText_parse {groups : List Block} {values : List ℕ} {source : List Char}
    (hsource : '/' ∉ source) :
    parse (renderHeaderText groups values source) = some (renderHeader groups values).lines := by
  have htext : renderHeaderText groups values source =
      ([comment HeaderText.generated, comment (HeaderText.source ++ (source ++ [' '])),
        Word.ifndef ++ ' ' :: HeaderText.guard, Word.define ++ ' ' :: HeaderText.guard, []] ++
      (renderHeader groups values).constants.map defineLine ++ [[], Word.endif]).flatMap (· ++ ['\n']) := by
    rw [← intercalate_lines, renderHeaderText, renderHeaderLines, List.append_assoc _ [[], Word.endif]]
    rfl
  have hname : '/' ∉ HeaderText.source ++ (source ++ [' ']) := by
    simp only [List.mem_append, not_or]
    exact ⟨by decide, hsource, by decide⟩
  have hblank : Reads [] .blank := reads_plain (.of_all (by decide)) rfl
  have hdefs : List.Forall₂ Reads ((renderHeader groups values).constants.map defineLine)
      ((renderHeader groups values).defs.map fun p => .define p.1 p.2) := by
    rw [IsoHeader.defs, List.map_map, List.forall₂_map_left_iff, List.forall₂_map_right_iff, List.forall₂_same]
    intro p hp
    obtain ⟨hc, hb⟩ := constants_texts hp
    exact reads_define hc.word hc.plain hb.word hb.plain
  have hopen : List.Forall₂ Reads
      [comment HeaderText.generated, comment (HeaderText.source ++ (source ++ [' '])),
        Word.ifndef ++ ' ' :: HeaderText.guard, Word.define ++ ' ' :: HeaderText.guard, []]
      [.blank, .blank, .ifndef HeaderText.guard, .define HeaderText.guard [], .blank] :=
    .cons (reads_comment (by decide)) (.cons (reads_comment hname)
      (.cons (reads_plain (.of_all (by decide)) (by decide))
        (.cons (reads_plain (.of_all (by decide)) (by decide)) (.cons hblank .nil))))
  have hclose : List.Forall₂ Reads [[], Word.endif] [.blank, .endif] :=
    .cons hblank (.cons (reads_plain (.of_all (by decide)) (by decide)) .nil)
  have hlines := List.rel_append (List.rel_append hopen hdefs) hclose
  rw [htext, parse_lines hlines, IsoHeader.lines, List.append_assoc _ [Cpp.Line.blank, .endif]]
  rfl

theorem run_header (h : IsoHeader) (hm : Unset m) :
    ∃ m', run ⟨m, []⟩ h.lines = some ⟨m', []⟩ ∧ m' HeaderText.guard = some [] ∧
      Defines h.defs (Function.update m HeaderText.guard (some [])) m' fun _ b => b := by
  have hnew : ∀ p ∈ h.defs, Function.update m HeaderText.guard (some []) p.1 = none := by
    intro p hp
    have hmem : p.1 ∈ h.defs.map Prod.fst := List.mem_map_of_mem hp
    have hne : p.1 ≠ HeaderText.guard := fun heq => guard_notMem h (heq ▸ hmem)
    rw [Function.update_of_ne hne]
    exact hm.iso _ (iso_of_mem_names hmem)
  have hactive : State.Active ⟨Function.update m HeaderText.guard (some []), [true]⟩ := by simp [State.Active]
  obtain ⟨m', hrun, hm'⟩ := run_defines hactive (defs_nodup h) hnew
  have hopen : run ⟨m, []⟩ [.blank, .blank, .ifndef HeaderText.guard, .define HeaderText.guard [], .blank] =
      some ⟨Function.update m HeaderText.guard (some []), [true]⟩ := by
    simp [run, step, hm.guard, State.Active]
  refine ⟨m', ?_, ?_, hm'⟩
  · rw [IsoHeader.lines, run_append, run_append, hopen, Option.bind_some, hrun]
    rfl
  · have hself : Function.update m HeaderText.guard (some []) HeaderText.guard = some [] :=
      Function.update_self ..
    exact (hm'.frame _ (guard_notMem h)).trans hself

theorem run_header_again (h : IsoHeader) (hm : m HeaderText.guard = some []) :
    run ⟨m, []⟩ h.lines = some ⟨m, []⟩ := by
  have hopen : run ⟨m, []⟩ [.blank, .blank, .ifndef HeaderText.guard, .define HeaderText.guard [], .blank] =
      some ⟨m, [false]⟩ := by
    simp [run, step, hm, State.Active]
  rw [IsoHeader.lines, run_append, run_append, hopen, Option.bind_some, run_skipped (by simp [State.Active])]
  rfl

/-! ## The constants -/

theorem boundaryName_mem {i : ℕ} :
    boundaryName (i + 1) ∈ h.defs.map Prod.fst ↔ i < h.boundaries.length := by
  rw [defs_names, constants_names, List.mem_cons, List.mem_append]
  constructor
  · rintro (heq | hmem | hmem)
    · exact absurd heq (boundaryName_ne_stepCount _)
    · obtain ⟨j, hj, hji⟩ := List.mem_map.1 hmem
      rw [boundaryName_injective hji, List.mem_range'_1] at hj
      omega
    · obtain ⟨j, -, hji⟩ := List.mem_map.1 hmem
      exact absurd hji.symm (boundaryName_ne_valueName _ _)
  · intro hi
    exact .inr (.inl (List.mem_map_of_mem (List.mem_range'_1.2 (by omega))))

theorem valueName_mem {i : ℕ} : valueName (i + 1) ∈ h.defs.map Prod.fst ↔ i < h.values.length := by
  rw [defs_names, constants_names, List.mem_cons, List.mem_append]
  constructor
  · rintro (heq | hmem | hmem)
    · exact absurd heq (valueName_ne_stepCount _)
    · obtain ⟨j, -, hji⟩ := List.mem_map.1 hmem
      exact absurd hji (boundaryName_ne_valueName _ _)
    · obtain ⟨j, hj, hji⟩ := List.mem_map.1 hmem
      rw [valueName_injective hji, List.mem_range'_1] at hj
      omega
  · intro hi
    exact .inr (.inr (List.mem_map_of_mem (List.mem_range'_1.2 (by omega))))

theorem mem_zipIdx_one {l : List ℕ} {i : ℕ} (hi : i < l.length) : (l[i], i + 1) ∈ l.zipIdx 1 := by
  rw [Nat.add_comm, List.mk_add_mem_zipIdx_iff_getElem?, List.getElem?_eq_getElem hi]

theorem boundary_mem_defs {i : ℕ} (hi : i < h.boundaries.length) :
    (boundaryName (i + 1), [decimal h.boundaries[i] ++ ull]) ∈ h.defs :=
  List.mem_map_of_mem (f := fun p : List Char × List Char => (p.1, [p.2]))
    (List.mem_cons_of_mem _ (List.mem_append_left _
      (List.mem_map_of_mem (f := fun p : ℕ × ℕ => (boundaryName p.2, decimal p.1 ++ ull)) (mem_zipIdx_one hi))))

theorem value_mem_defs {i : ℕ} (hi : i < h.values.length) :
    (valueName (i + 1), [decimal h.values[i] ++ ull]) ∈ h.defs :=
  List.mem_map_of_mem (f := fun p : List Char × List Char => (p.1, [p.2]))
    (List.mem_cons_of_mem _ (List.mem_append_right _
      (List.mem_map_of_mem (f := fun p : ℕ × ℕ => (valueName p.2, decimal p.1 ++ ull)) (mem_zipIdx_one hi))))

/-- The header that has the defaults of `conv_ftl.h`. -/
def defaultHeader : IsoHeader := ⟨7, defaultBoundaries, defaultValues⟩

theorem isoDefaults_eq : isoDefaults = defaultHeader.defs.flatMap unlessDefined := by
  rw [isoDefaults, IsoHeader.defs, List.flatMap_map]
  rfl

/-- The macros after the header and the defaults. -/
structure Completed (h : IsoHeader) (m : Macros) : Prop where
  header : ∀ p ∈ h.defs, m p.1 = some p.2
  default : ∀ p ∈ defaultHeader.defs, p.1 ∉ h.defs.map Prod.fst → m p.1 = some p.2

/-- **`conv_ftl.h` compiles with the constants of the header**, each as a number. -/
structure Compiled (h : IsoHeader) (m : Macros) : Prop where
  stepCount : m.constant HeaderText.stepCount = some h.stepCount
  boundary : ∀ i < 6, m.constant (boundaryName (i + 1)) = some (h.boundary i)
  value : ∀ i < 7, m.constant (valueName (i + 1)) = some (h.value i)

theorem constant_of_body {name token : List Char} (hname : m name = some [token]) :
    m.constant name = number token := by rw [Macros.constant, hname]

theorem Completed.compiled (hm : Completed h m) : Compiled h m := by
  constructor
  · have hmem : (HeaderText.stepCount, [decimal h.stepCount]) ∈ h.defs := List.mem_cons_self
    rw [constant_of_body (hm.header _ hmem)]
    exact number_toDigits h.stepCount
  · intro i hi
    rcases Nat.lt_or_ge i h.boundaries.length with hlt | hge
    · rw [constant_of_body (hm.header _ (boundary_mem_defs hlt)), IsoHeader.boundary,
        List.getD_eq_getElem?_getD, List.getElem?_eq_getElem hlt]
      exact number_ull _
    · have hi' : i < defaultHeader.boundaries.length := hi
      have hnot := mt boundaryName_mem.1 (Nat.not_lt_of_ge hge)
      have hget : defaultBoundaries[i]? = some defaultHeader.boundaries[i] := List.getElem?_eq_getElem hi'
      rw [constant_of_body (hm.default _ (boundary_mem_defs hi') hnot), IsoHeader.boundary,
        List.getD_eq_getElem?_getD, List.getElem?_eq_none hge, Option.getD_none,
        List.getD_eq_getElem?_getD, hget]
      exact number_ull _
  · intro i hi
    rcases Nat.lt_or_ge i h.values.length with hlt | hge
    · rw [constant_of_body (hm.header _ (value_mem_defs hlt)), IsoHeader.value,
        List.getD_eq_getElem?_getD, List.getElem?_eq_getElem hlt]
      exact number_ull _
    · have hi' : i < defaultHeader.values.length := hi
      have hnot := mt valueName_mem.1 (Nat.not_lt_of_ge hge)
      have hget : defaultValues[i]? = some defaultHeader.values[i] := List.getElem?_eq_getElem hi'
      rw [constant_of_body (hm.default _ (value_mem_defs hi') hnot), IsoHeader.value,
        List.getD_eq_getElem?_getD, List.getElem?_eq_none hge, Option.getD_none,
        List.getD_eq_getElem?_getD, hget]
      exact number_ull _

/-- The defaults are read after a header. -/
theorem run_isoDefaults (hm : Unset m)
    (hm' : Defines h.defs (Function.update m HeaderText.guard (some [])) m' fun _ b => b) :
    ∃ m'', run ⟨m', []⟩ isoDefaults = some ⟨m'', []⟩ ∧ Completed h m'' ∧
      ∀ name, ¬ HeaderText.iso <+: name → m'' name = m' name := by
  have hactive : State.Active ⟨m', []⟩ := by simp [State.Active]
  obtain ⟨m'', hrun, hm''⟩ := run_defaults hactive (defs_nodup defaultHeader)
  refine ⟨m'', ?_, ⟨?_, ?_⟩, fun name hiso => hm''.frame name (mt iso_of_mem_names hiso)⟩
  · rw [isoDefaults_eq, hrun]
  · -- the header has it: the default is skipped
    intro p hp
    have hset := hm'.defined p hp
    by_cases hmem : p.1 ∈ defaultHeader.defs.map Prod.fst
    · obtain ⟨q, hq, hqp⟩ := List.mem_map.1 hmem
      rw [← hqp, hm''.defined q hq, hqp]
      exact congrArg (some <| ·.getD q.2) hset
    · exact (hm''.frame _ hmem).trans hset
  · -- the header does not have it
    intro p hp hnot
    have hiso := iso_of_mem_names (List.mem_map_of_mem hp)
    have hne : p.1 ≠ HeaderText.guard := fun heq =>
      (by decide : ¬ HeaderText.iso <+: HeaderText.guard) (heq ▸ hiso)
    have hnone : m' p.1 = none := by
      rw [hm'.frame _ hnot, Function.update_of_ne hne]
      exact hm.iso _ hiso
    rw [hm''.defined p hp]
    exact congrArg (some <| ·.getD p.2) hnone

/-- **The header that `fit_isotonic.py` writes is read as it was meant.**  For every fit and every
    name of the CSV file, the preprocessor takes the text of `render_header`, and a second
    inclusion changes nothing; with the defaults of `conv_ftl.h` after it, every constant of the
    table is the number of the fit, and no other macro changed. -/
theorem header_text_read (groups : List Block) (values : List ℕ) {source : List Char}
    (hsource : '/' ∉ source) (hm : Unset m) :
    ∃ m', preprocess m (renderHeaderText groups values source) = some m' ∧
      preprocess m' (renderHeaderText groups values source) = some m' ∧
      ∃ m'', run ⟨m', []⟩ isoDefaults = some ⟨m'', []⟩ ∧ Compiled (renderHeader groups values) m'' ∧
        ∀ name, name ≠ HeaderText.guard → ¬ HeaderText.iso <+: name → m'' name = m name := by
  obtain ⟨m', hrun, hguard, hm'⟩ := run_header (renderHeader groups values) hm
  obtain ⟨m'', hdefaults, hcompleted, hframe⟩ := run_isoDefaults hm hm'
  refine ⟨m', ?_, ?_, m'', hdefaults, hcompleted.compiled, fun name hne hiso => ?_⟩
  · simp [preprocess, renderHeaderText_parse hsource, hrun]
  · simp [preprocess, renderHeaderText_parse hsource, run_header_again _ hguard]
  · calc m'' name = m' name := hframe name hiso
      _ = Function.update m HeaderText.guard (some []) name := hm'.frame name (mt iso_of_mem_names hiso)
      _ = m name := Function.update_of_ne hne ..

/-- Two groups. -/
def twoGroups : List Block :=
  [⟨0, 4, 1, 9, 81, 1, one_pos⟩, ⟨5, 20, 2, 6, 18, 2, two_pos⟩]

theorem header_text_read_twoGroups : ∃ m' m'',
    preprocess (fun _ => none) (renderHeaderText twoGroups [1, 3] "samples.csv".toList) = some m' ∧
      run ⟨m', []⟩ isoDefaults = some ⟨m'', []⟩ ∧ m''.constant HeaderText.stepCount = some 2 ∧
      m''.constant (boundaryName 1) = some 5 ∧ m''.constant (boundaryName 2) = some 20000000000 := by
  obtain ⟨m', hread, -, m'', hdefaults, hcompiled, -⟩ := header_text_read (m := fun _ => none) twoGroups [1, 3]
    (by decide : '/' ∉ "samples.csv".toList) ⟨rfl, fun _ _ => rfl⟩
  exact ⟨m', m'', hread, hdefaults, hcompiled.stepCount, hcompiled.boundary 0 (by decide),
    hcompiled.boundary 1 (by decide)⟩

end WaitGc

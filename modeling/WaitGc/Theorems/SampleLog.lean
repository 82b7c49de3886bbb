/-
  WAITGC verification — the extraction reads what the kernel printed.

  `search_printed`: the pattern finds the age, the pages and the horizon of a record,
  whatever stands before and behind it in its line, and finds nothing in a line
  without a record.  So the extraction of the kernel log of a run returns the records
  of its FTLs, normalized to the target horizon, without those that were observed for
  too long, and accounts for as many as `conv_flush` reports (`samples_extracted`).
-/
import WaitGc.Fit.Extract
import WaitGc.Proof.Devices
import WaitGc.Proof.Records

namespace WaitGc

open Outcome Pattern

variable {digit : Char → Option ℕ} {args : ExtractArgs} {r : IsoSample} {recs : List IsoSample}
  {log : List (List Char)} {before behind : List Char}

/-! ## Numbers -/

/-- Of the ASCII characters `0` to `9` are digits, with their values. -/
def AsciiDigits (digit : Char → Option ℕ) : Prop :=
  ∀ c : Char, c.toNat < 128 → digit c = if c.isDigit then some (c.toNat - 48) else none

theorem decimal_isDigit {n : ℕ} {c : Char} (hc : c ∈ decimal n) : c.isDigit = true :=
  Nat.isDigit_of_mem_toDigits (by decide) (by decide) hc

theorem isDigit_toNat {c : Char} (hc : c.isDigit = true) : 48 ≤ c.toNat ∧ c.toNat ≤ 57 := by
  simpa [Char.isDigit, UInt32.le_iff_toNat_le] using hc

theorem AsciiDigits.of_isDigit (hd : AsciiDigits digit) {c : Char} (hc : c.isDigit = true) :
    digit c = some (c.toNat - 48) := by
  have hlt := isDigit_toNat hc
  rw [hd c (by omega), if_pos hc]

/-- **A number is read as it was printed.** -/
theorem pyInt_decimal (hd : AsciiDigits digit) (n : ℕ) : pyInt digit (decimal n) = n := by
  have hfold (l : List Char) (hl : ∀ c ∈ l, c.isDigit = true) (m : ℕ) :
      l.foldl (fun n c => 10 * n + (digit c).getD 0) m = Nat.ofDigitChars 10 l m := by
    induction l generalizing m with
    | nil => rw [Nat.ofDigitChars_nil, List.foldl_nil]
    | cons c l ih =>
      rw [List.foldl_cons, Nat.ofDigitChars_cons, ih fun e he => hl e (List.mem_cons_of_mem c he),
        hd.of_isDigit (hl c List.mem_cons_self)]
      rfl
  rw [pyInt, hfold _ fun c hc => decimal_isDigit hc]
  exact Nat.ofDigitChars_ten_toDigits

theorem matches_decimal (hd : AsciiDigits digit) {n : ℕ} {c : Char} (hc : c ∈ decimal n) :
    (digit c).isSome = true := by
  rw [hd.of_isDigit (decimal_isDigit hc)]
  rfl

theorem space_not_digit (hd : AsciiDigits digit) : (digit ' ').isSome = false := by
  rw [hd ' ' (by decide)]
  rfl

/-! ## One line -/

/-- A literal without digits. -/
def NoDigits (s : List Char) : Prop := ∀ c ∈ s, c.isDigit = false

instance (s : List Char) : Decidable (NoDigits s) :=
  decidable_of_iff (s.all fun c => !c.isDigit) (by simp [NoDigits])

theorem decimal_cons (n : ℕ) : ∃ c l, decimal n = c :: l := List.exists_cons_of_ne_nil Nat.toDigits_ne_nil

theorem NoDigits.notMem {s : List Char} (hs : NoDigits s) {n : ℕ} {c : Char} (hc : c ∈ decimal n) :
    c ∉ s := fun hmem => by
  have h := hs c hmem
  rw [decimal_isDigit hc] at h
  cases h

theorem NoDigits.absent_decimal {s cs : List Char} (hs : NoDigits s) (hne : s ≠ []) (n : ℕ) :
    Absent s (decimal n) cs := .of_chars hne fun _ hc => hs.notMem hc

theorem NoDigits.absent_text {s a cs : List Char} (hs : NoDigits s) (h : ¬ s <:+: a) (n : ℕ) :
    Absent s a (decimal n ++ cs) := by
  obtain ⟨c, l, hcl⟩ := decimal_cons n
  rw [hcl]
  exact .of_text h (hs.notMem (n := n) (hcl ▸ List.mem_cons_self))

theorem newline_notMem_decimal (n : ℕ) : '\n' ∉ decimal n := fun hmem => by
  have h := decimal_isDigit hmem
  cases h

theorem matchAt_decimal (hd : AsciiDigits digit) (n : ℕ) {cs : List Char} {p : List Item}
    {g : List (List Char)} (h : matchAt (fun c => (digit c).isSome) p (' ' :: cs) = some g) :
    matchAt (fun c => (digit c).isSome) (.digits :: p) (decimal n ++ ' ' :: cs) = some (decimal n :: g) := by
  refine matchAt_digits Nat.toDigits_ne_nil (fun c hc => matches_decimal hd hc) ?_ h
  rintro c ⟨⟩
  exact space_not_digit hd

theorem matchAt_blank {s cs : List Char} {p : List Item} {g : List (List Char)} (hne : s ≠ [])
    (hs : ' ' ∉ s) (h : matchAt (fun c => (digit c).isSome) p cs = some g) :
    matchAt (fun c => (digit c).isSome) (.skip :: .text s :: p) (' ' :: (s ++ cs)) = some g := by
  refine matchAt_skip (a := [' ']) (by decide) (.of_chars hne ?_) h
  rintro c hc
  rwa [List.mem_singleton.1 hc]

theorem absent_age (part line : ℕ) (cs : List Char) : Absent SampleText.age
    (SampleText.part ++ (decimal part ++ (SampleText.line ++ (decimal line ++ [' ']))))
    (SampleText.age ++ cs) := by
  have hs : NoDigits SampleText.age := by decide
  have hne : SampleText.age ≠ [] := by decide
  refine .append ?_ (.append (hs.absent_decimal hne part) (.append ?_ (.append (hs.absent_decimal hne line) ?_)))
  · rw [List.append_assoc]
    exact hs.absent_text (by decide) part
  · rw [List.append_assoc]
    exact hs.absent_text (by decide) line
  · refine .of_chars hne fun c hc => ?_
    rw [List.mem_singleton.1 hc]
    decide

/-- **A record is found**, whatever stands before it and behind it. -/
theorem search_printed (hd : AsciiDigits digit) (hbefore : ¬ SampleText.tag <:+: before) :
    search (fun c => (digit c).isSome) samplePattern (before ++ (r.printed ++ behind)) =
      some [decimal r.ageNs, decimal r.futureInvalidPages, decimal r.horizonNs] := by
  have hend : matchAt (fun c => (digit c).isSome) [] (' ' :: (SampleText.startIpc ++
      (decimal r.startIpc ++ ' ' :: (SampleText.endIpc ++ (decimal r.endIpc ++ behind))))) = some [] := rfl
  have hhorizon := matchAt_decimal hd r.horizonNs hend
  have hgain := matchAt_decimal hd r.futureInvalidPages
    (matchAt_blank (s := SampleText.horizon) (by decide) (by decide) hhorizon)
  have hage := matchAt_decimal hd r.ageNs
    (matchAt_blank (s := SampleText.gain) (by decide) (by decide) hgain)
  have hline : '\n' ∉ SampleText.part ++ (decimal r.part ++ (SampleText.line ++ (decimal r.line ++ [' ']))) := by
    simp only [List.mem_append, not_or]
    exact ⟨by decide, newline_notMem_decimal _, by decide, newline_notMem_decimal _, by decide⟩
  have hskip := matchAt_skip hline (absent_age _ _ _) hage
  have htag (cs : List Char) : Absent SampleText.tag before (SampleText.tag ++ cs) :=
    Absent.of_before (c := '[') (s := "ISO-SAMPLE]".toList) (by decide) hbefore
  have hfound := search_text (htag _) hskip
  simp only [List.append_assoc, List.cons_append, List.nil_append] at hfound
  simp only [IsoSample.printed, List.append_assoc, List.cons_append]
  exact hfound

/-! ## A log -/

/-- A kernel log with some records, each in a line of its own, in order. -/
inductive LogOf : List IsoSample → List (List Char) → Prop
  | nil : LogOf [] []
  | other {recs : List IsoSample} {log : List (List Char)} {line : List Char}
      (h : ¬ SampleText.tag <:+: line) (hlog : LogOf recs log) : LogOf recs (line :: log)
  | sample {recs : List IsoSample} {log : List (List Char)} {r : IsoSample} {before behind : List Char}
      (h : ¬ SampleText.tag <:+: before) (hlog : LogOf recs log) :
      LogOf (r :: recs) ((before ++ (r.printed ++ behind)) :: log)

/-- The record is not dropped. -/
def IsoSample.InTime (args : ExtractArgs) (r : IsoSample) : Prop := ¬ args.Late r.horizonNs

instance IsoSample.decidableInTime (args : ExtractArgs) (r : IsoSample) : Decidable (r.InTime args) :=
  inferInstanceAs (Decidable (¬ _))

/-- The row of a record: its pages over the target horizon. -/
def IsoSample.row (args : ExtractArgs) (r : IsoSample) : ℕ × ℚ :=
  (r.ageNs, r.futureInvalidPages * args.targetHorizonNs / r.horizonNs)

/-- What the extraction has of a log after some records. -/
def extractedOf (args : ExtractArgs) (recs : List IsoSample) : Extracted where
  rows := (recs.filter (·.InTime args)).map (IsoSample.row args)
  accepted := recs.countP (·.InTime args)
  dropped := recs.countP fun r => ¬ r.InTime args

theorem extractLine_other {line : List Char} (h : ¬ SampleText.tag <:+: line) (out : Extracted) :
    extractLine digit args out line = .ok out := by
  rw [extractLine, samplePattern, search_none h]

/-- One record. -/
theorem extractLine_printed (hd : AsciiDigits digit) (h : ¬ SampleText.tag <:+: before)
    (hpos : r.horizonNs ≠ 0) (recs : List IsoSample) :
    extractLine digit args (extractedOf args recs) (before ++ (r.printed ++ behind)) =
      .ok (extractedOf args (recs ++ [r])) := by
  rw [extractLine, search_printed hd h]
  dsimp only
  rw [pyInt_decimal hd, pyInt_decimal hd, pyInt_decimal hd]
  by_cases hin : r.InTime args
  · rw [if_neg hin, if_neg hpos]
    simp [extractedOf, hin, IsoSample.row]
  · rw [if_pos (not_not.1 hin)]
    simp [extractedOf, hin]

/-- **A log is read as its records.** -/
theorem extractSamples_log (hd : AsciiDigits digit) (hlog : LogOf recs log)
    (hpos : ∀ r ∈ recs, r.horizonNs ≠ 0) :
    extractSamples digit args log = .ok (extractedOf args recs) := by
  have hfold (pre : List IsoSample) :
      log.foldlM (extractLine digit args) (extractedOf args pre) = .ok (extractedOf args (pre ++ recs)) := by
    induction hlog generalizing pre with
    | nil => rw [List.append_nil]; rfl
    | other h _ ih => rw [List.foldlM_cons, extractLine_other h, ok_bind, ih hpos]
    | @sample recs log r before behind h _ ih =>
      have hr := hpos r List.mem_cons_self
      rw [List.foldlM_cons, extractLine_printed hd h hr, ok_bind,
        ih fun r' hr' => hpos r' (List.mem_cons_of_mem r hr'), List.append_assoc]
      rfl
  exact hfold []

/-! ## The log of a run -/

variable {c : Cfg} {dev : Dev} {d : Device} {es : List Event} {junk : ℕ → ℕ → Slot} {clock : ℕ → ℕ}

/-- The records of all instances. -/
def Dev.isoLog (c : Cfg) (dev : Dev) : List IsoSample :=
  (List.range c.nrParts).flatMap fun part => (dev.ftls part).isoLog

theorem Dev.length_isoLog (dev : Dev) :
    (dev.isoLog c).length = ((List.range c.nrParts).map fun part => (dev.ftls part).isoLog.length).sum := by
  rw [Dev.isoLog, List.length_flatMap]

theorem recorded_horizon_ne_zero (hhorizon : 0 < c.build.isoSampleHorizonNs)
    (hinit : convInitNamespace c junk clock = .ok dev) (hrun : (device c).run ⟨dev, none⟩ es = .ok d)
    (hrecs : recs.Perm (d.dev.isoLog c)) : ∀ r ∈ recs, r.horizonNs ≠ 0 := by
  intro r hr
  obtain ⟨part, hpart, hmem⟩ := List.mem_flatMap.1 (hrecs.mem_iff.1 hr)
  have := (recorded_run hinit hrun (List.mem_range.1 hpart)).horizon r hmem
  omega

theorem extractedOf_accepted (recs : List IsoSample) :
    (extractedOf args recs).accepted = (extractedOf args recs).rows.length := by
  simp [extractedOf, List.countP_eq_length_filter]

theorem extractedOf_total (recs : List IsoSample) :
    (extractedOf args recs).accepted + (extractedOf args recs).dropped = recs.length := by
  rw [List.length_eq_countP_add_countP (fun r : IsoSample => decide (r.InTime args))]
  simp [extractedOf]

theorem extractedOf_status (recs : List IsoSample) :
    (extractedOf args recs).status = 0 ↔ ∃ r ∈ recs, r.InTime args := by
  simp [Extracted.status, extractedOf]

/-- **The sample log of a run is extracted without loss.**  From the kernel log of any run,
    with the records of the FTLs in whatever order between whatever other lines, the script
    writes one row for each record that was not observed for too long, drops the rest, and
    counts as many together as `conv_flush` reports. -/
theorem samples_extracted (args : ExtractArgs) (hd : AsciiDigits digit) (hhorizon : 0 < c.build.isoSampleHorizonNs)
    (hinit : convInitNamespace c junk clock = .ok dev) (hrun : (device c).run ⟨dev, none⟩ es = .ok d)
    (hrecs : recs.Perm (d.dev.isoLog c)) (hlog : LogOf recs log) :
    ∃ out, extractSamples digit args log = .ok out ∧
      out.rows = (recs.filter (·.InTime args)).map (IsoSample.row args) ∧
      out.accepted = out.rows.length ∧
      out.accepted + out.dropped = (convFlush c d.dev).1.isoSamples ∧
      (out.status = 0 ↔ ∃ r ∈ recs, r.InTime args) := by
  have hpos := recorded_horizon_ne_zero hhorizon hinit hrun hrecs
  have hsum : (convFlush c d.dev).1.isoSamples = recs.length := by
    rw [hrecs.length_eq, Dev.length_isoLog]
    change ((List.range c.nrParts).map _).sum = _
    congr 1
    refine List.map_congr_left fun part hpart => ?_
    exact (recorded_run hinit hrun (List.mem_range.1 hpart)).count
  refine ⟨_, extractSamples_log hd hlog hpos, rfl, extractedOf_accepted recs, ?_, extractedOf_status recs⟩
  rw [hsum, extractedOf_total]

/-- The digits of ASCII. -/
def asciiDigit (c : Char) : Option ℕ := if c.isDigit then some (c.toNat - 48) else none

theorem logOf_printed (recs : List IsoSample) : LogOf recs (recs.map IsoSample.printed) := by
  induction recs with
  | nil => exact .nil
  | cons r recs ih =>
    have h : LogOf (r :: recs) (([] ++ (r.printed ++ [])) :: recs.map IsoSample.printed) :=
      .sample (by decide) ih
    rwa [List.append_nil] at h

/-- The greedy build on six lines, with sampling. -/
def sampledCfg : Cfg := ⟨six, convInitParams, ⟨.greedy, true, 1000⟩, 1, Nat.one_pos⟩

/-- Twenty times the target horizon is in time. -/
def sampledArgs : ExtractArgs where
  targetHorizonNs := 1000
  maxHorizonRatio := .finite 20
  target_pos := by decide
  one_le_ratio _ h := by cases h; decide

/-- A page is written, trimmed and written again, at the times. -/
def rewriteAt (times : ℕ × ℕ × ℕ) : List Event :=
  [.dispatch ⟨.write ⟨0, 7, 0⟩, times.1⟩, .resume, .resume, .resume,
    .dispatch ⟨.dsm ⟨0, 4, some fun _ => ⟨8, 0⟩⟩, times.2.1⟩,
    .dispatch ⟨.write ⟨0, 7, 0⟩, times.2.2⟩, .resume, .resume, .resume]

/-- Three lines are observed, the last one for 30000 ns. -/
def sampledRun : List Event :=
  [(0, 10000, 10000), (20000, 23000, 24000), (30000, 32000, 34000), (40000, 45000, 50000),
    (60000, 70000, 80000)].flatMap rewriteAt

/-- Three records are printed, after another line of the log; two of them are in time. -/
theorem samples_extracted_sampledRun : ∃ dev d out,
    convInitNamespace sampledCfg (fun _ _ => .null) (fun _ => 0) = .ok dev ∧
      (device sampledCfg).run ⟨dev, none⟩ sampledRun = .ok d ∧
      extractSamples asciiDigit sampledArgs
        ([] :: (d.dev.isoLog sampledCfg).map IsoSample.printed) = .ok out ∧
      out.accepted = 2 ∧ out.dropped = 1 ∧ (convFlush sampledCfg d.dev).1.isoSamples = 3 := by
  have hcond : (convInitNamespace sampledCfg (fun _ _ => .null) (fun _ => 0) >>= fun dev =>
      ((device sampledCfg).run ⟨dev, none⟩ sampledRun).map fun d =>
        (((d.dev.isoLog sampledCfg).filter (·.InTime sampledArgs)).length,
          (convFlush sampledCfg d.dev).1.isoSamples)) = .ok (2, 3) := by
    decide +kernel
  obtain ⟨dev, hinit, hcond⟩ := bind_eq_ok hcond
  obtain ⟨d, hrun, hcond⟩ := exists_ok_of_map hcond
  obtain ⟨htime, hsamples⟩ := Prod.mk.inj hcond
  have hd : AsciiDigits asciiDigit := fun _ _ => rfl
  have hlog : LogOf (d.dev.isoLog sampledCfg) ([] :: (d.dev.isoLog sampledCfg).map IsoSample.printed) :=
    .other (by decide) (logOf_printed _)
  obtain ⟨out, hout, hrows, haccepted, hsum, -⟩ :=
    samples_extracted sampledArgs hd (by decide : 0 < 1000) hinit hrun (.refl _) hlog
  rw [hrows, List.length_map, htime] at haccepted
  exact ⟨dev, d, out, hinit, hrun, hout, haccepted, by omega, hsamples⟩

end WaitGc

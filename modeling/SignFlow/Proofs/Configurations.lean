import SignFlow.Command.Run

/-! What a run over several configurations reports.

The suppressions of a configuration stay for those behind it, and nothing else does. So each
configuration has a part of its own in the results, which depends on the configurations before it only
through their notes. -/

namespace SignFlow

namespace SuppressionNote

def Legible (n : SuppressionNote) : Prop :=
  n.id.getD "" ≠ "" → n.file.getD "" ≠ "" → n.line.isTrue = true → ∃ k, n.line.toInteger = .ok k

def covers (n : SuppressionNote) (d : Diagnostic) : Bool :=
  let id := n.id.getD ""
  let file := n.file.getD ""
  if id = "" then false
  else if file = "" then Suppressions.names id d
  else if n.line.isTrue then
    file == d.location.file
      && n.line.toInteger.toOption.any (fun k => k == d.location.line || k == d.location.line - 1)
      && Suppressions.names id d
  else Suppressions.names id d && Suppressions.fits file d.location.file

end SuppressionNote

namespace Suppressions

theorem covers_addEverywhere (s : Suppressions) (id : String) (d : Diagnostic) :
    (s.addEverywhere id).covers d = (s.covers d || names id d) := by
  simp only [covers, addEverywhere, List.any_append, List.any_cons, List.any_nil, Bool.or_false]
  ac_rfl

theorem covers_addLine (s : Suppressions) (id file : String) (line : Int) (d : Diagnostic) :
    (s.addLine id file line).covers d = (s.covers d || (file == d.location.file &&
      (line == d.location.line || line == d.location.line - 1) && names id d)) := by
  simp only [covers, addLine, List.any_append, List.any_cons, List.any_nil, Bool.or_false]
  ac_rfl

theorem covers_addFile (s : Suppressions) (id pattern : String) (d : Diagnostic) :
    (s.addFile id pattern).covers d = (s.covers d || (names id d && fits pattern d.location.file)) := by
  simp only [covers, addFile, List.any_append, List.any_cons, List.any_nil, Bool.or_false]
  ac_rfl

/-- A note that can be read is added, and covers what it says from then on. -/
theorem add_covers (s : Suppressions) {n : SuppressionNote} (h : n.Legible) :
    ∃ s', s.add n = .ok s' ∧ ∀ d, s'.covers d = (s.covers d || n.covers d) := by
  by_cases hid : n.id.getD "" = ""
  · exact ⟨s, by simp [add, hid], fun d => by simp [SuppressionNote.covers, hid]⟩
  by_cases hfile : n.file.getD "" = ""
  · refine ⟨s.addEverywhere (n.id.getD ""), by simp [add, hid, hfile], fun d => ?_⟩
    simp [covers_addEverywhere, SuppressionNote.covers, hid, hfile]
  by_cases hline : n.line.isTrue = true
  · obtain ⟨k, hk⟩ := h hid hfile hline
    refine ⟨s.addLine (n.id.getD "") (n.file.getD "") k, by simp [add, hid, hfile, hline, hk, Except.map], ?_⟩
    intro d
    have hread : n.line.toInteger.toOption = some k := by rw [hk]; rfl
    simp [covers_addLine, SuppressionNote.covers, hid, hfile, hline, hread]
  · refine ⟨s.addFile (n.id.getD "") (n.file.getD ""), by simp [add, hid, hfile, hline], fun d => ?_⟩
    simp [covers_addFile, SuppressionNote.covers, hid, hfile, hline]

theorem addAll_covers (s : Suppressions) {notes : List SuppressionNote} (h : ∀ n ∈ notes, n.Legible) :
    ∃ s', s.addAll notes = (s', .ok ()) ∧ ∀ d, s'.covers d = (s.covers d || notes.any (·.covers d)) := by
  induction notes generalizing s with
  | nil => exact ⟨s, rfl, fun d => by simp⟩
  | cons n rest ih =>
    obtain ⟨s₁, hadd, hcovers₁⟩ := s.add_covers (h n List.mem_cons_self)
    obtain ⟨s', hrest, hcovers⟩ := ih s₁ fun m hm => h m (List.mem_cons_of_mem _ hm)
    refine ⟨s', by simp [addAll, hadd, hrest], fun d => ?_⟩
    rw [hcovers, hcovers₁, List.any_cons, Bool.or_assoc]

end Suppressions

theorem DivisionCheck.run_result (p : Program) (s : Suppressions) (options : List (String × Value)) :
    (run { program := p, suppressions := s, options := options }).result =
      (run { program := p, options := options }).result := by
  unfold run
  cases configure {} options with
  | error f => rfl
  | ok c =>
    simp only [collect, analysed]
    cases (p.analyse .rpo c.limit).2 with
    | error f => rfl
    | ok analyses =>
      cases hfound : analyses.mapM Analysis.sites with
      | error f => simp [hfound, bind, Except.bind]
      | ok found => simp [hfound, bind, Except.bind, pure, Except.pure]

namespace Configuration

def findings (c : Configuration) (options : List (String × Value)) : Except Failure (List Diagnostic) :=
  (DivisionCheck.run { program := c.program, options := options }).result

/-- The part of a configuration in the results: what is found and not suppressed, by what was given or by
one of the notes, or else the failure. -/
def part (s : Suppressions) (options : List (String × Value)) (notes : List SuppressionNote)
    (c : Configuration) : List Diagnostic :=
  match c.findings options with
  | .ok ds => ds.filter fun d => !(s.covers d || notes.any (·.covers d))
  | .error f => [Runner.internalError DivisionCheck.info.name f]

/-- The parts of configurations behind some notes. Each has the notes of the configurations up to it. -/
def parts (s : Suppressions) (options : List (String × Value)) (notes : List SuppressionNote)
    (configs : List Configuration) : List (List Diagnostic) :=
  configs.mapIdx fun i c => c.part s options (notes ++ (configs.take (i + 1)).flatMap Configuration.notes)

theorem parts_cons (s : Suppressions) (options : List (String × Value)) (notes : List SuppressionNote)
    (c : Configuration) (rest : List Configuration) :
    parts s options notes (c :: rest) =
      c.part s options (notes ++ c.notes) :: parts s options (notes ++ c.notes) rest := by
  simp [parts, List.mapIdx_cons]

/-- Another configuration with the same notes leaves the parts of the others as they are. -/
theorem parts_set (s : Suppressions) (options : List (String × Value)) (notes : List SuppressionNote)
    {configs : List Configuration} {i j : Nat} {c c' : Configuration} (hc : configs[i]? = some c)
    (hnotes : c'.notes = c.notes) (hij : i ≠ j) :
    (parts s options notes (configs.set i c'))[j]? = (parts s options notes configs)[j]? := by
  have hmap : (configs.set i c').map Configuration.notes = configs.map Configuration.notes := by
    obtain ⟨hi, rfl⟩ := List.getElem?_eq_some_iff.mp hc
    rw [List.map_set, hnotes, ← List.getElem_map Configuration.notes (h := by simpa using hi)]
    exact List.set_getElem_self _
  have htake : ((configs.set i c').take (j + 1)).flatMap Configuration.notes =
      (configs.take (j + 1)).flatMap Configuration.notes := by
    simp only [List.flatMap_def, List.map_take, hmap]
  simp [parts, List.getElem?_set_ne hij, htake]

end Configuration

namespace Runner

variable {s s' : Suppressions} {notes : List SuppressionNote}

theorem run_part (options : List (String × Value))
    (hs' : ∀ d, s'.covers d = (s.covers d || notes.any (·.covers d))) {c : Configuration}
    (h : ∀ n ∈ c.notes, n.Legible) :
    ∃ s'' log q, ({ suppressions := s', options := options } : Runner).run c none =
        ({ suppressions := s'', options := options }, log, .ok q) ∧
      q.diagnostics = c.part s options (notes ++ c.notes) ∧
      ∀ d, s''.covers d = (s.covers d || (notes ++ c.notes).any (·.covers d)) := by
  obtain ⟨s'', hload, hcovers⟩ := s'.addAll_covers h
  have hs'' : ∀ d, s''.covers d = (s.covers d || (notes ++ c.notes).any (·.covers d)) := fun d => by
    rw [hcovers, hs', List.any_append, Bool.or_assoc]
  have hpart : (runCheckers { program := c.program, suppressions := s'', options := options }
      [DivisionCheck.checker] {}).2.diagnostics = c.part s options (notes ++ c.notes) := by
    have hrun := DivisionCheck.run_result c.program s'' options
    simp only [runCheckers, DivisionCheck.checker, Configuration.part, Configuration.findings, hrun]
    cases (DivisionCheck.run { program := c.program, options := options }).result with
    | ok ds => simp [Results.add, Suppressions.filter, hs'']
    | error f => simp [Results.add]
  exact ⟨s'', _, _, by simp only [run, hload]; rfl, hpart, hs''⟩

theorem runAll_parts (options : List (String × Value))
    (hs' : ∀ d, s'.covers d = (s.covers d || notes.any (·.covers d)))
    {configs : List Configuration} (h : ∀ c ∈ configs, ∀ n ∈ c.notes, n.Legible) (results : Results) :
    ∃ q, (({ suppressions := s', options := options } : Runner).runAll none configs results).2 = .ok q ∧
      q.diagnostics = results.diagnostics ++ (Configuration.parts s options notes configs).flatten := by
  induction configs generalizing s' notes results with
  | nil => exact ⟨results, rfl, (List.append_nil _).symm⟩
  | cons c rest ih =>
    obtain ⟨s'', log, q, hrun, hpart, hs''⟩ := run_part options hs' (h c List.mem_cons_self)
    obtain ⟨q', hrest, hq'⟩ := ih hs'' (fun c hc => h c (List.mem_cons_of_mem _ hc)) (results.append q)
    refine ⟨q', ?_, ?_⟩
    · simp only [runAll, hrun, hrest]
    · rw [hq', Configuration.parts_cons, List.flatten_cons, ← hpart, ← List.append_assoc]
      rfl

end Runner

theorem Results.errorCount_pos (r : Results) :
    0 < r.errorCount ↔ ∃ d ∈ r.diagnostics, d.severity = .error := by
  simp [errorCount, count, List.length_pos_iff_exists_mem]

theorem Command.report_code {r : Runner} {names : Option (List String)} {configs : List Configuration}
    {results : Results} (h : (r.runAll names configs {}).2 = .ok results) (o : Option Output)
    (verbosity : Verbosity) (elapsed : String → String) :
    ∃ response, report r names o verbosity (.configurations configs) elapsed = .ok response ∧
      response.code = if 0 < results.errorCount then 1 else 0 :=
  ⟨_, by simp only [report, h, bind, Except.bind]; rfl, rfl⟩

/-- A run over configurations reports the part of each, one after the other. A part depends on the other
configurations only through the notes of those in front, and the exit code is one just if a part holds
an error. -/
theorem Runner.runAll_decomposes (s : Suppressions) (options : List (String × Value))
    (configs : List Configuration) (h : ∀ c ∈ configs, ∀ n ∈ c.notes, n.Legible)
    (o : Option Command.Output) (verbosity : Command.Verbosity) (elapsed : String → String) :
    (∃ results, (({ suppressions := s, options := options } : Runner).runAll none configs {}).2 =
        .ok results ∧
      results.diagnostics = (Configuration.parts s options [] configs).flatten) ∧
    (∀ i j c c', configs[i]? = some c → c'.notes = c.notes → i ≠ j →
      (Configuration.parts s options [] (configs.set i c'))[j]? =
        (Configuration.parts s options [] configs)[j]?) ∧
    ∃ response, Command.report { suppressions := s, options := options } none o verbosity
        (.configurations configs) elapsed = .ok response ∧ response.code ≤ 1 ∧
      (response.code = 1 ↔
        ∃ part ∈ Configuration.parts s options [] configs, ∃ d ∈ part, d.severity = .error) := by
  have hstart : ∀ d, s.covers d = (s.covers d || ([] : List SuppressionNote).any (·.covers d)) :=
    fun d => (Bool.or_false _).symm
  obtain ⟨results, hrun, hresults⟩ := runAll_parts options hstart h {}
  have hparts : results.diagnostics = (Configuration.parts s options [] configs).flatten := hresults
  have hcount : 0 < results.errorCount ↔
      ∃ part ∈ Configuration.parts s options [] configs, ∃ d ∈ part, d.severity = .error := by
    rw [results.errorCount_pos, hparts]
    constructor
    · rintro ⟨d, hd, herror⟩
      obtain ⟨part, hpart, hd⟩ := List.mem_flatten.mp hd
      exact ⟨part, hpart, d, hd, herror⟩
    · rintro ⟨part, hpart, d, hd, herror⟩
      exact ⟨d, List.mem_flatten_of_mem hpart hd, herror⟩
  obtain ⟨response, hreport, hcode⟩ := Command.report_code hrun o verbosity elapsed
  refine ⟨⟨results, hrun, hparts⟩, fun i j c c' => Configuration.parts_set s options [], ?_⟩
  refine ⟨response, hreport, ?_, ?_⟩
  · rw [hcode]
    split <;> omega
  · rw [hcode, ← hcount]
    split <;> simp_all

namespace Builds

def intType : Option ValueType := some { base := .int }

def program (line : Int) (values : List FlowValue) : Program where
  code := ⟨#[
    { text := "\x7b", link := some 5, next := some 1 },
    { text := "10", parent := some 2, isNumber := true, type := intType, next := some 2 },
    { text := "/", file := "a.c", line := line, left := some 1, right := some 3, type := intType,
      next := some 3 },
    { text := "0", parent := some 2, isNumber := true, type := intType, values := values,
      next := some 4 },
    { text := ";", next := some 5 },
    { text := "\x7d", link := some 0 }]⟩
  functions := [⟨some "main", some "1"⟩]
  scopes := [{ isFunction := true, function := some 0, bodyStart := some 0, bodyEnd := some 5 }]

/-- The first cannot be analysed, but its note covers the division in the second. -/
def configs : List Configuration :=
  [ ⟨program 4 [{ known := true, int := some .null }], [⟨some "divByZero", some "a.c", .int 3⟩]⟩,
    ⟨program 4 [], []⟩,
    ⟨program 7 [], []⟩ ]

theorem legible : ∀ c ∈ configs, ∀ n ∈ c.notes, n.Legible := by
  intro c hc n hn
  simp only [configs, List.mem_cons, List.not_mem_nil, or_false] at hc
  rcases hc with rfl | rfl | rfl
  · rw [List.mem_singleton.mp hn]
    exact fun _ _ _ => ⟨3, rfl⟩
  · cases hn
  · cases hn

end Builds

theorem Runner.runAll_decomposes_builds :
    (∃ results, (({} : Runner).runAll none Builds.configs {}).2 = .ok results ∧
      results.diagnostics.map (fun d => (d.id, d.location.line)) =
        [("checkerInternalError", 0), ("divByZero", 7)]) ∧
    ∃ response, Command.report {} none none .warning (.configurations Builds.configs) (fun _ => "") =
      .ok response ∧ response.code = 1 := by
  obtain ⟨⟨results, hrun, hresults⟩, -, response, hreport, -, hcode⟩ :=
    Runner.runAll_decomposes {} [] Builds.configs Builds.legible none .warning fun _ => ""
  refine ⟨⟨results, hrun, ?_⟩, response, hreport, hcode.mpr ?_⟩
  · rw [hresults]
    decide +kernel
  · decide +kernel

end SignFlow

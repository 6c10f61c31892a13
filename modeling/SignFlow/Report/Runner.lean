import SignFlow.Report.DivisionCheck

/-! Running checkers over the configurations of a program. -/

namespace SignFlow

/-- A program as one set of build options makes it, with the suppressions in its text. -/
structure Configuration where
  program : Program := {}
  notes : List SuppressionNote := []

structure Results where
  diagnostics : List Diagnostic := []
  byChecker : List (String × List Diagnostic) := []
  names : List String := []

namespace Results

def count (r : Results) (severity : Severity) : Nat :=
  (r.diagnostics.filter fun d => d.severity == severity).length

def errorCount (r : Results) : Nat := r.count .error

def warningCount (r : Results) : Nat := r.count .warning

def inFile (r : Results) (file : String) : List Diagnostic :=
  r.diagnostics.filter fun d => d.location.file == file

def found (r : Results) (name : String) : List Diagnostic := (r.byChecker.lookup name).getD []

def byName (r : Results) : List (String × List Diagnostic) :=
  Text.sortByName r.byChecker

def update (r : Results) (name : String) (f : List Diagnostic → List Diagnostic) : Results :=
  if r.byChecker.any fun e => e.1 == name then
    { r with byChecker := r.byChecker.map fun e => if e.1 == name then (e.1, f e.2) else e }
  else { r with byChecker := r.byChecker ++ [(name, f [])] }

/-- Adds what one checker found; what it found before is replaced in its own list. -/
def add (r : Results) (name : String) (ds : List Diagnostic) : Results :=
  { r.update name fun _ => ds with
    diagnostics := r.diagnostics ++ ds
    names := r.names ++ [name] }

def append (r q : Results) : Results :=
  let merged := q.byChecker.foldl (fun acc e => acc.update e.1 (· ++ e.2)) r
  { merged with
    diagnostics := r.diagnostics ++ q.diagnostics
    names := q.names.foldl (fun acc n => if acc.contains n then acc else acc ++ [n]) r.names }

def lines (r : Results) : String := "\n".intercalate (r.diagnostics.map Diagnostic.toLine)

def figures (r : Results) : List String :=
  Text.sort (r.byChecker.map fun e => e.1 ++ "_elapsed_ms")

/-- A summary; `elapsed` tells how long each checker took. -/
def summary (r : Results) (elapsed : String → String) : String :=
  let head := "Checker run complete: " ++ toString r.diagnostics.length ++ " diagnostics ("
    ++ toString r.errorCount ++ " errors, " ++ toString r.warningCount ++ " warnings)"
  let row (name : String) := "  " ++ name ++ ": " ++ toString (r.found name).length ++ " findings ("
    ++ elapsed name ++ "ms)"
  "\n".intercalate (head :: r.names.map row)

end Results

structure Runner where
  registry : Registry := .standard
  suppressions : Suppressions := {}
  options : List (String × Value) := []

namespace Runner

def internalError (name : String) (f : Failure) : Diagnostic where
  id := "checkerInternalError"
  message := "Checker '" ++ name ++ "' failed: " ++ f.message
  severity := .information
  location := {}
  checker := name

/-- The checkers of the given names, with warnings about names there are none for. -/
def select (r : Runner) (names : Option (List String)) : List LogEntry × List Checker :=
  match names with
  | none => ([], r.registry.checkers)
  | some names =>
    (names.filterMap fun n =>
      if (r.registry.get? n).isSome then none
      else some ⟨.warning, "Unknown checker " ++ Text.quoted n ++ " ignored"⟩,
      names.filterMap r.registry.get?)

/-- Runs checkers one after the other in one session. A failure becomes a diagnostic of its own, which
no suppression covers. -/
def runCheckers (session : Session) : List Checker → Results → List LogEntry × Results
  | [], results => ([], results)
  | c :: rest, results =>
    let name := c.info.name
    let r := c.run session
    let (log, ds) :=
      match r.result with
      | .ok ds => ([], session.suppressions.filter ds)
      | .error f =>
        ([⟨.error, "Checker " ++ Text.quoted name ++ " failed"⟩], [internalError name f])
    let q := runCheckers r.session rest (results.add name ds)
    (r.log ++ log ++ q.1, q.2)

/-- Runs checkers on a configuration, whose suppressions stay for later ones. -/
def run (r : Runner) (config : Configuration) (names : Option (List String)) :
    Runner × List LogEntry × Except Fault Results :=
  let (suppressions, loaded) := r.suppressions.addAll config.notes
  let r := { r with suppressions := suppressions }
  match loaded with
  | .error f => (r, [], .error f)
  | .ok () =>
    let (log, checkers) := r.select names
    let session : Session :=
      { program := config.program, suppressions := suppressions, options := r.options }
    let q := runCheckers session checkers {}
    (r, log ++ q.1, .ok q.2)

def runAll (r : Runner) (names : Option (List String)) :
    List Configuration → Results → List LogEntry × Except Fault Results
  | [], results => ([], .ok results)
  | config :: rest, results =>
    match r.run config names with
    | (_, log, .error f) => (log, .error f)
    | (r, log, .ok q) =>
      let s := r.runAll names rest (results.append q)
      (log ++ s.1, s.2)

end Runner

end SignFlow

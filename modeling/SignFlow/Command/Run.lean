import SignFlow.Command.Arguments
import SignFlow.Report.Runner
import SignFlow.Text.Lines

/-! What the command does with its arguments and a dump. -/

namespace SignFlow.Command

inductive Verbosity
  /-- The arguments were refused before it was set. -/
  | notSet
  | warning
  | debug
  deriving DecidableEq, Repr

def Verbosity.name : Verbosity → String
  | notSet => "NOTSET"
  | warning => "WARNING"
  | debug => "DEBUG"

inductive Dump
  /-- There is nothing to read dumps with. -/
  | noReader
  | configurations (configs : List Configuration)

structure Response where
  code : Nat
  stdout : String := ""
  stderr : String := ""
  verbosity : Verbosity
  log : List LogEntry := []

/-- What was wrong with the call, if it could not be carried out: the last line of the complaint. -/
def Response.complaint? (r : Response) : Option String :=
  if r.code = 2 then some (Text.lastLine r.stderr) else none

def usageLine (e : UsageError) : String := "divzero: error: " ++ e.message ++ "\n"

/-- The options of a run; a limit without a value is an empty list, which no checker takes. -/
def Settings.options (s : Settings) : List (String × Value) :=
  [("max_iterations", s.maxIterations.elim (.list []) .int), ("report_possible", .bool (!s.noPossible))]

def Settings.runner (s : Settings) : Runner where
  suppressions := (s.suppress.getD []).foldl Suppressions.addEverywhere {}
  options := s.options

def render (o : Option Output) (r : Results) (elapsed : String → String) : String :=
  match o with
  | some .json => String.join (r.diagnostics.map fun d => d.toJson ++ "\n")
  | some .gcc => String.join (r.diagnostics.map fun d => d.toLine ++ "\n")
  | some .summary | none => r.summary elapsed ++ "\n"

/-- Checks a dump and shows what was found: the exit code tells whether there were errors. -/
def report (r : Runner) (names : Option (List String)) (o : Option Output) (verbosity : Verbosity)
    (dump : Dump) (elapsed : String → String) : Except Fault Response :=
  match dump with
  | .noReader =>
    .ok { code := 2, stderr := "ERROR: cppcheckdata module not found\n", verbosity := verbosity }
  | .configurations configs => do
    let (log, result) := r.runAll names configs {}
    let results ← result
    pure {
      code := if 0 < results.errorCount then 1 else 0
      stdout := render o results elapsed
      verbosity := verbosity
      log := log }

def check (s : Settings) (verbosity : Verbosity) (dump : Dump) (elapsed : String → String) :
    Except Fault Response :=
  report s.runner s.checkers s.output verbosity dump elapsed

def run (argv : List String) (dump : Dump) (elapsed : String → String) : Except Fault Response :=
  match parse argv with
  | .error .help => .ok { code := 0, verbosity := .notSet }
  | .error (.usage e) => .ok { code := 2, stderr := usageLine e, verbosity := .notSet }
  | .ok s =>
    let verbosity := if s.verbose then .debug else .warning
    if s.listCheckers then
      .ok { code := 0, stdout := Registry.standard.listing, verbosity := verbosity }
    else
      match s.dumpFile with
      | none | some "" => .ok { code := 2, stderr := usageLine .noDumpFile, verbosity := verbosity }
      | some _ => check s verbosity dump elapsed

end SignFlow.Command

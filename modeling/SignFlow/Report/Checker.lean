import SignFlow.Analysis.Function
import SignFlow.Report.Suppression

/-! Checkers, and the registry they are found in. -/

namespace SignFlow

inductive LogLevel
  | warning
  | error
  deriving DecidableEq, Repr

def LogLevel.name : LogLevel → String
  | warning => "WARNING"
  | error => "ERROR"

structure LogEntry where
  level : LogLevel
  message : String
  deriving DecidableEq, Repr

/-- What a checker works on: a program, what is suppressed, its options, and the analysis that checkers
of one run share. -/
structure Session where
  program : Program := {}
  suppressions : Suppressions := {}
  options : List (String × Value) := []
  analyses : Option (List Analysis) := none

inductive Failure
  | fault (f : Fault)
  | stopped (message : String)

def Failure.message : Failure → String
  | fault f => f.message
  | stopped message => message

structure CheckerRun where
  session : Session
  log : List LogEntry := []
  result : Except Failure (List Diagnostic)

structure CheckerInfo where
  name : String := "base-checker"
  /-- The kind of checker, as messages show it. -/
  title : String
  description : String := ""
  errorIds : List String := []
  severity : Severity := .warning
  cweIds : List (String × Int) := []
  deriving Repr

/-- What a checker says of one finding; the rest comes from the checker. -/
structure Finding where
  id : String
  message : String
  location : Location
  severity : Option Severity := none
  confidence : Confidence := .medium
  extra : String := ""
  evidence : List (String × Value) := []

namespace CheckerInfo

def display (i : CheckerInfo) : String := "<" ++ i.title ++ " '" ++ i.name ++ "'>"

def diagnostic (i : CheckerInfo) (f : Finding) : Diagnostic where
  id := f.id
  message := f.message
  severity := f.severity.getD i.severity
  location := f.location
  confidence := f.confidence
  cwe := (i.cweIds.lookup f.id).getD 0
  checker := i.name
  extra := f.extra
  evidence := f.evidence

def sortedIds (i : CheckerInfo) : List String :=
  Text.sort i.errorIds.eraseDups

def sortedCwes (i : CheckerInfo) : List Int :=
  (i.cweIds.map Prod.snd).eraseDups.mergeSort fun a b => decide (a ≤ b)

/-- The text, with blanks behind it up to the width. -/
def padded (width : Nat) (text : String) : String :=
  text ++ String.ofList (List.replicate (width - text.length) ' ')

def listing (i : CheckerInfo) : String :=
  let row (head rest : String) := "  " ++ padded 25 head ++ " " ++ rest ++ "\n"
  row i.name i.description
    ++ row "" ("IDs: " ++ ", ".intercalate i.sortedIds)
    ++ row "" ("CWEs: " ++ ", ".intercalate (i.sortedCwes.map fun n => "CWE-" ++ toString n))
    ++ "\n"

end CheckerInfo

structure Checker where
  info : CheckerInfo
  run : Session → CheckerRun

/-- A checker whose findings, or whose failure, are given beforehand. -/
def Checker.fixed (info : CheckerInfo) (findings : List Finding) (failure : Option String) : Checker where
  info := info
  run session :=
    { session := session
      result :=
        match failure with
        | some message => .error (.stopped message)
        | none => .ok (findings.map info.diagnostic) }

structure Registry where
  checkers : List Checker := []

namespace Registry

def get? (r : Registry) (name : String) : Option Checker :=
  r.checkers.find? fun c => c.info.name == name

/-- A checker takes the place of the one with its name, or goes last. -/
def register (r : Registry) (c : Checker) : Registry :=
  if (r.get? c.info.name).isSome then
    { checkers := r.checkers.map fun d => if d.info.name == c.info.name then c else d }
  else { checkers := r.checkers ++ [c] }

def names (r : Registry) : List String :=
  Text.sort (r.checkers.map fun c => c.info.name)

def listing (r : Registry) : String :=
  String.join ((r.names.filterMap r.get?).map fun c => c.info.listing)

end Registry

end SignFlow

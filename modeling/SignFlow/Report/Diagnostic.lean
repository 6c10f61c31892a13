import SignFlow.Number.Value
import SignFlow.Text.Json
import SignFlow.Text.Name

/-! Diagnostics: findings with a place, a severity and what speaks for them, and how they are written. -/

namespace SignFlow

inductive Severity
  | error
  | warning
  | style
  | performance
  | portability
  | information
  deriving DecidableEq, Repr

namespace Severity

def all : List Severity := [error, warning, style, performance, portability, information]

def name : Severity → String
  | error => "error"
  | warning => "warning"
  | style => "style"
  | performance => "performance"
  | portability => "portability"
  | information => "information"

def read (text : String) : Except Text.NameError Severity :=
  Text.member "DiagnosticSeverity" text (all.find? fun s => s.name == text)

end Severity

inductive Confidence
  | high
  | medium
  | low
  deriving DecidableEq, Repr

namespace Confidence

def name : Confidence → String
  | high => "HIGH"
  | medium => "MEDIUM"
  | low => "LOW"

def ofName? (text : String) : Option Confidence :=
  [high, medium, low].find? fun c => c.name == text

end Confidence

structure Location where
  file : String := ""
  line : Int := 0
  column : Int := 0
  deriving DecidableEq, Repr

def Location.display (l : Location) : String :=
  let place := l.file ++ ":" ++ toString l.line
  if l.column = 0 then place else place ++ ":" ++ toString l.column

structure Diagnostic where
  id : String
  message : String
  severity : Severity
  location : Location
  confidence : Confidence := .medium
  /-- The number of the weakness it is an instance of; zero for none. -/
  cwe : Int := 0
  checker : String := ""
  addon : String := "divzero"
  extra : String := ""
  evidence : List (String × Value) := []
  deriving Repr

namespace Diagnostic

/-- One line of JSON. -/
def toJson (d : Diagnostic) : String :=
  let fields := [
    ("file", Text.Json.string d.location.file),
    ("linenr", toString d.location.line),
    ("column", toString d.location.column),
    ("severity", Text.Json.string d.severity.name),
    ("message", Text.Json.string d.message),
    ("addon", Text.Json.string d.addon),
    ("errorId", Text.Json.string d.id),
    ("extra", Text.Json.string d.extra)]
  Text.Json.object (if d.cwe = 0 then fields else fields ++ [("cwe", toString d.cwe)])

/-- One line as compilers write it. -/
def toLine (d : Diagnostic) : String :=
  d.location.display ++ ": " ++ d.severity.name ++ ": " ++ d.message ++ " [" ++ d.id ++ "]"

end Diagnostic

end SignFlow

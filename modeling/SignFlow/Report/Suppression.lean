import SignFlow.Report.Diagnostic
import SignFlow.Text.Wildcard

/-! Suppressions: which diagnostics are not reported.

A suppression names a diagnostic's identifier or a star, and holds everywhere, in files that fit a
pattern, or at one line and the line below it. -/

namespace SignFlow

structure SuppressionNote where
  id : Option String := none
  file : Option String := none
  line : Value := .int 0

structure Suppressions where
  everywhere : List String := []
  /-- File patterns with identifiers. -/
  files : List (String × String) := []
  /-- Files and lines with identifiers. -/
  lines : List (String × Int × String) := []
  deriving Repr

namespace Suppressions

def addEverywhere (s : Suppressions) (id : String) : Suppressions :=
  { s with everywhere := s.everywhere ++ [id] }

def addFile (s : Suppressions) (id pattern : String) : Suppressions :=
  { s with files := s.files ++ [(pattern, id)] }

def addLine (s : Suppressions) (id file : String) (line : Int) : Suppressions :=
  { s with lines := s.lines ++ [(file, line, id)] }

/-- Adds a note: for a line if it has a file and a line, for a file if it has one, else for everything.
A note without an identifier says nothing. -/
def add (s : Suppressions) (n : SuppressionNote) : Except Fault Suppressions :=
  let id := n.id.getD ""
  let file := n.file.getD ""
  if id = "" then .ok s
  else if file = "" then .ok (s.addEverywhere id)
  else if n.line.isTrue then n.line.toInteger.map (s.addLine id file)
  else .ok (s.addFile id file)

/-- Adds notes up to the first whose line cannot be read; those before it stay. -/
def addAll (s : Suppressions) : List SuppressionNote → Suppressions × Except Fault Unit
  | [] => (s, .ok ())
  | n :: rest =>
    match s.add n with
    | .ok s => s.addAll rest
    | .error f => (s, .error f)

def names (id : String) (d : Diagnostic) : Bool := id == d.id || id == "*"

/-- The pattern is the file, the end of its name, or a wildcard that fits it. -/
def fits (pattern file : String) : Bool :=
  file.endsWith pattern || Wildcard.isMatch pattern file

def covers (s : Suppressions) (d : Diagnostic) : Bool :=
  s.everywhere.any (names · d)
    || s.lines.any (fun e => e.1 == d.location.file
      && (e.2.1 == d.location.line || e.2.1 == d.location.line - 1) && names e.2.2 d)
    || s.files.any (fun e => names e.2 d && fits e.1 d.location.file)

def filter (s : Suppressions) (ds : List Diagnostic) : List Diagnostic :=
  ds.filter fun d => !s.covers d

end Suppressions

end SignFlow

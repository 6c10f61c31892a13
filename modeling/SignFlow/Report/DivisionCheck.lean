import SignFlow.Report.Checker

/-! The checker for divisions by zero.

It is configured by options, collects the integral divisions whose divisor may be zero, and turns them
into diagnostics, one for each place. -/

namespace SignFlow

structure DivisionCheck where
  sites : List Site := []
  limit : Int := defaultLimit
  reportPossible : Bool := true
  diagnostics : List Diagnostic := []

namespace DivisionCheck

def info : CheckerInfo where
  name := "div-by-zero"
  title := "DivByZeroChecker"
  description := "Division/modulo by zero detection"
  errorIds := ["divByZero", "divByZeroPossible"]
  severity := .error
  cweIds := [("divByZero", 369), ("divByZeroPossible", 369)]

def configure (c : DivisionCheck) (options : List (String × Value)) : Except Fault DivisionCheck := do
  let limit ← (options.lookup "max_iterations").elim (pure c.limit) Value.toInteger
  let reportPossible := (options.lookup "report_possible").elim c.reportPossible Value.isTrue
  pure { c with limit := limit, reportPossible := reportPossible }

/-- The session's analysis, made now if it has none. -/
def analysed (c : DivisionCheck) (s : Session) : List String × Except Fault (List Analysis) :=
  match s.analyses with
  | some analyses => ([], .ok analyses)
  | none => s.program.analyse .rpo c.limit

def isSuspect (site : Site) : Bool := site.integral && site.divisor.mayBeZero

/-- Adds the suspect divisions of all functions; the session keeps the analysis. -/
def collect (c : DivisionCheck) (s : Session) : List String × Except Fault (DivisionCheck × Session) :=
  let r := c.analysed s
  (r.1, do
    let analyses ← r.2
    let found ← analyses.mapM Analysis.sites
    pure ({ c with sites := c.sites ++ found.flatten.filter isSuspect },
      { s with analyses := some analyses }))

def place (code : Code) (site : Site) : Location :=
  let t := code.token site.pos
  ⟨t.file, t.line, t.column⟩

def isDefinite (site : Site) : Bool := site.divisor == .zero

def finding (code : Code) (site : Site) : Finding :=
  let divisor := (code.tree (code.token site.pos).right).display
  let divides := site.operator == .divide
  { id := if isDefinite site then "divByZero" else "divByZeroPossible"
    message :=
      if isDefinite site then
        (if divides then "Division" else "Modulo") ++ " by zero: '" ++ divisor ++ "' is zero"
      else
        "Possible " ++ (if divides then "division" else "modulo") ++ " by zero: '" ++ divisor
          ++ "' may be zero"
    location := place code site
    severity := some (if isDefinite site then .error else .warning)
    confidence := if isDefinite site then .high else .medium
    evidence := [
      ("operator", .text (site.operator.symbol ++ if site.compound then "=" else "")),
      ("dividend", .text site.dividend.symbol),
      ("divisor", .text site.divisor.symbol)] }

/-- The sites that are first at their places. -/
def firstSites (code : Code) (seen : List Location) : List Site → List Site
  | [] => []
  | site :: rest =>
    let l := place code site
    if seen.contains l then firstSites code seen rest
    else site :: firstSites code (l :: seen) rest

/-- What the sites amount to: the first at each place decides, and one that is only possible counts if
those are wanted. -/
def findings (code : Code) (reportPossible : Bool) (sites : List Site) : List Finding :=
  ((firstSites code [] sites).filter fun s => isDefinite s || reportPossible).map (finding code)

def diagnose (c : DivisionCheck) (code : Code) : DivisionCheck :=
  { c with
    diagnostics :=
      c.diagnostics ++ (findings code c.reportPossible c.sites).map info.diagnostic }

def report (c : DivisionCheck) (s : Suppressions) : List Diagnostic := s.filter c.diagnostics

def run (s : Session) : CheckerRun :=
  match configure {} s.options with
  | .error f => { session := s, result := .error (.fault f) }
  | .ok c =>
    let r := c.collect s
    let log := r.1.map fun message => ⟨.warning, message⟩
    match r.2 with
    | .error f => { session := s, log := log, result := .error (.fault f) }
    | .ok (c, s) =>
      { session := s, log := log, result := .ok (c.diagnose s.program.code).diagnostics }

def checker : Checker := ⟨info, run⟩

end DivisionCheck

def Registry.standard : Registry := ⟨[DivisionCheck.checker]⟩

end SignFlow

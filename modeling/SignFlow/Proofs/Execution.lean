import SignFlow.Graph.Layout

/-! What a function body does, and what the paths of a graph show.

An execution is told by its events: the tokens it passes, how each condition came out, and the label
each switch went to. The statements that run are followed by what is left to do behind them, which is
also what `break`, `continue` and `goto` choose from. -/

namespace SignFlow

inductive Event
  | token (pos : Nat)
  | outcome (holds : Bool)
  /-- A switch went to a label, or to its default or behind itself. -/
  | chose (label : Option String)
  deriving DecidableEq, Repr

def Event.passing (tokens : List Nat) : List Event := tokens.map token

def EdgeKind.events (label : Option String) : EdgeKind → List Event
  | branchTrue => [.outcome true]
  | branchFalse => [.outcome false]
  | switchCase => [.chose label]
  | switchDefault => [.chose none]
  | _ => []

/-- The events along the paths of a graph from a block to the exit. -/
inductive Graph.Trace (g : Graph) : Nat → List Event → Prop
  | exit : g.Trace Graph.exit (Event.passing (g.block Graph.exit).tokens)
  | step {e : Edge} {t : List Event} (he : e ∈ g.edges) (ht : g.Trace e.dst t) :
    g.Trace e.src (Event.passing (g.block e.src).tokens ++ (e.kind.events e.label ++ t))

/-- What is left to do behind the statements that run. -/
inductive Kont
  | finish
  | after (rest : Stmts) (outer : Kont)
  /-- The condition comes next, then the loop's body or what follows the loop. -/
  | loop (test : List Nat) (inner rest : Stmts) (outer : Kont)
  | forTest (test step : List Nat) (inner rest : Stmts) (outer : Kont)
  | forStep (test step : List Nat) (inner rest : Stmts) (outer : Kont)
  /-- The arms of a switch that are still ahead. -/
  | arms (ahead : Arms) (rest : Stmts) (outer : Kont)

namespace Kont

def leave : Kont → Option Kont
  -- where `break` leads
  | finish => none
  | after _ outer => outer.leave
  | loop _ _ rest outer | forTest _ _ _ rest outer | forStep _ _ _ rest outer | arms _ rest outer =>
    some (after rest outer)

def next : Kont → Option Kont
  -- where `continue` leads
  | finish => none
  | after _ outer | arms _ _ outer => outer.next
  | loop test inner rest outer => some (loop test inner rest outer)
  | forTest test step inner rest outer | forStep test step inner rest outer =>
    some (forStep test step inner rest outer)

end Kont

mutual

/-- What is left to do from a label on, where the statements have it. -/
def Stmts.find (name : String) : Stmts → Kont → Option Kont
  | .done, _ | .ifOnly _, _ => none
  | .token _ rest, k | .returns _ rest, k | .leave _ rest, k | .next _ rest, k | .goto _ _ rest, k
  | .bareSwitch _ rest, k => rest.find name k
  | .label other rest, k => if other = name then some (.after rest k) else rest.find name k
  | .block inner rest, k | .ifThen _ inner rest, k =>
    (inner.find name (.after rest k)).or (rest.find name k)
  | .ifElse _ yes no rest, k =>
    ((yes.find name (.after rest k)).or (no.find name (.after rest k))).or (rest.find name k)
  | .whileDo test inner rest, k | .doWhile inner test rest, k =>
    (inner.find name (.loop test inner rest k)).or (rest.find name k)
  | .forDo _ test step inner rest, k =>
    (inner.find name (.forStep test step inner rest k)).or (rest.find name k)
  | .switch _ inside rest, k => (inside.find name rest k).or (rest.find name k)

def Arms.find (name : String) : Arms → Stmts → Kont → Option Kont
  | .done, _, _ => none
  | .caseOf _ ahead, rest, k | .default ahead, rest, k => ahead.find name rest k
  | .stmts inner ahead, rest, k =>
    (inner.find name (.arms ahead rest k)).or (ahead.find name rest k)

end

namespace Arms

def entries : Arms → List (Event × Arms)
  | done => []
  | caseOf label ahead => (.chose (some label), ahead) :: ahead.entries
  | default ahead => (.chose none, ahead) :: ahead.entries
  | stmts _ ahead => ahead.entries

def hasDefault : Arms → Bool
  | done => false
  | caseOf _ ahead | stmts _ ahead => ahead.hasDefault
  | default _ => true

end Arms

/-- The complete executions within a body that start with some statements and go on with what is left
to do. -/
inductive Stmts.Runs (body : Stmts) : Stmts → Kont → List Event → Prop
  | finish : body.Runs .done .finish []
  | after {rest k t} (h : body.Runs rest k t) : body.Runs .done (.after rest k) t
  | token {pos rest k t} (h : body.Runs rest k t) : body.Runs (.token pos rest) k (.token pos :: t)
  | label {name rest k t} (h : body.Runs rest k t) : body.Runs (.label name rest) k t
  | returns {tokens rest k} : body.Runs (.returns tokens rest) k (Event.passing tokens)
  | leave {pos rest k k' t} (hk : k.leave = some k') (h : body.Runs .done k' t) :
    body.Runs (.leave pos rest) k (.token pos :: t)
  | next {pos rest k k' t} (hk : k.next = some k') (h : body.Runs .done k' t) :
    body.Runs (.next pos rest) k (.token pos :: t)
  | goto {pos target rest k k' t} (hk : body.find target .finish = some k')
    (h : body.Runs .done k' t) : body.Runs (.goto pos target rest) k (.token pos :: t)
  | block {inner rest k t} (h : body.Runs inner (.after rest k) t) : body.Runs (.block inner rest) k t
  | ifThen {test yes rest k t} (h : body.Runs yes (.after rest k) t) :
    body.Runs (.ifThen test yes rest) k (Event.passing test ++ .outcome true :: t)
  | ifNot {test yes rest k t} (h : body.Runs rest k t) :
    body.Runs (.ifThen test yes rest) k (Event.passing test ++ .outcome false :: t)
  | ifElse {test yes no rest k t} (holds : Bool)
    (h : body.Runs (if holds then yes else no) (.after rest k) t) :
    body.Runs (.ifElse test yes no rest) k (Event.passing test ++ .outcome holds :: t)
  | whileDo {test inner rest k t} (h : body.Runs .done (.loop test inner rest k) t) :
    body.Runs (.whileDo test inner rest) k t
  | doWhile {test inner rest k t} (h : body.Runs inner (.loop test inner rest k) t) :
    body.Runs (.doWhile inner test rest) k t
  | loopAgain {test inner rest k t} (h : body.Runs inner (.loop test inner rest k) t) :
    body.Runs .done (.loop test inner rest k) (Event.passing test ++ .outcome true :: t)
  | loopEnd {test inner rest k t} (h : body.Runs rest k t) :
    body.Runs .done (.loop test inner rest k) (Event.passing test ++ .outcome false :: t)
  | forDo {init test step inner rest k t} (h : body.Runs .done (.forTest test step inner rest k) t) :
    body.Runs (.forDo init test step inner rest) k (Event.passing init ++ t)
  | forAgain {test step inner rest k t} (ht : test ≠ [])
    (h : body.Runs inner (.forStep test step inner rest k) t) :
    body.Runs .done (.forTest test step inner rest k) (Event.passing test ++ .outcome true :: t)
  | forEnd {test step inner rest k t} (ht : test ≠ []) (h : body.Runs rest k t) :
    body.Runs .done (.forTest test step inner rest k) (Event.passing test ++ .outcome false :: t)
  /-- Without a condition the loop always goes on, and shows nothing. -/
  | forEver {step inner rest k t} (h : body.Runs inner (.forStep [] step inner rest k) t) :
    body.Runs .done (.forTest [] step inner rest k) t
  | forStep {test step inner rest k t} (h : body.Runs .done (.forTest test step inner rest k) t) :
    body.Runs .done (.forStep test step inner rest k) (Event.passing step ++ t)
  | switch {test inside e ahead rest k t} (he : (e, ahead) ∈ inside.entries)
    (h : body.Runs .done (.arms ahead rest k) t) :
    body.Runs (.switch test inside rest) k (Event.passing test ++ e :: t)
  | switchPast {test inside rest k t} (hd : inside.hasDefault = false) (h : body.Runs rest k t) :
    body.Runs (.switch test inside rest) k (Event.passing test ++ .chose none :: t)
  | armsEnd {rest k t} (h : body.Runs rest k t) : body.Runs .done (.arms .done rest k) t
  | armsCase {label ahead rest k t} (h : body.Runs .done (.arms ahead rest k) t) :
    body.Runs .done (.arms (.caseOf label ahead) rest k) t
  | armsDefault {ahead rest k t} (h : body.Runs .done (.arms ahead rest k) t) :
    body.Runs .done (.arms (.default ahead) rest k) t
  | armsStmts {inner ahead rest k t} (h : body.Runs inner (.arms ahead rest k) t) :
    body.Runs .done (.arms (.stmts inner ahead) rest k) t

def Stmts.Executes (body : Stmts) (t : List Event) : Prop := body.Runs body .finish t

mutual

@[simp] def Stmts.labels : Stmts → List String
  | .done | .ifOnly _ => []
  | .token _ rest | .returns _ rest | .leave _ rest | .next _ rest | .goto _ _ rest
  | .bareSwitch _ rest => rest.labels
  | .label name rest => name :: rest.labels
  | .block inner rest | .ifThen _ inner rest | .whileDo _ inner rest | .doWhile inner _ rest
  | .forDo _ _ _ inner rest => inner.labels ++ rest.labels
  | .ifElse _ yes no rest => yes.labels ++ (no.labels ++ rest.labels)
  | .switch _ inside rest => inside.labels ++ rest.labels

@[simp] def Arms.labels : Arms → List String
  | .done => []
  | .caseOf _ ahead | .default ahead => ahead.labels
  | .stmts inner ahead => inner.labels ++ ahead.labels

end

mutual

/-- Every construct is whole, every `goto` names one of the labels, and `break` and `continue` stand
where they lead somewhere. -/
@[simp] def Stmts.placed (labels : List String) : Stmts → (leave next : Bool) → Bool
  | .done, _, _ => true
  | .ifOnly _, _, _ | .bareSwitch _ _, _, _ => false
  | .token _ rest, leave, next | .label _ rest, leave, next | .returns _ rest, leave, next =>
    rest.placed labels leave next
  | .leave _ rest, leave, next => leave && rest.placed labels leave next
  | .next _ rest, leave, next => next && rest.placed labels leave next
  | .goto _ target rest, leave, next => labels.contains target && rest.placed labels leave next
  | .block inner rest, leave, next | .ifThen _ inner rest, leave, next =>
    inner.placed labels leave next && rest.placed labels leave next
  | .ifElse _ yes no rest, leave, next =>
    yes.placed labels leave next && no.placed labels leave next && rest.placed labels leave next
  | .whileDo _ inner rest, leave, next | .doWhile inner _ rest, leave, next
  | .forDo _ _ _ inner rest, leave, next =>
    inner.placed labels true true && rest.placed labels leave next
  | .switch _ inside rest, leave, next =>
    inside.placed labels next && rest.placed labels leave next

@[simp] def Arms.placed (labels : List String) : Arms → (next : Bool) → Bool
  | .done, _ => true
  | .caseOf _ ahead, next | .default ahead, next => ahead.placed labels next
  | .stmts inner ahead, next => inner.placed labels true next && ahead.placed labels next

end

structure Stmts.Proper (body : Stmts) : Prop where
  nodup : body.labels.Nodup
  placed : body.placed body.labels false false = true

end SignFlow

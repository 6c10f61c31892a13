import SignFlow.Dataflow.Domain
import SignFlow.Graph.Search

/-! Forward data-flow problems and their solution by a worklist.

A problem gives every block a transfer and every edge one of its own. The facts before a block join what
its incoming edges carry; the facts after it are its transfer of those. `solve` visits blocks from a
worklist until it is empty or the number of visits reaches the limit. A transfer may have effects, such
as failing, which the solution has too. -/

namespace SignFlow

inductive Strategy
  | fifo
  | lifo
  | rpo
  deriving DecidableEq, Repr

namespace Strategy

def all : List Strategy := [fifo, lifo, rpo]

def name : Strategy → String
  | fifo => "fifo"
  | lifo => "lifo"
  | rpo => "rpo"

def read (text : String) : Except Text.NameError Strategy :=
  Text.member "WorklistStrategy" text (all.find? fun s => s.name == text)

def start (strategy : Strategy) (g : Graph) : List Nat :=
  match strategy with
  | rpo => g.reversePostorder
  | _ => [Graph.entry]

def add (strategy : Strategy) (worklist : List Nat) (n : Nat) : List Nat :=
  if worklist.contains n then worklist
  else
    match strategy with
    | lifo => n :: worklist
    | _ => worklist ++ [n]

end Strategy

structure Problem (m : Type → Type) (α : Type) where
  graph : Graph
  domain : Domain α
  transfer : Nat → α → m α
  along : Edge → α → m α
  initial : α

/-- Facts before and after every block, and the visits that led to them, in order. -/
structure Solution (α : Type) where
  inputs : List α
  outputs : List α
  visits : List Nat
  converged : Bool
  deriving Repr

def Solution.iterations {α : Type} (s : Solution α) : Nat := s.visits.length

/-- The state between two visits; `visits` has the last one first. -/
structure Progress (α : Type) where
  inputs : List α
  outputs : List α
  worklist : List Nat
  visits : List Nat := []

namespace Problem

variable {m : Type → Type} [Monad m] {α : Type}

/-- What the edges into a block carry to it, with the initial fact at the entry. An edge from a block
without facts carries nothing. -/
@[specialize]
def incoming (p : Problem m α) (outputs : List α) (n : Nat) : m α :=
  (p.graph.entering n).foldlM
    (fun acc e =>
      let fact := outputs.getD e.src p.domain.bottom
      if p.domain.isBottom fact then pure acc
      else do
        let carried ← p.along e fact
        pure (p.domain.join acc carried))
    (if n == Graph.entry then p.initial else p.domain.bottom)

/-- Takes blocks off the worklist up to the first whose input is new; the entry's first visit is always
due. Gives that block, its input, and the worklist behind it. -/
@[specialize]
def nextVisit (p : Problem m α) (s : Progress α) : List Nat → m (Option (Nat × α × List Nat))
  | [] => pure none
  | n :: rest => do
    let merged ← p.incoming s.outputs n
    if p.domain.eq merged (s.inputs.getD n p.domain.bottom)
        && !(n == Graph.entry && s.visits.isEmpty) then
      p.nextVisit s rest
    else pure (some (n, merged, rest))

@[specialize]
def run (p : Problem m α) (strategy : Strategy) : Nat → Progress α → m (Progress α)
  | 0, s => pure s
  | limit + 1, s => do
    match ← p.nextVisit s s.worklist with
    | none => pure { s with worklist := [] }
    | some (n, merged, rest) =>
      let out ← p.transfer n merged
      p.run strategy limit {
        inputs := s.inputs.set n merged
        outputs := s.outputs.set n out
        worklist := (p.graph.successors n).foldl strategy.add rest
        visits := n :: s.visits }

@[specialize]
def solve (p : Problem m α) (strategy : Strategy) (limit : Int) : m (Solution α) := do
  let blank := p.graph.blocks.map fun _ => p.domain.bottom
  let s ← p.run strategy limit.toNat
    { inputs := blank, outputs := blank, worklist := strategy.start p.graph }
  pure {
    inputs := s.inputs
    outputs := s.outputs
    visits := s.visits.reverse
    converged := s.worklist.isEmpty }

/-- The facts solve the problem's equations: inputs are what the edges carry, and outputs of blocks with
facts are their transfers. -/
@[specialize]
def verify (p : Problem m α) (s : Solution α) : m Bool :=
  p.graph.positions.allM fun n => do
    let merged ← p.incoming s.outputs n
    if !p.domain.eq merged (s.inputs.getD n p.domain.bottom) then pure false
    else if p.domain.isBottom merged then pure true
    else do
      let out ← p.transfer n merged
      pure (p.domain.eq out (s.outputs.getD n p.domain.bottom))

end Problem

def Domain.isMonotoneOn {m : Type → Type} [Monad m] {α : Type} (D : Domain α) (transfer : α → m α)
    (samples : List α) : m Bool :=
  samples.allM fun a => samples.allM fun b =>
    if D.le a b then do
      let fa ← transfer a
      let fb ← transfer b
      pure (D.le fa fb)
    else pure true

def Graph.limitWarning (shown : String) (iterations : Nat) : String :=
  "Dataflow did not converge after " ++ toString iterations ++ " iterations (" ++ shown ++ ")"

end SignFlow

import SignFlow.Analysis.Transfer
import SignFlow.Dataflow.Solver
import SignFlow.Graph.Display
import SignFlow.Graph.Program

/-! The analysis of whole functions: stores at every block, and the divisions met on the way. -/

namespace SignFlow

/-- The limit on visits to blocks where none is given. -/
def defaultLimit : Int := 100000

structure Analysis where
  code : Code
  graph : Graph
  solution : Solution Store

namespace Analysis

def problem (c : Code) (g : Graph) : Problem (Except Fault) Store where
  graph := g
  domain := Store.domain
  transfer n s := c.transfer (g.block n) s
  along := c.along g
  initial := .empty

def ofGraph (c : Code) (strategy : Strategy) (limit : Int) (g : Graph) : Except Fault Analysis := do
  let solution ← (problem c g).solve strategy limit
  pure ⟨c, g, solution⟩

def before (a : Analysis) (n : Nat) : Store := a.solution.inputs.getD n .unreachable

def after (a : Analysis) (n : Nat) : Store := a.solution.outputs.getD n .unreachable

/-- Every division in blocks that can be reached, as evaluated on the final stores. -/
def sites (a : Analysis) : Except Fault (List Site) := do
  let found ← a.graph.positions.mapM fun n =>
    let r := a.code.runBlock (a.graph.block n).tokens (a.before n)
    r.value.map fun _ => r.sites
  pure found.flatten

def warnings (a : Analysis) : List String :=
  if a.solution.converged then []
  else [Graph.limitWarning a.graph.display a.solution.iterations]

/-- Analyses graphs one after the other up to the first fault, with the warnings on the way. -/
def ofGraphs (c : Code) (strategy : Strategy) (limit : Int) :
    List Graph → List String × Except Fault (List Analysis)
  | [] => ([], .ok [])
  | g :: rest =>
    match ofGraph c strategy limit g with
    | .error f => ([], .error f)
    | .ok a =>
      let r := ofGraphs c strategy limit rest
      (a.warnings ++ r.1, r.2.map (a :: ·))

end Analysis

def Program.analyse (p : Program) (strategy : Strategy := .rpo) (limit : Int := defaultLimit) :
    List String × Except Fault (List Analysis) :=
  Analysis.ofGraphs p.code strategy limit p.graphs

end SignFlow

import SignFlow.Analysis.Conversion
import SignFlow.Analysis.Evaluate
import SignFlow.Analysis.Function
import SignFlow.Analysis.Transfer
import SignFlow.Analysis.Walk
import SignFlow.Command.Arguments
import SignFlow.Command.Run
import SignFlow.Dataflow.Domain
import SignFlow.Dataflow.IntSet
import SignFlow.Dataflow.Solver
import SignFlow.Graph.Basic
import SignFlow.Graph.Display
import SignFlow.Graph.Layout
import SignFlow.Graph.Program
import SignFlow.Graph.Search
import SignFlow.Main
import SignFlow.Number.Basic
import SignFlow.Number.Binary64
import SignFlow.Number.Fault
import SignFlow.Number.Integer
import SignFlow.Number.Real
import SignFlow.Number.Value
import SignFlow.Proofs.Fixpoint
import SignFlow.Proofs.Reach
import SignFlow.Proofs.Worklist
import SignFlow.Report.Checker
import SignFlow.Report.Diagnostic
import SignFlow.Report.DivisionCheck
import SignFlow.Report.Runner
import SignFlow.Report.Suppression
import SignFlow.Sign.Basic
import SignFlow.Sign.Comparison
import SignFlow.Sign.Names
import SignFlow.Sign.Operator
import SignFlow.Store.Basic
import SignFlow.Store.Facts
import SignFlow.Store.Key
import SignFlow.Store.Refine
import SignFlow.Syntax.Expr
import SignFlow.Syntax.Literal
import SignFlow.Syntax.Scan
import SignFlow.Syntax.Stmts
import SignFlow.Syntax.Token
import SignFlow.Syntax.ValueType
import SignFlow.Text.Blank
import SignFlow.Text.Digit
import SignFlow.Text.Hex
import SignFlow.Text.Json
import SignFlow.Text.Lines
import SignFlow.Text.Name
import SignFlow.Text.Order
import SignFlow.Text.Printable
import SignFlow.Text.Quoted
import SignFlow.Text.Range
import SignFlow.Text.Wildcard
import SignFlow.Proofs.LeastSolution
import SignFlow.Proofs.Covers
import SignFlow.Proofs.Decimal
import SignFlow.Proofs.Term
import SignFlow.Proofs.Faults
import SignFlow.Proofs.Accounts
import SignFlow.Proofs.Evaluation
import SignFlow.Proofs.Traps
import SignFlow.Proofs.Execution
import SignFlow.Proofs.Construction
import SignFlow.Proofs.Shape
import SignFlow.Proofs.Walks
import SignFlow.Proofs.Laying
import SignFlow.Proofs.LayoutShape
import SignFlow.Proofs.Paths
import SignFlow.Proofs.Grammar
import SignFlow.Proofs.Reading
import SignFlow.Proofs.ControlFlow
import SignFlow.Proofs.StoreOrder
import SignFlow.Proofs.Convergence
import SignFlow.Proofs.Soundness
import SignFlow.Proofs.Outline
import SignFlow.Proofs.Observation
import SignFlow.Proofs.Liveness
import SignFlow.Proofs.Below
import SignFlow.Proofs.Monotonicity
import SignFlow.Proofs.Decisions
import SignFlow.Proofs.Branching
import SignFlow.Proofs.Representation
import SignFlow.Proofs.Bounds
import SignFlow.Proofs.DeadCode
import SignFlow.Proofs.WellFormed
import SignFlow.Proofs.Placement
import SignFlow.Proofs.Straight
import SignFlow.Proofs.Coverage
import SignFlow.Proofs.Configurations
import SignFlow.Proofs.Refinement
import SignFlow.Proofs.Outcomes
import SignFlow.Proofs.Progress
import SignFlow.Proofs.StatementEnds
import SignFlow.Proofs.Places
import SignFlow.Proofs.NotedOnce
import SignFlow.Proofs.Frame
import SignFlow.Proofs.FixedWidth
import SignFlow.Proofs.MixedSigns
import SignFlow.Proofs.Dominance
import SignFlow.Proofs.Loops
import SignFlow.Proofs.Postorder
import SignFlow.Proofs.Sweep
import SignFlow.Proofs.Numerals
import SignFlow.Proofs.Names
import SignFlow.Proofs.Constants
import SignFlow.Proofs.Precision
import SignFlow.Proofs.Chains
import SignFlow.Proofs.StackSearch
import SignFlow.Proofs.Merging

import SignFlow.Graph.Basic
import SignFlow.Syntax.Token

/-! How graphs, blocks and edges are written: one-line forms, a summary, and a drawing. -/

namespace SignFlow

/-- A block by its first six tokens and where the first one stands, or by its kind if it has none. -/
def Code.blockLabel (c : Code) (b : Block) : String :=
  match b.tokens with
  | [] => "[" ++ b.kind.name ++ "]"
  | first :: _ =>
    let t := c.token first
    let shown := " ".intercalate ((b.tokens.take 6).map c.text)
      ++ if 6 < b.tokens.length then " …" else ""
    if t.file ≠ "" ∧ t.line ≠ 0 then t.file ++ ":" ++ toString t.line ++ " " ++ shown else shown

namespace Graph

def named (g : Graph) : String :=
  match g.function with
  | none | some "" => "<unknown>"
  | some name => name

def display (g : Graph) : String :=
  "CFG(function=" ++ Text.quoted g.named ++ ", nodes=" ++ toString g.size ++ ", edges="
    ++ toString g.edges.length ++ ")"

def tag (g : Graph) (n : Nat) : String := "BB" ++ toString (g.idOf n)

def displayBlock (g : Graph) (n : Nat) : String :=
  let b := g.block n
  "CFGNode(id=" ++ toString (g.idOf n) ++ ", kind=" ++ Text.quoted b.kind.name ++ ", ntokens="
    ++ toString b.tokens.length ++ ")"

def displayEdge (g : Graph) (e : Edge) : String :=
  "CFGEdge(" ++ g.tag e.src ++ " -> " ++ g.tag e.dst ++ ", kind=" ++ Text.quoted e.kind.name ++ ")"

def summaryLine (g : Graph) (n : Nat) : String :=
  let b := g.block n
  let out := (g.leaving n).map fun e => g.tag e.dst ++ "(" ++ e.kind.name ++ ")"
  let back := (g.entering n).map fun e => g.tag e.src
  "  " ++ g.tag n ++ " [" ++ b.kind.name ++ "] tokens=" ++ toString b.tokens.length ++ "  succ=["
    ++ ", ".intercalate out ++ "]  pred=[" ++ ", ".intercalate back ++ "]"

def summary (g : Graph) : String :=
  "\n".intercalate (g.display :: g.positions.map g.summaryLine)

/-- Quotes and line ends as a drawing's strings write them. -/
def escapeDot (text : String) : String :=
  String.ofList (text.toList.flatMap fun c =>
    if c = '\x22' then ['\x5c', c] else if c = '\n' then ['\x5c', 'n'] else [c])

def blockStyle : BlockKind → String
  | .entry => ", style=filled, fillcolor=\"#ccffcc\""
  | .exit => ", style=filled, fillcolor=\"#ffcccc\""
  | _ => ""

def edgeStyle : EdgeKind → String
  | .branchTrue => ", color=green, fontcolor=green"
  | .branchFalse => ", color=red, fontcolor=red"
  | .backEdge => ", style=dashed, color=blue, fontcolor=blue"
  | .leaveLoop | .continueLoop => ", style=dotted"
  | _ => ""

def dotBlock (g : Graph) (label : Nat → String) (notes : List (Nat × String)) (n : Nat) : String :=
  let noted :=
    match notes.lookup n with
    | some note => label n ++ "\n" ++ note
    | none => label n
  "  " ++ g.tag n ++ " [label=\"" ++ g.tag n ++ "\\n" ++ escapeDot noted ++ "\""
    ++ blockStyle (g.block n).kind ++ "];"

def dotEdge (g : Graph) (e : Edge) : String :=
  let label :=
    match e.label with
    | none | some "" => e.kind.name
    | some text => e.kind.name ++ ": " ++ text
  "  " ++ g.tag e.src ++ " -> " ++ g.tag e.dst ++ " [label=\"" ++ label ++ "\"" ++ edgeStyle e.kind
    ++ "];"

/-- The graph in the DOT language. Blocks are drawn with their labels and any notes on them. -/
def dot (g : Graph) (label : Nat → String) (title : Option String) (notes : List (Nat × String)) :
    String :=
  let titled :=
    match title with
    | none | some "" => []
    | some text => ["  label=\"" ++ text ++ "\";"]
  "\n".intercalate (["digraph CFG \x7b"] ++ titled
    ++ ["  node [shape=box, fontname=monospace, fontsize=10];"]
    ++ g.positions.map (g.dotBlock label notes) ++ g.edges.map g.dotEdge ++ ["\x7d"])

end Graph

end SignFlow

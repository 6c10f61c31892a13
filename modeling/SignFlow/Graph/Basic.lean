import SignFlow.Text.Name

/-! Control-flow graphs.

A graph is a list of blocks and a list of edges between their positions. Block 0 is the entry, block 1
the exit. The numbers that output shows for blocks start at `firstId`. -/

namespace SignFlow

inductive EdgeKind
  | fallThrough
  | branchTrue
  | branchFalse
  | backEdge
  | leaveLoop
  | continueLoop
  | returns
  | goto
  | switchCase
  | switchDefault
  deriving DecidableEq, Repr

namespace EdgeKind

def all : List EdgeKind :=
  [fallThrough, branchTrue, branchFalse, backEdge, leaveLoop, continueLoop, returns, goto, switchCase,
    switchDefault]

def name : EdgeKind → String
  | fallThrough => "fall-through"
  | branchTrue => "branch-true"
  | branchFalse => "branch-false"
  | backEdge => "back-edge"
  | leaveLoop => "break"
  | continueLoop => "continue"
  | returns => "return"
  | goto => "goto"
  | switchCase => "switch-case"
  | switchDefault => "switch-default"

def read (text : String) : Except Text.NameError EdgeKind :=
  Text.member "EdgeKind" text (all.find? fun k => k.name == text)

end EdgeKind

inductive BlockKind
  | entry
  | exit
  | body
  | ifCond
  | ifTrue
  | ifFalse
  | ifMerge
  | loopCond
  | loopBody
  | whileAfter
  | forInit
  | forStep
  | forAfter
  | doAfter
  | dispatch
  | switchAfter
  | caseLabel
  | defaultLabel
  | label
  | returns
  | unreachable
  | other (name : String)
  deriving DecidableEq, Repr

namespace BlockKind

def name : BlockKind → String
  | entry => "entry"
  | exit => "exit"
  | body => "body"
  | ifCond => "if-cond"
  | ifTrue => "if-true"
  | ifFalse => "if-false"
  | ifMerge => "if-merge"
  | loopCond => "loop-cond"
  | loopBody => "loop-body"
  | whileAfter => "while-after"
  | forInit => "for-init"
  | forStep => "for-incr"
  | forAfter => "for-after"
  | doAfter => "do-while-after"
  | dispatch => "switch-dispatch"
  | switchAfter => "switch-after"
  | caseLabel => "case"
  | defaultLabel => "default"
  | label => "label"
  | returns => "return"
  | unreachable => "unreachable"
  | other name => name

def named : List BlockKind :=
  [entry, exit, body, ifCond, ifTrue, ifFalse, ifMerge, loopCond, loopBody, whileAfter, forInit,
    forStep, forAfter, doAfter, dispatch, switchAfter, caseLabel, defaultLabel, label, returns,
    unreachable]

def ofName (text : String) : BlockKind :=
  (named.find? fun k => k.name == text).getD (other text)

/-- Control leaves the block by the value of an expression. -/
def isCondition : BlockKind → Bool
  | ifCond | loopCond | dispatch => true
  | _ => false

/-- Several ways meet at the block's start. -/
def isJoin : BlockKind → Bool
  | ifMerge | whileAfter | forAfter | doAfter | switchAfter | label | caseLabel | defaultLabel => true
  | _ => false

end BlockKind

structure Block where
  kind : BlockKind
  /-- Positions of the block's tokens, in the order of the program text. -/
  tokens : List Nat := []
  deriving DecidableEq, Repr

structure Edge where
  src : Nat
  dst : Nat
  kind : EdgeKind := .fallThrough
  label : Option String := none
  deriving DecidableEq, Repr

/-- Labels do not tell edges apart. -/
def Edge.same (a b : Edge) : Bool :=
  a.src == b.src && a.dst == b.dst && a.kind == b.kind

structure Graph where
  function : Option String := none
  firstId : Nat := 0
  blocks : List Block := [⟨.entry, []⟩, ⟨.exit, []⟩]
  edges : List Edge := []
  deriving Repr

namespace Graph

def entry : Nat := 0

def exit : Nat := 1

def size (g : Graph) : Nat := g.blocks.length

def positions (g : Graph) : List Nat := List.range g.size

/-- The number output shows for a block. -/
def idOf (g : Graph) (n : Nat) : Nat := g.firstId + n

def block (g : Graph) (n : Nat) : Block := g.blocks.getD n ⟨.unreachable, []⟩

def addBlock (g : Graph) (b : Block) : Graph := { g with blocks := g.blocks ++ [b] }

def addEdge (g : Graph) (e : Edge) : Graph := { g with edges := g.edges ++ [e] }

/-- The edges, without those that are the same as an earlier one. -/
def distinctEdges (g : Graph) : List Edge :=
  g.edges.foldl (fun found e => if found.any e.same then found else found ++ [e]) []

def leaving (g : Graph) (n : Nat) : List Edge := g.edges.filter fun e => e.src == n

def entering (g : Graph) (n : Nat) : List Edge := g.edges.filter fun e => e.dst == n

def successors (g : Graph) (n : Nat) : List Nat := (g.leaving n).map Edge.dst

def predecessors (g : Graph) (n : Nat) : List Nat := (g.entering n).map Edge.src

end Graph

end SignFlow

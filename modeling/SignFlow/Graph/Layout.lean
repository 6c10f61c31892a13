import SignFlow.Graph.Basic
import SignFlow.Syntax.Stmts

/-! The graph of a statement sequence.

Statements are laid out in order from a current block, which is missing where control cannot arrive.
Jumps to labels wait until all labels are known. -/

namespace SignFlow

structure Layout where
  graph : Graph
  labels : List (String × Nat) := []
  gotos : List (Nat × String) := []
  deriving Repr

/-- Where `break` and `continue` lead; outside of loops they lead to the exit. -/
structure Targets where
  leave : Option Nat := none
  next : Option Nat := none
  deriving Repr

namespace Layout

def fresh (kind : BlockKind) : StateM Layout Nat :=
  modifyGet fun l => (l.graph.size, { l with graph := l.graph.addBlock ⟨kind, []⟩ })

def connect (src dst : Nat) (kind : EdgeKind := .fallThrough) (label : Option String := none) :
    StateM Layout Unit :=
  modify fun l => { l with graph := l.graph.addEdge ⟨src, dst, kind, label⟩ }

def connectFrom (src : Option Nat) (dst : Nat) (kind : EdgeKind := .fallThrough) :
    StateM Layout Unit :=
  match src with
  | some b => connect b dst kind
  | none => pure ()

def onBlock (n : Nat) (f : Block → Block) : StateM Layout Unit :=
  modify fun l => { l with graph := { l.graph with blocks := l.graph.blocks.modify n f } }

def append (n : Nat) (tokens : List Nat) : StateM Layout Unit :=
  onBlock n fun b => { b with tokens := b.tokens ++ tokens }

/-- The current block, or a new one that control cannot reach. -/
def here (current : Option Nat) : StateM Layout Nat :=
  match current with
  | some b => pure b
  | none => fresh .unreachable

/-- The block a return goes into: not one where several ways meet. -/
def returnBlock (current : Option Nat) : StateM Layout Nat := do
  match current with
  | none => fresh .unreachable
  | some b =>
    if ((← get).graph.block b).kind.isJoin then
      let r ← fresh .returns
      connect b r
      pure r
    else pure b

def jump (current : Option Nat) (pos : Nat) (target : Option Nat) (kind : EdgeKind) :
    StateM Layout Unit :=
  match current with
  | some b => do
    append b [pos]
    connect b (target.getD Graph.exit) kind
  | none => pure ()

def blockAfter (current : Option Nat) (kind : BlockKind) (tokens : List Nat := []) :
    StateM Layout Nat := do
  let b ← fresh kind
  connectFrom current b
  append b tokens
  pure b

def setLabel (name : String) (b : Nat) : StateM Layout Unit :=
  modify fun l => { l with labels := (name, b) :: l.labels }

def pend (b : Nat) (target : String) : StateM Layout Unit :=
  modify fun l => { l with gotos := l.gotos ++ [(b, target)] }

mutual

/-- Lays out statements from the current block and gives the block control ends in, if any. -/
def stmts : Stmts → Option Nat → Targets → StateM Layout (Option Nat)
  | .done, current, _ => pure current
  | .token pos rest, current, targets => do
    let b ← here current
    append b [pos]
    stmts rest (some b) targets
  | .label name rest, current, targets => do
    let b ← blockAfter current .label
    setLabel name b
    stmts rest (some b) targets
  | .returns tokens rest, current, targets => do
    let b ← returnBlock current
    append b tokens
    onBlock b fun block => { block with kind := .returns }
    connect b Graph.exit .returns
    stmts rest none targets
  | .leave pos rest, current, targets => do
    jump current pos targets.leave .leaveLoop
    stmts rest none targets
  | .next pos rest, current, targets => do
    jump current pos targets.next .continueLoop
    stmts rest none targets
  | .goto pos target rest, current, targets => do
    match current with
    | some b => append b [pos]; pend b target
    | none => pure ()
    stmts rest none targets
  | .block inner rest, current, targets => do
    let after ← stmts inner current targets
    stmts rest after targets
  | .ifOnly test, current, _ => do
    let _ ← blockAfter current .ifCond test
    pure none
  | .ifThen test yes rest, current, targets => do
    let cond ← blockAfter current .ifCond test
    let yesBlock ← fresh .ifTrue
    connect cond yesBlock .branchTrue
    let yesEnd ← stmts yes (some yesBlock) targets
    let merge ← fresh .ifMerge
    connect cond merge .branchFalse
    connectFrom yesEnd merge
    stmts rest (some merge) targets
  | .ifElse test yes no rest, current, targets => do
    let cond ← blockAfter current .ifCond test
    let yesBlock ← fresh .ifTrue
    connect cond yesBlock .branchTrue
    let yesEnd ← stmts yes (some yesBlock) targets
    let noBlock ← fresh .ifFalse
    connect cond noBlock .branchFalse
    let noEnd ← stmts no (some noBlock) targets
    let merge ← fresh .ifMerge
    connectFrom yesEnd merge
    connectFrom noEnd merge
    stmts rest (if yesEnd.isNone && noEnd.isNone then none else some merge) targets
  | .whileDo test inner rest, current, targets => do
    let cond ← blockAfter current .loopCond test
    let after ← fresh .whileAfter
    let body ← fresh .loopBody
    connect cond body .branchTrue
    connect cond after .branchFalse
    let bodyEnd ← stmts inner (some body) ⟨some after, some cond⟩
    connectFrom bodyEnd cond .backEdge
    stmts rest (some after) targets
  | .doWhile inner test rest, current, targets => do
    let body ← blockAfter current .loopBody
    let cond ← fresh .loopCond
    let after ← fresh .doAfter
    let bodyEnd ← stmts inner (some body) ⟨some after, some cond⟩
    connectFrom bodyEnd cond
    append cond test
    connect cond body .branchTrue
    connect cond after .branchFalse
    stmts rest (some after) targets
  | .forDo init test step inner rest, current, targets => do
    let start ← blockAfter current .forInit init
    let cond ← blockAfter (some start) .loopCond test
    let advance ← blockAfter none .forStep step
    let after ← fresh .forAfter
    let body ← fresh .loopBody
    if test.isEmpty then connect cond body
    else
      connect cond body .branchTrue
      connect cond after .branchFalse
    let bodyEnd ← stmts inner (some body) ⟨some after, some advance⟩
    connectFrom bodyEnd advance
    connect advance cond .backEdge
    stmts rest (some after) targets
  | .switch test inside rest, current, targets => do
    let dispatch ← blockAfter current .dispatch test
    let after ← fresh .switchAfter
    let (last, hasDefault) ← arms inside dispatch none false ⟨some after, targets.next⟩
    connectFrom last after
    unless hasDefault do connect dispatch after .switchDefault
    stmts rest (some after) targets
  | .bareSwitch test rest, current, targets => do
    let dispatch ← blockAfter current .dispatch test
    let after ← fresh .switchAfter
    connect dispatch after .switchDefault
    stmts rest (some after) targets

/-- Lays out the inside of a switch; gives the block control ends in, and whether a default label was
met. -/
def arms : Arms → Nat → Option Nat → Bool → Targets → StateM Layout (Option Nat × Bool)
  | .done, _, current, hasDefault, _ => pure (current, hasDefault)
  | .caseOf label rest, dispatch, current, hasDefault, targets => do
    let b ← fresh .caseLabel
    connect dispatch b .switchCase (some label)
    connectFrom current b
    arms rest dispatch (some b) hasDefault targets
  | .default rest, dispatch, current, _, targets => do
    let b ← fresh .defaultLabel
    connect dispatch b .switchDefault
    connectFrom current b
    arms rest dispatch (some b) true targets
  | .stmts inner rest, dispatch, current, hasDefault, targets => do
    let b ← here current
    let after ← stmts inner (some b) targets
    arms rest dispatch after hasDefault targets

end

/-- Connects the waiting jumps; a label that is nowhere leads to the exit. -/
def resolve (l : Layout) : Graph :=
  l.gotos.foldl
    (fun g jump => g.addEdge ⟨jump.1, (l.labels.lookup jump.2).getD Graph.exit, .goto, none⟩) l.graph

def body (inner : Stmts) : StateM Layout Unit := do
  let first ← fresh .body
  connect Graph.entry first
  let last ← stmts inner (some first) {}
  connectFrom last Graph.exit

end Layout

def Stmts.graph (inner : Stmts) (function : Option String) (firstId : Nat) : Graph :=
  let start : Layout := { graph := { function := function, firstId := firstId } }
  ((Layout.body inner).run start).2.resolve

end SignFlow

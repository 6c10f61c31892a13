import SignFlow.Analysis.Evaluate
import SignFlow.Graph.Basic

/-! How blocks and edges of a graph change a store. -/

namespace SignFlow.Code

def roots (c : Code) (tokens : List Nat) : List Nat :=
  tokens.filter fun i => (c.token i).parent.all fun p => !tokens.contains p

/-- A statement by its top token. Punctuation does nothing; a declaration's name leaves its variable
free. -/
def statement (c : Code) (root : Nat) : Walk Unit := do
  let t := c.token root
  if [";", "\x7b", "\x7d"].contains t.text then pure ()
  else if t.declaredAt == some root && t.parent.isNone then
    match t.variableKey with
    | some k => Walk.change (·.forget k)
    | none => pure ()
  else do
    let _ ← (c.tree (some root)).eval

def statements (c : Code) (tokens : List Nat) : Walk Unit :=
  (c.roots tokens).forM c.statement

def runBlock (c : Code) (tokens : List Nat) (s : Store) : Outcome Unit :=
  if s.isReachable then c.statements tokens s else { value := .ok (), store := s }

def transfer (c : Code) (b : Block) (s : Store) : Except Fault Store :=
  let r := c.runBlock b.tokens s
  r.value.map fun _ => r.store

/-- The expression a condition block decides by: its first root with operands, else its first root that
is no bracket. -/
def conditionRoot (c : Code) (tokens : List Nat) : Option Nat :=
  let roots := (c.roots tokens).filter fun i => !([";", ")"].contains (c.text i))
  (roots.find? fun i => (c.token i).left.isSome || (c.token i).right.isSome).orElse fun _ =>
    roots.find? fun i => c.text i != "("

def otherwise (e : Expr) (cases : List Edge) (s : Store) : Except Fault Store :=
  -- where no case applies, the selector differs from every case that is zero
  cases.foldlM
    (fun s edge => do
      let value ← Literal.sign (edge.label.getD "")
      if value = .zero then e.compareWith .ne value s else pure s)
    s

def along (c : Code) (g : Graph) (edge : Edge) (s : Store) : Except Fault Store :=
  if !s.isReachable then pure s
  else
    match c.conditionRoot (g.block edge.src).tokens with
    | none => pure s
    | some root =>
      let e := c.tree (some root)
      match edge.kind with
      | .branchTrue => e.assume true s
      | .branchFalse => e.assume false s
      | .switchCase => do
        let value ← Literal.sign (edge.label.getD "")
        match Fact.fit (some value) e.type? with
        | some v => e.compareWith .eq v s
        | none => pure s
      | .switchDefault =>
        otherwise e ((g.leaving edge.src).filter fun sibling => sibling.kind == .switchCase) s
      | _ => pure s

end SignFlow.Code

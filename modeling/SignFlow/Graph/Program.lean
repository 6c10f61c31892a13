import SignFlow.Graph.Layout

/-! Programs: a text with its functions and scopes, and the graphs of the functions. -/

namespace SignFlow

structure Function where
  name : Option String
  id : Option String
  deriving Repr

structure Scope where
  isFunction : Bool
  className : Option String := some ""
  /-- The position of the function whose body this is. -/
  function : Option Nat := none
  functionId : Option String := none
  bodyStart : Option Nat := none
  bodyEnd : Option Nat := none
  deriving Repr

structure Program where
  code : Code := ⟨#[]⟩
  functions : List Function := []
  scopes : List Scope := []
  deriving Repr

namespace Program

/-- The scope of a function: one that refers to it, else one that has its name and number. -/
def scopeOf (p : Program) (k : Nat) (f : Function) : Option Scope :=
  let bodies := p.scopes.filter Scope.isFunction
  (bodies.find? fun s => s.function == some k).orElse fun _ =>
    bodies.find? fun s => s.className == f.name && s.functionId == f.id

/-- The graph of a scope; without both ends of its body, control just passes through. -/
def graphOf (p : Program) (name : Option String) (s : Scope) (firstId : Nat) : Graph :=
  match s.bodyStart, s.bodyEnd with
  | some start, some stop =>
    (p.code.read (some stop) (p.code.token start).next).graph name firstId
  | _, _ =>
    Graph.addEdge { function := name, firstId := firstId }
      ⟨Graph.entry, Graph.exit, .fallThrough, none⟩

def graph? (p : Program) (k : Nat) (firstId : Nat) : Option Graph := do
  let f ← p.functions[k]?
  let s ← p.scopeOf k f
  if s.bodyStart.isSome && s.bodyEnd.isSome then some (p.graphOf f.name s firstId) else none

def graphs (p : Program) : List Graph :=
  ((List.range p.functions.length).foldl
    (fun (acc : List Graph × Nat) k =>
      match p.graph? k acc.2 with
      | some g => (acc.1 ++ [g], acc.2 + g.size)
      | none => acc)
    ([], 0)).1

end Program

end SignFlow

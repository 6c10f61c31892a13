import SignFlow.Number.Value
import SignFlow.Store.Key
import SignFlow.Syntax.ValueType

/-! Tokens of a program text, linked by position.

Each token knows its neighbours, its matching bracket, and its place in the expression it belongs to. -/

namespace SignFlow

structure FlowValue where
  known : Bool
  int : Option Value := none
  real : Option Value := none
  deriving Repr

/-- What a known value says: its integer if it has one, else its real. -/
def FlowValue.number? (v : FlowValue) : Except Fault (Option Number) :=
  match v.int, v.real with
  | some i, _ => i.toInteger.map fun n => some (.int n)
  | none, some x => x.toReal.map fun r => some (.real r)
  | none, none => .ok none

structure Token where
  text : String := ""
  file : String := ""
  line : Int := 0
  column : Int := 0
  next : Option Nat := none
  previous : Option Nat := none
  link : Option Nat := none
  left : Option Nat := none
  right : Option Nat := none
  parent : Option Nat := none
  /-- The variable the token stands for. -/
  variableKey : Option Key := none
  /-- The token that names the variable this one belongs to. -/
  declaredAt : Option Nat := none
  type : Option ValueType := none
  values : List FlowValue := []
  isName : Bool := false
  isNumber : Bool := false
  isInt : Bool := false
  isFloat : Bool := false
  isChar : Bool := false
  isCast : Bool := false
  deriving Repr

namespace Token

def isIntegral (t : Token) : Bool := t.type.elim t.isInt ValueType.isIntegral

def isFloating (t : Token) : Bool := t.type.elim t.isFloat ValueType.isFloating

def isNumeric (t : Token) : Bool := t.isIntegral || t.isFloating

/-- The token's value, where exactly one is known for certain. -/
def known? (t : Token) : Except Fault (Option Number) := do
  let numbers ← (t.values.filter FlowValue.known).mapM FlowValue.number?
  match numbers.filterMap id with
  | [n] => pure (some n)
  | _ => pure none

end Token

structure Code where
  tokens : Array Token
  deriving Repr

namespace Code

/-- The token at a position; a position outside the text has an empty one. -/
def token (c : Code) (i : Nat) : Token := c.tokens.getD i {}

def size (c : Code) : Nat := c.tokens.size

def text (c : Code) (i : Nat) : String := (c.token i).text

def textAt (c : Code) (i : Option Nat) : String := i.elim "" c.text

def next (c : Code) (i : Option Nat) : Option Nat := i.bind fun n => (c.token n).next

end Code

end SignFlow

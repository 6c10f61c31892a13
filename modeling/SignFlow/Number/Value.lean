import SignFlow.Number.Basic
import SignFlow.Number.Real

/-! Plain data, as options and evidence hold it, and what it counts as where a number or a truth value
is wanted. -/

namespace SignFlow

inductive Value
  | null
  | bool (b : Bool)
  | int (n : Int)
  /-- The number `digits * 10 ^ exponent`, written with a point or an exponent. -/
  | decimal (digits exponent : Int)
  | text (s : String)
  | list (items : List Value)
  | record (fields : List (String × Value))
  deriving Repr, Inhabited

namespace Value

def real (digits exponent : Int) : Binary64 :=
  .ofDecimal (digits < 0) digits.natAbs exponent

/-- The name of a kind of data that is no number. -/
def kind : Value → String
  | null => "NoneType"
  | list _ => "list"
  | record _ => "dict"
  | _ => ""

/-- A real loses its fraction; a text is read. -/
def toInteger : Value → Except Fault Int
  | bool b => .ok (if b then 1 else 0)
  | int n => .ok n
  | decimal m e =>
    match real m e with
    | .finite s t => .ok (Binary64.truncate s t)
    | .infinite _ => .error .infinityToInteger
    | .nan => .error .nanToInteger
  | text s => Integer.read s
  | v => .error (.noInteger v.kind)

def toReal : Value → Except Fault Binary64
  | bool b => .ok (.finite (if b then 1 else 0) 0)
  | int n =>
    match real n 0 with
    | .infinite _ => .error .integerTooLarge
    | x => .ok x
  | decimal m e => .ok (real m e)
  | text s => Real.read s
  | v => .error (.noReal v.kind)

/-- Nothing, zero and whatever is empty count as false. -/
def isTrue : Value → Bool
  | null => false
  | bool b => b
  | int n => n != 0
  | decimal m e => !(real m e).isZero
  | text s => s != ""
  | list items => !items.isEmpty
  | record fields => !fields.isEmpty

end Value

end SignFlow

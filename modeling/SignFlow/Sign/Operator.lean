import SignFlow.Sign.Basic

/-! Arithmetic on signs.

`Operator.apply` gives the sign of a result from the signs of the operands. A quotient or remainder by
something that may be zero can be anything; otherwise it has the sign of the exact quotient. -/

namespace SignFlow

namespace Sign

def add : Sign → Sign → Sign
  | bottom, _ => bottom
  | _, bottom => bottom
  | zero, b => b
  | a, zero => a
  | neg, neg => neg
  | pos, pos => pos
  | _, _ => top

def mul : Sign → Sign → Sign
  | bottom, _ => bottom
  | _, bottom => bottom
  | zero, _ => zero
  | _, zero => zero
  | top, _ => top
  | _, top => top
  | pos, b => b
  | a, pos => a
  | neg, neg => pos
  | _, _ => nonzero

def div (a b : Sign) : Sign :=
  match a, b with
  | bottom, _ => bottom
  | _, zero => top
  | _, top => top
  | a, b => mul a b

end Sign

inductive Operator
  | plus
  | minus
  | times
  | divide
  | mod
  deriving DecidableEq, Repr

namespace Operator

def all : List Operator := [plus, minus, times, divide, mod]

def symbol : Operator → String
  | plus => "+"
  | minus => "-"
  | times => "*"
  | divide => "/"
  | mod => "%"

def ofSymbol? (text : String) : Option Operator :=
  all.find? fun op => op.symbol == text

/-- The operator inside an assignment such as `+=`. -/
def ofCompound? (text : String) : Option Operator :=
  all.find? fun op => op.symbol ++ "=" == text

def isDivision : Operator → Bool
  | divide | mod => true
  | _ => false

def apply : Operator → Sign → Sign → Sign
  | plus, a, b => a.add b
  | minus, a, b => a.add b.negate
  | times, a, b => a.mul b
  | divide, a, b => a.div b
  | mod, a, b => a.div b

end Operator

end SignFlow

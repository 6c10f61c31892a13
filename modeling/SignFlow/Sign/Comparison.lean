import SignFlow.Sign.Basic

/-! Comparisons, and what their outcome says about the signs compared.

`constraint c r` is what `x c y` says of `x` when `y` has sign `r`; refining meets a sign with it.
`outcomes` refines both sides under both outcomes. -/

namespace SignFlow

inductive Comparison
  | eq
  | ne
  | lt
  | le
  | gt
  | ge
  deriving DecidableEq, Repr

namespace Comparison

def all : List Comparison := [eq, ne, lt, le, gt, ge]

def symbol : Comparison → String
  | eq => "=="
  | ne => "!="
  | lt => "<"
  | le => "<="
  | gt => ">"
  | ge => ">="

def ofSymbol? (text : String) : Option Comparison :=
  all.find? fun c => c.symbol == text

/-- The comparison that says the same with its sides swapped. -/
def flip : Comparison → Comparison
  | lt => gt
  | le => ge
  | gt => lt
  | ge => le
  | c => c

/-- The comparison that holds exactly when this one does not. -/
def negate : Comparison → Comparison
  | eq => ne
  | ne => eq
  | lt => ge
  | le => gt
  | gt => le
  | ge => lt

/-- The sign of a comparison's own value: nothing is known of it, except that it needs both sides. -/
def value (left right : Sign) : Sign :=
  if left = .bottom ∨ right = .bottom then .bottom else .top

def constraint : Comparison → Sign → Sign
  | _, .bottom => .bottom
  | eq, r => r
  | ne, .zero => .nonzero
  | lt, .neg => .neg
  | lt, .zero => .neg
  | le, .neg => .neg
  | gt, .zero => .pos
  | gt, .pos => .pos
  | ge, .pos => .pos
  | _, _ => .top

def refine (c : Comparison) (left right : Sign) : Sign :=
  left.meet (c.constraint right)

def refinePair (c : Comparison) (left right : Sign) : Sign × Sign :=
  (c.refine left right, c.flip.refine right left)

end Comparison

/-- The signs of both sides of a comparison, where it holds and where it does not. -/
structure Outcomes where
  trueLeft : Sign
  trueRight : Sign
  falseLeft : Sign
  falseRight : Sign
  deriving DecidableEq, Repr

def Comparison.outcomes (c : Comparison) (left right : Sign) : Outcomes :=
  let t := c.refinePair left right
  let f := c.negate.refinePair left right
  ⟨t.1, t.2, f.1, f.2⟩

end SignFlow

/-! The signs an expression can be known to have.

Six facts about an integer: impossible, negative, zero, positive, not zero, anything. They are ordered
by what they admit; `join` and `meet` are the bounds of two of them in that order. -/

namespace SignFlow

inductive Sign
  | bottom
  | neg
  | zero
  | pos
  | nonzero
  | top
  deriving DecidableEq, Repr

namespace Sign

def all : List Sign := [bottom, neg, zero, pos, nonzero, top]

def symbol : Sign → String
  | bottom => "⊥"
  | neg => "-"
  | zero => "0"
  | pos => "+"
  | nonzero => "≠0"
  | top => "⊤"

def ofSymbol? (text : String) : Option Sign :=
  all.find? fun s => s.symbol == text

/-- Everything `a` admits, `b` admits too. -/
def le : Sign → Sign → Bool
  | bottom, _ => true
  | _, top => true
  | neg, nonzero => true
  | pos, nonzero => true
  | a, b => decide (a = b)

instance : LE Sign := ⟨fun a b => a.le b = true⟩

instance (a b : Sign) : Decidable (a ≤ b) := inferInstanceAs (Decidable (a.le b = true))

def join (a b : Sign) : Sign :=
  if a ≤ b then b
  else if b ≤ a then a
  else if a ≤ nonzero ∧ b ≤ nonzero then nonzero
  else top

def meet (a b : Sign) : Sign :=
  if a ≤ b then a
  else if b ≤ a then b
  else bottom

def joinAll (signs : List Sign) : Sign := signs.foldl join bottom

def negate : Sign → Sign
  | neg => pos
  | pos => neg
  | s => s

/-- Says something of a value that can exist: the only signs a store keeps. -/
def informative : Sign → Bool
  | bottom | top => false
  | _ => true

/-- A divisor of this sign is worth a report. -/
def mayBeZero : Sign → Bool
  | zero | top => true
  | _ => false

end Sign

/-- The sign of an expression, or `none` where its type is not tracked. -/
abbrev Fact := Option Sign

end SignFlow

import SignFlow.Number.Basic
import SignFlow.Number.Real

/-! The sign of a literal, read off its text.

A character constant is zero only where it is written as a null escape; of any other it is known that
it is not zero. What cannot be read as a number may have any sign. -/

namespace SignFlow.Literal

open Text

def dropEnd (drop : Char → Bool) (cs : List Char) : List Char :=
  (cs.reverse.dropWhile drop).reverse

def isIntegerSuffix (c : Char) : Bool := ['u', 'U', 'l', 'L'].contains c

def isRealSuffix (c : Char) : Bool := ['f', 'F', 'l', 'L'].contains c

/-- The number a literal without a sign stands for. Something made of digits only must be an integer. -/
def number? (cs : List Char) : Except Fault (Option Number) :=
  let stripped := dropEnd isIntegerSuffix cs
  if !stripped.isEmpty && stripped.all isDigitLike then
    (Integer.read (String.ofList stripped)).map fun n => some (.int n)
  else
    match Integer.readAnyBase? (String.ofList stripped) with
    | some n => .ok (some (.int n))
    | none => .ok ((Real.read? (String.ofList (dropEnd isRealSuffix cs))).map .real)

/-- The ways to write the null character. -/
def nullEscapes : List String := ["\\0", "\\x0", "\\x00", "\\000"]

/-- What stands between the quotes of a character constant. -/
def constant? (cs : List Char) : Option (List Char) :=
  if 3 ≤ cs.length ∧ cs.head? = some single ∧ cs.getLast? = some single then
    some (cs.drop 1).dropLast
  else none

def unsigned (cs : List Char) : Except Fault Sign :=
  match constant? cs with
  | some body => .ok (if nullEscapes.contains (String.ofList body) then .zero else .nonzero)
  | none => (number? cs).map fun n => n.elim .top .ofNumber

def sign (text : String) : Except Fault Sign :=
  match text.toList.filter (· ≠ ' ') with
  | '-' :: rest => (unsigned rest).map Sign.negate
  | cs => unsigned cs

end SignFlow.Literal

import SignFlow.Number.Binary64
import SignFlow.Sign.Basic

/-! Numbers a program text or its known values can hold, and their signs. -/

namespace SignFlow

inductive Number
  | int (n : Int)
  | real (x : Binary64)
  deriving DecidableEq, Repr

namespace Sign

def ofInt (n : Int) : Sign :=
  if n = 0 then zero else if 0 < n then pos else neg

/-- What is neither zero nor above it counts as negative, so a NaN does. -/
def ofReal (x : Binary64) : Sign :=
  if x.isZero then zero else if x.isPositive then pos else neg

def ofNumber : Number → Sign
  | .int n => ofInt n
  | .real x => ofReal x

def ofNumbers (numbers : List Number) : Sign := joinAll (numbers.map ofNumber)

/-- The number is one of those this sign stands for. -/
def admits (s : Sign) (x : Number) : Bool := (ofNumber x).le s

end Sign

end SignFlow

/-! The types of expressions, as far as signs depend on them. -/

namespace SignFlow

inductive BaseType
  | bool
  | char
  | short
  | wchar
  | char16
  | char32
  | int
  | unknownInt
  | long
  | longLong
  | float
  | double
  | longDouble
  /-- A type without signs: a record, a container, nothing. -/
  | other
  deriving DecidableEq, Repr

namespace BaseType

def ofName (text : String) : BaseType :=
  match text with
  | "bool" => bool
  | "char" => char
  | "short" => short
  | "wchar_t" => wchar
  | "char16_t" => char16
  | "char32_t" => char32
  | "int" => int
  | "unknown int" => unknownInt
  | "long" => long
  | "long long" => longLong
  | "float" => float
  | "double" => double
  | "long double" => longDouble
  | _ => other

def isIntegral : BaseType → Bool
  | float | double | longDouble | other => false
  | _ => true

def isFloating : BaseType → Bool
  | float | double | longDouble => true
  | _ => false

/-- Integral types by conversion rank; all else ranks with `int`. -/
def rank : BaseType → Nat
  | bool => 0
  | char => 1
  | short | char16 => 2
  | long => 4
  | longLong => 5
  | _ => 3

end BaseType

structure ValueType where
  base : BaseType
  unsigned : Bool := false
  pointer : Bool := false
  deriving DecidableEq, Repr

namespace ValueType

def isIntegral (t : ValueType) : Bool := !t.pointer && t.base.isIntegral

def isFloating (t : ValueType) : Bool := !t.pointer && t.base.isFloating

/-- Values of the type are numbers, so they have signs. -/
def isNumeric (t : ValueType) : Bool := t.isIntegral || t.isFloating

/-- Unsigned, and not promoted to a signed `int` in arithmetic. -/
def staysUnsigned (t : ValueType) : Bool := t.unsigned && BaseType.int.rank ≤ t.base.rank

end ValueType

end SignFlow

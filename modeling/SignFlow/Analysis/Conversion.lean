import SignFlow.Sign.Basic
import SignFlow.Syntax.ValueType

/-! What becomes of a sign when a value changes its type.

A type that is missing is unknown, and nothing is assumed of it. -/

namespace SignFlow

/-- From an integral type to an integral type. A narrower target may cut off everything but zeros; an
unsigned one has no negative values; a signed one of the same rank may turn large values negative. -/
def Sign.convertIntegral (s : Sign) (src dst : ValueType) : Sign :=
  if dst.base.rank < src.base.rank then .top
  else if dst.unsigned && !src.unsigned then .pos
  else if !dst.unsigned && src.unsigned && dst.base.rank == src.base.rank && s == .pos then .nonzero
  else s

def Sign.convert (s : Sign) (src dst : ValueType) : Sign :=
  if s = .bottom ∨ s = .zero ∨ s = .top then s
  else if !dst.isNumeric then s
  else if dst.base = .bool then .pos
  else if !dst.isIntegral then s
  else if !src.isIntegral then .top
  else s.convertIntegral src dst

namespace Fact

def convert (f : Fact) (src dst : Option ValueType) : Fact :=
  match f, src, dst with
  | some s, some a, some b => some (s.convert a b)
  | f, _, _ => f

def fit (f : Fact) (type : Option ValueType) : Fact :=
  match f with
  | some .neg | some .nonzero =>
    if type.any ValueType.staysUnsigned then some .pos else f
  | f => f

/-- The type holds fewer values than `int`, so storing an `int` in it may leave any value. -/
def isNarrow (type : ValueType) : Bool := type.isIntegral && type.base.rank < BaseType.int.rank

def narrow (f : Fact) (type : Option ValueType) : Fact :=
  match f with
  | none | some .bottom | some .zero => f.fit type
  | some _ => if type.any isNarrow then some .top else f.fit type

end Fact

end SignFlow

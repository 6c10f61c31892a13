import SignFlow.Store.Basic

/-! Domains of facts that a data-flow problem can be solved over. -/

namespace SignFlow

/-- The operations of a domain. Some domains have no greatest fact, or no greatest lower bounds. -/
structure Domain (α : Type) where
  bottom : α
  join : α → α → α
  le : α → α → Bool
  eq : α → α → Bool := fun a b => le a b && le b a
  top? : Option α := none
  meet? : Option (α → α → α) := none

namespace Domain

inductive Missing
  | top
  | meet
  deriving DecidableEq, Repr

def Missing.message : Missing → String
  | top => "no top"
  | meet => "meet() not implemented for this lattice"

variable {α : Type} (D : Domain α)

def top : Except Missing α := D.top?.elim (.error .top) .ok

def meet (a b : α) : Except Missing α := D.meet?.elim (.error .meet) fun f => .ok (f a b)

def isBottom (a : α) : Bool := D.eq a D.bottom

def isTop (a : α) : Bool := D.top?.any (D.eq a)

def joinAll (values : List α) : α := values.foldl D.join D.bottom

end Domain

def Sign.domain : Domain Sign where
  bottom := .bottom
  join := join
  le := le
  eq a b := decide (a = b)
  top? := some top
  meet? := some meet

def Store.domain : Domain Store where
  bottom := unreachable
  join := join
  le := le
  eq s t := decide (s = t)
  top? := some empty

end SignFlow

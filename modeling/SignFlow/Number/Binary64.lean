/-! Double-precision numbers by their value, and the nearest one to a decimal. -/

namespace SignFlow

inductive Binary64
  /-- The value `significand * 2 ^ exponent`. -/
  | finite (significand exponent : Int)
  | infinite (negative : Bool)
  | nan
  deriving DecidableEq, Repr

namespace Binary64

def zero : Binary64 := finite 0 0

def roundDiv (num den : Nat) : Nat :=
  let q := num / den
  let r := num % den
  if 2 * r < den then q
  else if den < 2 * r then q + 1
  else q + q % 2

def scaled (num den : Nat) (t : Int) : Nat × Nat :=
  if 0 ≤ t then (num, den * Nat.pow 2 t.toNat) else (num * Nat.pow 2 (-t).toNat, den)

/-- The exponent at which `num / den` has 53 bits, or the least one there is. -/
def exponentFor (num den : Nat) : Int :=
  let t : Int := (num.log2 : Int) - den.log2 - 53
  let s := scaled num den t
  max (if Nat.pow 2 53 ≤ s.1 / s.2 then t + 1 else t) (-1074)

/-- Nearest to the positive `num / den`, with ties to even and infinity past the largest. -/
def ofRatio (negative : Bool) (num den : Nat) : Binary64 :=
  let t := exponentFor num den
  let s := scaled num den t
  let m := roundDiv s.1 s.2
  if Nat.pow 2 1024 ≤ m * Nat.pow 2 t.toNat then infinite negative
  else finite (if negative then -(m : Int) else m) t

/-- Nearest to `digits * 10 ^ exponent`. Powers far outside the range are not computed. -/
def ofDecimal (negative : Bool) (digits : Nat) (exponent : Int) : Binary64 :=
  let magnitude := (Nat.toDigits 10 digits).length + exponent
  if digits = 0 ∨ magnitude < -400 then zero
  else if 400 < magnitude then infinite negative
  else if 0 ≤ exponent then ofRatio negative (digits * Nat.pow 10 exponent.toNat) 1
  else ofRatio negative digits (Nat.pow 10 (-exponent).toNat)

def truncate (significand exponent : Int) : Int :=
  if 0 ≤ exponent then significand * (Nat.pow 2 exponent.toNat : Nat)
  else significand.tdiv (Nat.pow 2 (-exponent).toNat : Nat)

def isZero : Binary64 → Bool
  | finite m _ => m == 0
  | _ => false

def isPositive : Binary64 → Bool
  | finite m _ => 0 < m
  | infinite negative => !negative
  | nan => false

end Binary64

end SignFlow

import SignFlow.Number.Fault
import SignFlow.Text.Blank
import SignFlow.Text.Digit

/-! Reading written integers.

Blanks may stand around the number and one sign in front of it; digits of every script count, and a
single underscore may stand between two digits. `read` takes decimals only. `readAnyBase?` also takes
the marks `0x`, `0o` and `0b`, and refuses a decimal that starts with a zero and is not zero. -/

namespace SignFlow.Integer

open Text

def valueOf? (c : Char) : Option Nat :=
  match digitValue? c with
  | some v => some v
  | none =>
    if 'a' ≤ c ∧ c ≤ 'f' then some (c.toNat - 'a'.toNat + 10)
    else if 'A' ≤ c ∧ c ≤ 'F' then some (c.toNat - 'A'.toNat + 10)
    else none

def digitIn? (base : Nat) (c : Char) : Option Nat :=
  (valueOf? c).filter (· < base)

/-- A run of digits and underscores: the digits' values, whether an underscore is out of place, and
what follows. `afterDigit` says that the last character was a digit. -/
def digits (base : Nat) (afterDigit : Bool) : List Char → List Nat × Bool × List Char
  | [] => ([], !afterDigit, [])
  | c :: rest =>
    match digitIn? base c with
    | some v =>
      let r := digits base true rest
      (v :: r.1, r.2)
    | none =>
      if c = '_' then
        let r := digits base false rest
        (r.1, r.2.1 || !afterDigit, r.2.2)
      else ([], !afterDigit, c :: rest)

def ofDigits (base : Nat) (ds : List Nat) : Nat :=
  ds.foldl (fun n d => n * base + d) 0

def takeSign : List Char → Bool × List Char
  | '+' :: rest => (false, rest)
  | '-' :: rest => (true, rest)
  | cs => (false, cs)

def signed (negative : Bool) (n : Nat) : Int :=
  if negative then -(n : Int) else n

/-- The whole text as a decimal integer. The limit on digits is checked before anything behind them. -/
def read (text : String) : Except Fault Int :=
  let (negative, cs) := takeSign (dropBlanks text.toList)
  let (ds, misplaced, rest) := digits 10 false cs
  if misplaced then .error (.notInteger text)
  else if Fault.maxDigits < ds.length then .error (.tooManyDigits ds.length)
  else if ds.isEmpty || !(dropBlanks rest).isEmpty then .error (.notInteger text)
  else .ok (signed negative (ofDigits 10 ds))

def takeMark (cs : List Char) : Nat × List Char :=
  match cs with
  | z :: mark :: rest =>
    if digitValue? z = some 0 then
      let body := if rest.head? = some '_' then rest.drop 1 else rest
      if mark = 'x' ∨ mark = 'X' then (16, body)
      else if mark = 'o' ∨ mark = 'O' then (8, body)
      else if mark = 'b' ∨ mark = 'B' then (2, body)
      else (10, cs)
    else (10, cs)
  | _ => (10, cs)

def readAnyBase? (text : String) : Option Int :=
  let (negative, cs) := takeSign (dropBlanks text.toList)
  let (base, body) := takeMark cs
  let (ds, misplaced, rest) := digits base false body
  let value := ofDigits base ds
  if misplaced || ds.isEmpty || !(dropBlanks rest).isEmpty then none
  else if base = 10 ∧ Fault.maxDigits < ds.length then none
  else if base = 10 ∧ ds.head? = some 0 ∧ value ≠ 0 then none
  else some (signed negative value)

end SignFlow.Integer

import SignFlow.Number.Binary64
import SignFlow.Number.Integer

/-! Reading written reals: a decimal fraction with an optional exponent, an infinity or a NaN. -/

namespace SignFlow.Real

open Text

/-- The text without underscores, if each stands between two digits. -/
def dropUnderscores? (afterDigit : Bool) : List Char → Option (List Char)
  | [] => some []
  | c :: rest =>
    if c = '_' then
      match rest with
      | d :: _ =>
        if afterDigit && (digitValue? d).isSome then dropUnderscores? false rest else none
      | [] => none
    else (dropUnderscores? (digitValue? c).isSome rest).map (c :: ·)

def spanDigits : List Char → List Nat × List Char
  | [] => ([], [])
  | c :: rest =>
    match digitValue? c with
    | some v =>
      let r := spanDigits rest
      (v :: r.1, r.2)
    | none => ([], c :: rest)

def fraction : List Char → List Nat × List Char
  | '.' :: rest => spanDigits rest
  | cs => ([], cs)

/-- All of the text as an exponent; no text is the exponent zero. -/
def exponent? (cs : List Char) : Option Int :=
  match cs with
  | [] => some 0
  | mark :: rest =>
    if mark = 'e' ∨ mark = 'E' then
      let (negative, body) := Integer.takeSign rest
      match spanDigits body with
      | (d :: ds, []) => some (Integer.signed negative (Integer.ofDigits 10 (d :: ds)))
      | _ => none
    else none

def decimal? (negative : Bool) (cs : List Char) : Option Binary64 :=
  let (whole, rest) := spanDigits cs
  let (part, rest) := fraction rest
  if whole.isEmpty && part.isEmpty then none
  else (exponent? rest).map fun e =>
    .ofDecimal negative (Integer.ofDigits 10 (whole ++ part)) (e - part.length)

def unsigned? (negative : Bool) (cs : List Char) : Option Binary64 :=
  let word := String.ofList (cs.map Char.toLower)
  if word = "inf" ∨ word = "infinity" then some (.infinite negative)
  else if word = "nan" then some .nan
  else decimal? negative cs

def read? (text : String) : Option Binary64 := do
  let (negative, body) := Integer.takeSign (← dropUnderscores? false (trimBlanks text.toList))
  unsigned? negative body

def read (text : String) : Except Fault Binary64 :=
  match read? text with
  | some x => .ok x
  | none => .error (.notReal text)

end SignFlow.Real

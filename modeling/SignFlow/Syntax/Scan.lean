import SignFlow.Syntax.Token

/-! Walks along a program text: over brackets, to the end of a statement.

A position that is `none` lies behind the end of the text. A walk that met a position twice would never
end, so none takes more steps than the text has tokens. -/

namespace SignFlow.Code

def braceEnd (c : Code) (i : Option Nat) : Option Nat :=
  i.bind fun n => if c.text n = "\x7b" then (c.token n).link else none

def opensBracket (text : String) : Bool := ["(", "[", "\x7b"].contains text

/-- Behind the next semicolon that is not inside brackets, within a number of steps. -/
def pastSemicolonWithin (c : Code) (limit : Option Nat) : Nat → Option Nat → Option Nat
  | 0, _ => none
  | _ + 1, none => none
  | steps + 1, some i =>
    let t := c.token i
    if some i = limit then none
    else if t.text = ";" then t.next
    else
      match if opensBracket t.text then t.link else none with
      | some j => c.pastSemicolonWithin limit steps (c.token j).next
      | none => c.pastSemicolonWithin limit steps t.next

def pastSemicolon (c : Code) (limit i : Option Nat) : Option Nat :=
  c.pastSemicolonWithin limit (c.size + 1) i

def pastParenthesis (c : Code) (i : Option Nat) : Option Nat :=
  match i with
  | none => none
  | some n =>
    let t := c.token n
    match if t.text = "(" then t.link else none with
    | some j => (c.token j).next
    | none => i

def statementEndWithin (c : Code) (limit : Option Nat) : Nat → Option Nat → Option Nat
  | 0, _ => none
  | depth + 1, i =>
    let text := c.textAt i
    if text = "\x7b" then c.next (c.braceEnd i)
    else if text = "if" then
      let after := c.statementEndWithin limit depth (c.pastParenthesis (c.next i))
      if after.isSome ∧ c.textAt after = "else" then c.statementEndWithin limit depth (c.next after)
      else after
    else if text = "while" ∨ text = "for" ∨ text = "switch" then
      c.statementEndWithin limit depth (c.pastParenthesis (c.next i))
    else if text = "do" then
      c.pastSemicolon limit (c.statementEndWithin limit depth (c.next i))
    else c.pastSemicolon limit i

def statementEnd (c : Code) (limit i : Option Nat) : Option Nat :=
  c.statementEndWithin limit (c.size + 1) i

def collectWithin (c : Code) (stop : Nat → Bool) : Nat → Option Nat → List Nat × Option Nat
  | 0, _ => ([], none)
  | _ + 1, none => ([], none)
  | steps + 1, some i =>
    if stop i then ([], some i)
    else
      let r := c.collectWithin stop steps (c.token i).next
      (i :: r.1, r.2)

def collect (c : Code) (stop : Nat → Bool) (i : Option Nat) : List Nat × Option Nat :=
  c.collectWithin stop (c.size + 1) i

/-- The positions inside a parenthesised part that starts here, and what follows it. Without its closing
bracket it goes on to the end of the text. -/
def parenthesised (c : Code) (i : Option Nat) : List Nat × Option Nat :=
  if c.textAt i = "(" then
    let close := i.bind fun n => (c.token n).link
    ((c.collect (fun n => some n = close) (c.next i)).1, c.next close)
  else ([], i)

def atStart (c : Code) (t : Token) : Bool :=
  t.previous.all fun p => [";", "\x7b", "\x7d", ":"].contains (c.text p)

/-- The token starts a statement and is a name with a single colon behind it. -/
def isLabel (c : Code) (i : Nat) : Bool :=
  let t := c.token i
  t.isName && c.atStart t && c.textAt t.next == ":" && c.textAt (c.next t.next) != ":"
    && t.text != "case" && t.text != "default"

end SignFlow.Code

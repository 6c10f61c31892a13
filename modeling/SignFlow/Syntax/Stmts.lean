import SignFlow.Syntax.Scan

/-! Statement sequences, and how they are read from a program text.

Reading keeps what control flow depends on: plain tokens stay as they are, and every construct that can
move control elsewhere has its own form. Malformed text is read as far as it goes. -/

namespace SignFlow

mutual

inductive Stmts
  | done
  | token (pos : Nat) (rest : Stmts)
  | label (name : String) (rest : Stmts)
  | returns (tokens : List Nat) (rest : Stmts)
  | leave (pos : Nat) (rest : Stmts)
  | next (pos : Nat) (rest : Stmts)
  | goto (pos : Nat) (target : String) (rest : Stmts)
  | block (inner rest : Stmts)
  /-- A condition at the end of the text, with nothing behind it. -/
  | ifOnly (test : List Nat)
  | ifThen (test : List Nat) (yes rest : Stmts)
  | ifElse (test : List Nat) (yes no rest : Stmts)
  | whileDo (test : List Nat) (inner rest : Stmts)
  | doWhile (inner : Stmts) (test : List Nat) (rest : Stmts)
  | forDo (init test step : List Nat) (inner rest : Stmts)
  | switch (test : List Nat) (arms : Arms) (rest : Stmts)
  /-- A switch without braces, whose statement is passed over. -/
  | bareSwitch (test : List Nat) (rest : Stmts)

/-- The inside of a switch: labels, and the statements between them. -/
inductive Arms
  | done
  | caseOf (label : String) (rest : Arms)
  | default (rest : Arms)
  | stmts (inner : Stmts) (rest : Arms)

end

namespace Code

/-- The body of a construct: what is inside its braces, or its one statement. -/
def bodyBy (c : Code) (read : Option Nat → Option Nat → Stmts) (limit i : Option Nat) : Stmts :=
  if c.textAt i = "\x7b" then read (c.braceEnd i) (c.next i) else read (c.statementEnd limit i) i

def skip (c : Code) (text : String) (i : Option Nat) : Option Nat :=
  if i.isSome ∧ c.textAt i = text then c.next i else i

mutual

def readWithin (c : Code) : Nat → Option Nat → Option Nat → Stmts
  | 0, _, _ => .done
  | _ + 1, _, none => .done
  | fuel + 1, limit, some i =>
    let t := c.token i
    let body := c.bodyBy (c.readWithin fuel) limit
    if some i = limit then .done
    else if c.isLabel i then .label t.text (c.readWithin fuel limit (c.next t.next))
    else
      match t.text with
      | "return" =>
        let stop := c.pastSemicolon limit (some i)
        let part := c.collect (fun n => some n = stop || some n = limit) (some i)
        .returns part.1 (c.readWithin fuel limit part.2)
      | "break" => .leave i (c.readWithin fuel limit (c.pastSemicolon limit t.next))
      | "continue" => .next i (c.readWithin fuel limit (c.pastSemicolon limit t.next))
      | "goto" =>
        .goto i (c.textAt t.next) (c.readWithin fuel limit (c.pastSemicolon limit t.next))
      | "if" =>
        let test := c.parenthesised t.next
        if test.2.isNone then .ifOnly test.1
        else
          let after := c.statementEnd limit test.2
          if after.isSome ∧ after ≠ limit ∧ c.textAt after = "else" then
            let other := c.next after
            .ifElse test.1 (body test.2) (body other)
              (c.readWithin fuel limit (c.statementEnd limit other))
          else .ifThen test.1 (body test.2) (c.readWithin fuel limit after)
      | "while" =>
        let test := c.parenthesised t.next
        .whileDo test.1 (body test.2) (c.readWithin fuel limit (c.statementEnd limit test.2))
      | "for" =>
        if c.textAt t.next = "(" then
          let close := t.next.bind fun n => (c.token n).link
          let stop := fun n => some n = close || c.text n == ";"
          let init := c.collect stop (c.next t.next)
          let test := c.collect stop (c.skip ";" init.2)
          let step := c.collect (fun n => some n = close) (c.skip ";" test.2)
          let inner := c.next close
          .forDo init.1 test.1 step.1 (body inner)
            (c.readWithin fuel limit (c.statementEnd limit inner))
        else c.readWithin fuel limit t.next
      | "do" =>
        let after := c.statementEnd limit t.next
        if c.textAt after = "while" then
          let test := c.parenthesised (c.next after)
          .doWhile (body t.next) test.1 (c.readWithin fuel limit (c.skip ";" test.2))
        else .doWhile (body t.next) [] (c.readWithin fuel limit after)
      | "switch" =>
        let test := c.parenthesised t.next
        if c.textAt test.2 = "\x7b" then
          let close := c.braceEnd test.2
          .switch test.1 (c.readArmsWithin fuel close (c.next test.2))
            (c.readWithin fuel limit (c.next close))
        else .bareSwitch test.1 (c.readWithin fuel limit (c.statementEnd limit test.2))
      | "\x7b" =>
        match t.link with
        | some close =>
          .block (c.readWithin fuel (some close) t.next)
            (c.readWithin fuel limit (c.token close).next)
        | none => .token i (c.readWithin fuel limit t.next)
      | _ => .token i (c.readWithin fuel limit t.next)

def readArmsWithin (c : Code) : Nat → Option Nat → Option Nat → Arms
  | 0, _, _ => .done
  | _ + 1, _, none => .done
  | fuel + 1, close, some i =>
    if some i = close then .done
    else
      match c.text i with
      | "case" =>
        let value := c.collect (fun n => c.text n == ":" || some n = close) (c.token i).next
        .caseOf (" ".intercalate (value.1.map c.text))
          (c.readArmsWithin fuel close (c.skip ":" value.2))
      | "default" => .default (c.readArmsWithin fuel close (c.skip ":" (c.token i).next))
      | _ =>
        let after := c.statementEnd close (some i)
        .stmts (c.readWithin fuel after (some i)) (c.readArmsWithin fuel close after)

end

theorem readWithin_limit (c : Code) (fuel i : Nat) : c.readWithin fuel (some i) (some i) = .done := by
  cases fuel <;> simp [readWithin]

theorem readArmsWithin_limit (c : Code) (fuel i : Nat) :
    c.readArmsWithin fuel (some i) (some i) = .done := by
  cases fuel <;> simp [readArmsWithin]

/-- The statements from a position up to a limit. Each step goes to a place it has not been to with the
same limit, which bounds their number on every text that can be read to an end. -/
def read (c : Code) (limit i : Option Nat) : Stmts :=
  c.readWithin ((c.size + 2) * (c.size + 2) * (c.size + 2)) limit i

end Code

end SignFlow

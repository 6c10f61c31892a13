import SignFlow.Analysis.Conversion
import SignFlow.Analysis.Walk
import SignFlow.Store.Refine
import SignFlow.Syntax.Expr
import SignFlow.Syntax.Literal

/-! The signs of expressions.

`Expr.eval` evaluates an expression on a store: it gives the expression's sign, changes the store where
the expression assigns, and notes every division on the way. `Expr.assume` is the store where a condition
has a given outcome. Both are parts of an expression's `Meaning`, which is built from the meanings of its
operands. -/

namespace SignFlow

inductive Binary
  | arithmetic (op : Operator)
  | compound (op : Operator)
  | comparison (c : Comparison)
  deriving DecidableEq, Repr

def Binary.ofText? (text : String) : Option Binary :=
  ((Operator.ofSymbol? text).map arithmetic).orElse fun _ =>
    ((Operator.ofCompound? text).map compound).orElse fun _ =>
      (Comparison.ofSymbol? text).map comparison

namespace Expr

def binaryOf? (t : Token) (left right : Expr) : Option Binary :=
  if left.isAbsent || right.isAbsent then none else Binary.ofText? t.text

def binary? : Expr → Option Binary
  | absent => none
  | node _ t l r => binaryOf? t l r

end Expr

/-- All that is known of a value one knows nothing about. -/
def Token.unknown (t : Token) : Fact := if t.isNumeric then some .top else none

namespace Walk

def assignTo (target : Expr) (value : Fact) : Walk Unit :=
  match target.key? with
  | none => pure ()
  | some k =>
    match value with
    | some v => if target.isNumeric then change (·.bind k v) else change (·.forget k)
    | none => change (·.forget k)

def forgetTarget (target : Expr) : Walk Unit :=
  match target.key? with
  | none => pure ()
  | some k => change (·.forget k)

end Walk

/-- What an expression does: its evaluation, its operands' evaluations, and the stores its outcomes
leave. -/
structure Meaning where
  value : Walk Fact
  left : Walk Fact
  right : Walk Fact
  assume : Bool → Store → Except Fault Store

namespace Eval

open Walk

def leaf (t : Token) : Walk Fact := do
  if !t.isNumeric then pure none
  else if !(← store).isReachable then pure (some .bottom)
  else if t.isNumber || t.isChar then do
    let s ← lift (Literal.sign t.text)
    pure (some s)
  else
    match t.variableKey with
    | some k => do pure (some ((← store).lookup k))
    | none => pure (some .top)

def assign (l r : Expr) (left right : Walk Fact) : Walk Fact := do
  let value := (← right).convert r.type? l.type?
  if l.key?.isNone then do
    let _ ← left
  assignTo l value
  pure (if l.isNumeric then value else none)

def cancels (op : Operator) (l r : Expr) : Bool :=
  op == .minus && l.key?.isSome && l.key? == r.key? && l.isIntegral

def arithmetic (pos : Nat) (t : Token) (op : Operator) (l r : Expr) (left right : Walk Fact) :
    Walk Fact := do
  let a := (← left).convert l.type? t.type
  let b := (← right).convert r.type? t.type
  match a, b with
  | some a, some b =>
    let computed := op.apply a b
    let result := if cancels op l r && computed != .bottom then .zero else computed
    if op.isDivision then
      note {
        pos := pos, operator := op, dividend := a, divisor := b
        integral := l.isIntegral && r.isIntegral }
    pure (Fact.fit (some result) t.type)
  | _, _ => pure t.unknown

def compound (pos : Nat) (t : Token) (op : Operator) (l r : Expr) (left right : Walk Fact) :
    Walk Fact := do
  let b ← right
  let a ← left
  match a, b with
  | some a, some b =>
    if op.isDivision then
      note {
        pos := pos, operator := op, dividend := a, divisor := b
        compound := true, integral := r.isIntegral }
    let computed := op.apply a b
    let stored := if l.isIntegral && !r.isIntegral && computed != .zero then .top else computed
    let result := Fact.narrow (some stored) l.type?
    assignTo l result
    pure result
  | _, _ => do
    assignTo l none
    pure t.unknown

def comparison (left right : Walk Fact) : Walk Fact := do
  let a ← left
  let b ← right
  pure (some (Comparison.value (a.getD .top) (b.getD .top)))

/-- Steps a variable up or down; before or after is not told apart. -/
def step (op : Operator) (operand : Expr) (value : Walk Fact) : Walk Fact := do
  match ← value with
  | some old =>
    if operand.isNumeric then
      let new := Fact.narrow (some (op.apply old .pos)) operand.type?
      assignTo operand new
      pure (new.map old.join)
    else do
      assignTo operand none
      pure none
  | none => do
    assignTo operand none
    pure none

def unary (t : Token) (operand : Expr) (value : Walk Fact) : Walk Fact := do
  let v ← value
  match t.text with
  | "-" => pure (v.bind fun s => Fact.fit (some s.negate) t.type)
  | "+" => pure v
  | "&" => do
    forgetTarget operand
    pure none
  | "!" => pure (if v = some .bottom then some .bottom else some .top)
  | _ => pure t.unknown

/-- The right operand runs only where the left one has the given outcome. -/
def shortCircuit (goesOn : Bool) (left right : Meaning) : Walk Fact := do
  let _ ← left.value
  let taken ← lift (left.assume goesOn (← store))
  let (_, branch) ← aside taken right.value
  change (·.absorb branch)
  pure (some (if (← store).isReachable then .top else .bottom))

/-- A condition with two arms; without the colon between them the rest is just evaluated. -/
def conditional (t : Token) (hasArms : Bool) (cond arms : Meaning) : Walk Fact := do
  let _ ← cond.value
  if !hasArms then do
    let _ ← arms.value
    pure t.unknown
  else do
    let yesStore ← lift (cond.assume true (← store))
    let (yes, yesEnd) ← aside yesStore arms.left
    let noStore ← lift (cond.assume false (← store))
    let (no, noEnd) ← aside noStore arms.right
    change (·.adopt (yesEnd.join noEnd))
    match yes, no with
    | some a, some b => pure (some (a.join b))
    | _, _ => pure t.unknown

/-- Calls, subscripts, bit operations: operands are evaluated and the result is unknown. The function
that is called is not evaluated. -/
def other (t : Token) (l : Expr) (left right : Walk Fact) : Walk Fact := do
  if t.text != "(" then do
    let _ ← left
  let _ ← right
  if Expr.assignments.contains t.text then assignTo l (some .top)
  pure t.unknown

def visit (pos : Nat) (t : Token) (l r : Expr) (ml mr : Meaning) : Walk Fact :=
  if l.isAbsent && r.isAbsent then leaf t
  else if t.text == "=" && !r.isAbsent then assign l r ml.value mr.value
  else
    match Expr.binaryOf? t l r with
    | some (.arithmetic op) => arithmetic pos t op l r ml.value mr.value
    | some (.compound op) => compound pos t op l r ml.value mr.value
    | some (.comparison _) => comparison ml.value mr.value
    | none =>
      if t.text == "++" || t.text == "--" then
        let op := if t.text == "++" then Operator.plus else .minus
        if l.isAbsent then step op r mr.value else step op l ml.value
      else if t.text == "&&" || t.text == "||" then shortCircuit (t.text == "&&") ml mr
      else if t.text == "?" then conditional t (r.text == ":") ml mr
      else if t.text == "." || t.text == "::" then do
        let _ ← ml.value
        pure t.unknown
      else if Expr.isCastOf t l r then do
        pure ((← ml.value).convert l.type? t.type)
      else if r.isAbsent then unary t l ml.value
      else if t.text == "," then do
        let _ ← ml.value
        mr.value
      else other t l ml.value mr.value

/-- A value known for certain goes before the computed one, on a store that can be reached. -/
def withKnown (t : Token) (visited : Walk Fact) : Walk Fact := do
  let computed ← visited
  match ← lift t.known? with
  | some n =>
    if t.isNumeric && (← store).isReachable then pure (some (.ofNumber n)) else pure computed
  | none => pure computed

/-- The sign an expression would have on a store, without its effects. -/
def factOf (e : Expr) (value : Walk Fact) (s : Store) : Except Fault Fact :=
  if e.hasEffects then .ok (if e.isNumeric then some .top else none)
  else (value s).value

def compareWith (c : Comparison) (e : Expr) (value : Walk Fact) (sign : Sign) (s : Store) :
    Except Fault Store := do
  match ← factOf e value s with
  | some f => pure (s.refine c e.key? (some f) none (some sign)).1
  | none => pure s

/-- An unsigned and a signed side compare as unsigned, so the signed one has to be known not to be
negative. -/
def comparable (l r : Expr) (lf rf : Sign) : Bool :=
  let signed := if l.staysUnsigned then rf else lf
  l.staysUnsigned == r.staysUnsigned || signed == .zero || signed == .pos

def compare (c : Comparison) (l r : Expr) (left right : Walk Fact) (s : Store) :
    Except Fault Store := do
  match ← factOf l left s, ← factOf r right s with
  | some lf, some rf =>
    if comparable l r lf rf then pure (s.refine c l.key? (some lf) r.key? (some rf)).1 else pure s
  | _, _ => pure s

def assumeNode (e : Expr) (t : Token) (l r : Expr) (value : Walk Fact) (ml mr : Meaning)
    (truth : Bool) (s : Store) : Except Fault Store :=
  if !s.isReachable then pure s
  else if t.text == "!" && r.isAbsent && !l.isAbsent then ml.assume (!truth) s
  else if (t.text == "&&" || t.text == "||") && !l.isAbsent && !r.isAbsent then do
    let first ← ml.assume truth s
    if (t.text == "&&") == truth then mr.assume truth first
    else do
      let second ← mr.assume truth (← ml.assume (!truth) s)
      pure (first.join second)
  else
    match Expr.binaryOf? t l r with
    | some (.comparison c) => compare (if truth then c else c.negate) l r ml.value mr.value s
    | _ =>
      if t.isNumeric then compareWith (if truth then .ne else .eq) e value .zero s else pure s

end Eval

namespace Expr

def meaning : Expr → Meaning
  | absent => ⟨pure none, pure none, pure none, fun _ s => pure s⟩
  | node pos t l r =>
    let left := l.meaning
    let right := r.meaning
    let value := Eval.withKnown t (Eval.visit pos t l r left right)
    ⟨value, left.value, right.value,
      Eval.assumeNode (node pos t l r) t l r value left right⟩

def eval (e : Expr) : Walk Fact := e.meaning.value

def assume (e : Expr) (truth : Bool) (s : Store) : Except Fault Store := e.meaning.assume truth s

/-- The sign the expression would have on a store; one with effects may have any. -/
def fact (e : Expr) (s : Store) : Except Fault Fact := Eval.factOf e e.eval s

def compareWith (e : Expr) (c : Comparison) (sign : Sign) (s : Store) : Except Fault Store :=
  Eval.compareWith c e e.eval sign s

end Expr

end SignFlow

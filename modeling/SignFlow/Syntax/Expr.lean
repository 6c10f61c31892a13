import SignFlow.Syntax.Token

/-! Expressions as trees of tokens. -/

namespace SignFlow

inductive Expr
  /-- The operand that is not there. -/
  | absent
  | node (pos : Nat) (token : Token) (left right : Expr)
  deriving Repr

namespace Expr

def isAbsent : Expr → Bool
  | absent => true
  | node .. => false

def pos? : Expr → Option Nat
  | absent => none
  | node pos .. => some pos

def text : Expr → String
  | absent => ""
  | node _ t _ _ => t.text

def type? : Expr → Option ValueType
  | absent => none
  | node _ t _ _ => t.type

def key? : Expr → Option Key
  | absent => none
  | node _ t _ _ => t.variableKey

def isIntegral : Expr → Bool
  | absent => false
  | node _ t _ _ => t.isIntegral

def isFloating : Expr → Bool
  | absent => false
  | node _ t _ _ => t.isFloating

def isNumeric (e : Expr) : Bool := e.isIntegral || e.isFloating

def staysUnsigned (e : Expr) : Bool := e.type?.any ValueType.staysUnsigned

/-- An opening bracket is a cast if it is marked as one, or if its only operand is not the token before
it, as a called function would be. -/
def isCastOf (t : Token) (left right : Expr) : Bool :=
  t.text == "(" && (t.isCast || (!left.isAbsent && right.isAbsent && left.pos? != t.previous))

def isCast : Expr → Bool
  | absent => false
  | node _ t l r => isCastOf t l r

def assignments : List String := ["=", "+=", "-=", "*=", "/=", "%=", "&=", "|=", "^=", "<<=", ">>="]

def steps : List String := ["++", "--"]

/-- Evaluating the expression may change a variable: it assigns, steps or calls. -/
def hasEffects : Expr → Bool
  | absent => false
  | node _ t l r =>
    assignments.contains t.text || steps.contains t.text || (t.text == "(" && !isCastOf t l r)
      || l.hasEffects || r.hasEffects

/-- The expression as messages show it. -/
def display : Expr → String
  | absent => ""
  | node _ t absent absent => t.text
  | node _ t l absent => t.text ++ l.display
  | node _ t l r => l.display ++ " " ++ t.text ++ " " ++ r.display

end Expr

namespace Code

/-- The tree below a token. A branch longer than the text has tokens would meet a token twice; it is cut
there. -/
def treeWithin (c : Code) : Nat → Option Nat → Expr
  | 0, _ => .absent
  | _ + 1, none => .absent
  | depth + 1, some i =>
    let t := c.token i
    .node i t (c.treeWithin depth t.left) (c.treeWithin depth t.right)

def tree (c : Code) (i : Option Nat) : Expr := c.treeWithin c.size i

end Code

end SignFlow

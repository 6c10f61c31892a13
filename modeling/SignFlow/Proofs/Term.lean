import SignFlow.Analysis.Evaluate
import SignFlow.Proofs.Covers

/-! Integer expressions and their runs.

A run reads and writes an environment, may choose between values, and stops with a trap where it divides
by zero. Terms are integer expressions; `Reads` says which trees of tokens stand for them. Operands run
from left to right, but an assignment runs its right side first.

What is assigned or stepped may be any term that stands for a variable: an assignment may itself be
assigned, as in `(x += y) *= z`. The analysis follows such a term only where every target is a variable's
own name (`Term.namesTargets`). It drops a write through any other target (`Reads.write_dropped`). -/

namespace SignFlow

/-- How a run ends: with a value and an environment, or at a division by zero. -/
inductive Result (α : Type)
  | value (a : α) (ρ : Env)
  | trap (pos : Nat)

/-- The results a step can have from an environment. -/
def Run (α : Type) : Type := Env → Result α → Prop

namespace Run

variable {α β : Type}

protected def pure (a : α) : Run α := fun ρ r => r = .value a ρ

protected def bind (x : Run α) (f : α → Run β) : Run β := fun ρ r =>
  (∃ a ρ', x ρ (.value a ρ') ∧ f a ρ' r) ∨ ∃ p, x ρ (.trap p) ∧ r = .trap p

instance : Monad Run where
  pure := Run.pure
  bind := Run.bind

def read (k : Key) : Run Int := fun ρ r => r = .value (ρ k) ρ

def write (k : Key) (v : Int) : Run Unit := fun ρ r => r = .value () (Function.update ρ k v)

def choose (P : α → Prop) : Run α := fun ρ r => ∃ a, P a ∧ r = .value a ρ

def trap (pos : Nat) : Run α := fun _ r => r = .trap pos

def never : Run α := fun _ _ => False

@[simp] theorem pure_value {a b : α} {ρ ρ' : Env} :
    (pure a : Run α) ρ (.value b ρ') ↔ b = a ∧ ρ' = ρ := by
  show Result.value b ρ' = .value a ρ ↔ _
  simp

@[simp] theorem pure_trap {a : α} {ρ : Env} {p : Nat} : ¬(pure a : Run α) ρ (.trap p) := by
  show ¬Result.trap p = .value a ρ
  simp

@[simp] theorem bind_value {x : Run α} {f : α → Run β} {b : β} {ρ ρ' : Env} :
    (x >>= f) ρ (.value b ρ') ↔ ∃ a ρ₁, x ρ (.value a ρ₁) ∧ f a ρ₁ (.value b ρ') := by
  show Run.bind x f ρ (.value b ρ') ↔ _
  simp [Run.bind]

@[simp] theorem bind_trap {x : Run α} {f : α → Run β} {ρ : Env} {p : Nat} :
    (x >>= f) ρ (.trap p) ↔ (∃ a ρ₁, x ρ (.value a ρ₁) ∧ f a ρ₁ (.trap p)) ∨ x ρ (.trap p) := by
  show Run.bind x f ρ (.trap p) ↔ _
  simp [Run.bind]

theorem pure_bind (a : α) (f : α → Run β) : (pure a >>= f) = f a := by
  funext ρ r
  cases r with
  | value b ρ' =>
    simp only [bind_value, pure_value, eq_iff_iff]
    constructor
    · rintro ⟨a', ρ₁, ⟨rfl, rfl⟩, h⟩
      exact h
    · intro h
      exact ⟨a, ρ, ⟨rfl, rfl⟩, h⟩
  | trap p =>
    simp only [bind_trap, pure_value, pure_trap, or_false, eq_iff_iff]
    constructor
    · rintro ⟨a', ρ₁, ⟨rfl, rfl⟩, h⟩
      exact h
    · intro h
      exact ⟨a, ρ, ⟨rfl, rfl⟩, h⟩

theorem bind_pure (x : Run α) : (x >>= fun a => pure a) = x := by
  funext ρ r
  cases r with
  | value b ρ' =>
    simp only [bind_value, pure_value, eq_iff_iff]
    constructor
    · rintro ⟨a, ρ₁, h, rfl, rfl⟩
      exact h
    · intro h
      exact ⟨b, ρ', h, rfl, rfl⟩
  | trap p => simp

@[simp] theorem read_value {k : Key} {v : Int} {ρ ρ' : Env} :
    read k ρ (.value v ρ') ↔ v = ρ k ∧ ρ' = ρ := by simp [read]

@[simp] theorem read_trap {k : Key} {ρ : Env} {p : Nat} : ¬read k ρ (.trap p) := by simp [read]

@[simp] theorem write_value {k : Key} {v : Int} {u : Unit} {ρ ρ' : Env} :
    write k v ρ (.value u ρ') ↔ ρ' = Function.update ρ k v := by simp [write]

@[simp] theorem write_trap {k : Key} {v : Int} {ρ : Env} {p : Nat} : ¬write k v ρ (.trap p) := by
  simp [write]

@[simp] theorem choose_value {P : α → Prop} {a : α} {ρ ρ' : Env} :
    choose P ρ (.value a ρ') ↔ P a ∧ ρ' = ρ := by
  simp only [choose, Result.value.injEq]
  constructor
  · rintro ⟨b, hb, rfl, rfl⟩
    exact ⟨hb, rfl⟩
  · rintro ⟨ha, rfl⟩
    exact ⟨a, ha, rfl, rfl⟩

@[simp] theorem choose_trap {P : α → Prop} {ρ : Env} {p : Nat} : ¬choose P ρ (.trap p) := by
  simp [choose]

def compute (pos : Nat) (op : Operator) (a b : Int) : Run Int :=
  if op.isDivision = true ∧ b = 0 then trap pos else choose (op.Gives a b)

theorem compute_value {pos : Nat} {op : Operator} {a b v : Int} {ρ ρ' : Env}
    (h : compute pos op a b ρ (.value v ρ')) : op.Gives a b v ∧ ρ' = ρ := by
  unfold compute at h
  split at h
  · simp [trap] at h
  · exact choose_value.mp h

theorem compute_trap {pos : Nat} {op : Operator} {a b : Int} {ρ : Env} {p : Nat}
    (h : compute pos op a b ρ (.trap p)) : p = pos ∧ op.isDivision = true ∧ b = 0 := by
  unfold compute at h
  split at h
  · rename_i hc
    exact ⟨by simpa [trap] using h, hc⟩
  · simp at h

theorem compute_bind_value {pos : Nat} {op : Operator} {a b : Int} {g : Int → Run β} {d : β}
    {ρ ρ' : Env} (h : (compute pos op a b >>= g) ρ (.value d ρ')) :
    ∃ v, op.Gives a b v ∧ g v ρ (.value d ρ') := by
  obtain ⟨v, ρ₁, hv, hg⟩ := bind_value.mp h
  obtain ⟨hgives, hρ⟩ := compute_value hv
  exact ⟨v, hgives, hρ ▸ hg⟩

theorem compute_bind_trap {pos : Nat} {op : Operator} {a b : Int} {g : Int → Run β} {ρ : Env} {p : Nat}
    (h : (compute pos op a b >>= g) ρ (.trap p)) :
    (∃ v, op.Gives a b v ∧ g v ρ (.trap p)) ∨ p = pos ∧ op.isDivision = true ∧ b = 0 := by
  rcases bind_trap.mp h with ⟨v, ρ₁, hv, hg⟩ | h
  · obtain ⟨hgives, hρ⟩ := compute_value hv
    exact .inl ⟨v, hgives, hρ ▸ hg⟩
  · exact .inr (compute_trap h)

def Still (x : Run α) : Prop := ∀ ⦃ρ : Env⦄ ⦃a : α⦄ ⦃ρ' : Env⦄, x ρ (.value a ρ') → ρ' = ρ

theorem Still.pure (a : α) : Still (Pure.pure a : Run α) := fun _ _ _ h => (pure_value.mp h).2

theorem Still.bind {x : Run α} {f : α → Run β} (hx : Still x) (hf : ∀ a, Still (f a)) :
    Still (x >>= f) := by
  intro ρ b ρ' h
  obtain ⟨a, ρ₁, ha, hb⟩ := bind_value.mp h
  rw [hf a hb, hx ha]

end Run

/-- Integer expressions. Divisions know the position they are written at. -/
inductive Term
  | literal (digits : List Char)
  | var (k : Key)
  | arithmetic (pos : Nat) (op : Operator) (left right : Term)
  | assign (target value : Term)
  | compound (pos : Nat) (op : Operator) (target value : Term)
  | step (up : Bool) (target : Term)
  | minus (operand : Term)
  | plus (operand : Term)
  | not (operand : Term)
  | comparison (c : Comparison) (left right : Term)
  | logical (conj : Bool) (left right : Term)
  | conditional (test yes no : Term)
  | comma (first second : Term)

namespace Term

mutual

/-- The runs of a term. A step before or after its variable gives the new value or the old one. A
conjunction runs its right side where the left one is true, a disjunction where it is false. -/
def run : Term → Run Int
  | literal digits => pure (Nat.ofDigitChars 10 digits 0)
  | var k => .read k
  | arithmetic pos op l r => do
    let a ← l.run
    let b ← r.run
    .compute pos op a b
  | assign target e => do
    let v ← e.run
    let k ← target.place
    .write k v
    pure v
  | compound pos op target e => do
    let b ← e.run
    let k ← target.place
    let a ← Run.read k
    let v ← Run.compute pos op a b
    .write k v
    pure v
  | step up target => do
    let k ← target.place
    let old ← Run.read k
    let new := if up then old + 1 else old - 1
    .write k new
    .choose fun v => v = old ∨ v = new
  | minus e => do
    let v ← e.run
    pure (-v)
  | plus e => e.run
  | not e => do
    let v ← e.run
    pure (decide (v = 0)).toInt
  | comparison c l r => do
    let a ← l.run
    let b ← r.run
    pure (c.holds a b).toInt
  | logical conj l r => do
    let a ← l.run
    if decide (a ≠ 0) = conj then do
      let b ← r.run
      pure (decide (b ≠ 0)).toInt
    else pure (!conj).toInt
  | conditional test yes no => do
    let a ← test.run
    if a ≠ 0 then yes.run else no.run
  | comma first second => do
    let _ ← first.run
    second.run

/-- The variable a term stands for where it is assigned or stepped. What was assigned or stepped stands for
its own target afterwards; a term that stands for no variable has no run here. -/
def place : Term → Run Key
  | var k => pure k
  | assign target e => do
    let v ← e.run
    let k ← target.place
    .write k v
    pure k
  | compound pos op target e => do
    let b ← e.run
    let k ← target.place
    let a ← Run.read k
    let v ← Run.compute pos op a b
    .write k v
    pure k
  | step up target => do
    let k ← target.place
    let old ← Run.read k
    .write k (if up then old + 1 else old - 1)
    pure k
  | conditional test yes no => do
    let a ← test.run
    if a ≠ 0 then yes.place else no.place
  | comma first second => do
    let _ ← first.run
    second.place
  | literal _ | arithmetic .. | minus _ | plus _ | not _ | comparison .. | logical .. => .never

end

/-- The variable the term is, if it is one. -/
def name? : Term → Option Key
  | var k => some k
  | _ => none

/-- Whatever the term assigns or steps is a variable by its name. -/
def namesTargets : Term → Bool
  | literal _ | var _ => true
  | step _ target => target.name?.isSome
  | assign target e | compound _ _ target e => target.name?.isSome && e.namesTargets
  | minus e | plus e | not e => e.namesTargets
  | arithmetic _ _ l r | comparison _ l r | logical _ l r | comma l r => l.namesTargets && r.namesTargets
  | conditional test yes no => test.namesTargets && yes.namesTargets && no.namesTargets

def isPure : Term → Bool
  | literal _ | var _ => true
  | assign .. | compound .. | step .. => false
  | minus e | plus e | not e => e.isPure
  | arithmetic _ _ l r | comparison _ l r | logical _ l r | comma l r => l.isPure && r.isPure
  | conditional test yes no => test.isPure && yes.isPure && no.isPure

/-- Whatever the term tests is pure. -/
def testsPure : Term → Bool
  | literal _ | var _ => true
  | step _ e | minus e | plus e | not e => e.testsPure
  | assign l r | compound _ _ l r | arithmetic _ _ l r | comparison _ l r | comma l r =>
    l.testsPure && r.testsPure
  | logical _ l r => l.isPure && l.testsPure && r.testsPure
  | conditional test yes no => test.isPure && test.testsPure && yes.testsPure && no.testsPure

/-- The term is tested by its value: it is no comparison and no logical operator. -/
def isValue : Term → Bool
  | not _ | comparison .. | logical .. => false
  | _ => true

def literals : Term → List (List Char)
  | literal digits => [digits]
  | var _ => []
  | step _ e | minus e | plus e | not e => e.literals
  | assign l r | compound _ _ l r | arithmetic _ _ l r | comparison _ l r | logical _ l r | comma l r =>
    l.literals ++ r.literals
  | conditional test yes no => test.literals ++ yes.literals ++ no.literals

theorem eq_var_of_name {t : Term} (h : t.name?.isSome = true) : ∃ k, t = .var k := by
  cases t with
  | var k => exact ⟨k, rfl⟩
  | _ => cases h

section Targets

variable (k : Key) (e : Term) (pos : Nat) (op : Operator) (up : Bool)

theorem run_assign_var : (assign (var k) e).run = (do
    let v ← e.run
    .write k v
    pure v) := by
  simp only [run, place, Run.pure_bind]

theorem run_compound_var : (compound pos op (var k) e).run = (do
    let b ← e.run
    let a ← Run.read k
    let v ← Run.compute pos op a b
    .write k v
    pure v) := by
  simp only [run, place, Run.pure_bind]

theorem run_step_var : (step up (var k)).run = (do
    let old ← Run.read k
    let new := if up then old + 1 else old - 1
    .write k new
    .choose fun v => v = old ∨ v = new) := by
  simp only [run, place, Run.pure_bind]

end Targets

theorem run_still {t : Term} (ht : t.isPure = true) : t.run.Still := by
  induction t with
  | literal digits =>
    rw [run]
    exact .pure _
  | var k => exact fun _ _ _ h => (Run.read_value.mp h).2
  | assign | compound | step => simp [isPure] at ht
  | minus e ih | not e ih =>
    rw [run]
    exact (ih ht).bind fun _ => .pure _
  | plus e ih =>
    rw [run]
    exact ih ht
  | arithmetic pos op l r ihl ihr =>
    rw [isPure, Bool.and_eq_true] at ht
    rw [run]
    exact (ihl ht.1).bind fun a => (ihr ht.2).bind fun b _ _ _ h => (Run.compute_value h).2
  | comparison c l r ihl ihr =>
    rw [isPure, Bool.and_eq_true] at ht
    rw [run]
    exact (ihl ht.1).bind fun a => (ihr ht.2).bind fun b => .pure _
  | logical conj l r ihl ihr =>
    rw [isPure, Bool.and_eq_true] at ht
    rw [run]
    refine (ihl ht.1).bind fun a => ?_
    split
    · exact (ihr ht.2).bind fun b => .pure _
    · exact .pure _
  | conditional test yes no iht ihy ihn =>
    rw [isPure, Bool.and_eq_true, Bool.and_eq_true] at ht
    rw [run]
    refine (iht ht.1.1).bind fun a => ?_
    split
    · exact ihy ht.1.2
    · exact ihn ht.2
  | comma first second ihf ihs =>
    rw [isPure, Bool.and_eq_true] at ht
    rw [run]
    exact (ihf ht.1).bind fun _ => ihs ht.2

theorem testsPure_of_isPure {t : Term} (h : t.isPure = true) : t.testsPure = true := by
  induction t with
  | literal | var => rfl
  | assign | compound | step => cases h
  | minus e ih | plus e ih | not e ih => exact ih h
  | arithmetic pos op l r ihl ihr | comparison c l r ihl ihr | comma l r ihl ihr =>
    rw [isPure, Bool.and_eq_true] at h
    rw [testsPure, ihl h.1, ihr h.2]
    rfl
  | logical conj l r ihl ihr =>
    rw [isPure, Bool.and_eq_true] at h
    rw [testsPure, h.1, ihl h.1, ihr h.2]
    rfl
  | conditional test yes no iht ihy ihn =>
    rw [isPure, Bool.and_eq_true, Bool.and_eq_true] at h
    rw [testsPure, h.1.1, iht h.1.1, ihy h.1.2, ihn h.2]
    rfl

theorem namesTargets_of_isPure {t : Term} (h : t.isPure = true) : t.namesTargets = true := by
  induction t with
  | literal | var => rfl
  | assign | compound | step => cases h
  | minus e ih | plus e ih | not e ih => exact ih h
  | arithmetic pos op l r ihl ihr | comparison c l r ihl ihr | logical conj l r ihl ihr
  | comma l r ihl ihr =>
    rw [isPure, Bool.and_eq_true] at h
    rw [namesTargets, ihl h.1, ihr h.2]
    rfl
  | conditional test yes no iht ihy ihn =>
    rw [isPure, Bool.and_eq_true, Bool.and_eq_true] at h
    rw [namesTargets, iht h.1.1, ihy h.1.2, ihn h.2]
    rfl

end Term

namespace Token

def IsInt (t : Token) : Prop := t.type = some { base := .int }

/-- The outcome of a comparison or a logical operator: an `int` or a `bool`. -/
def IsTruth (t : Token) : Prop := t.IsInt ∨ ∃ unsigned, t.type = some { base := .bool, unsigned }

/-- No variable belongs to the token, and nothing is known of its value. -/
structure IsPlain (t : Token) : Prop where
  key : t.variableKey = none
  declared : t.declaredAt = none
  values : t.values = []

structure IsOperator (t : Token) (text : String) : Prop extends t.IsPlain where
  text_eq : t.text = text

structure Names (t : Token) (k : Key) : Prop where
  key : t.variableKey = some k
  type : t.IsInt
  notNumber : t.isNumber = false
  notChar : t.isChar = false
  values : t.values = []

structure IsDecimal (t : Token) (digits : List Char) : Prop extends t.IsPlain where
  text_eq : t.text.toList = digits
  number : t.isNumber = true
  type : t.IsInt
  nonempty : digits ≠ []
  digit : ∀ c ∈ digits, c.isDigit = true

end Token

/-- The tree of tokens stands for the term. Any term may be the target of an assignment or a step; where the
targets have to be variables, `Term.namesTargets` says so. -/
inductive Reads : Expr → Term → Prop
  | literal {pos : Nat} {t : Token} {digits : List Char} (ht : t.IsDecimal digits) :
    Reads (.node pos t .absent .absent) (.literal digits)
  | var {pos : Nat} {t : Token} {k : Key} (ht : t.Names k) :
    Reads (.node pos t .absent .absent) (.var k)
  | arithmetic {pos : Nat} {t : Token} {op : Operator} {l r : Expr} {a b : Term}
    (ht : t.IsOperator op.symbol) (type : t.IsInt) (hl : Reads l a) (hr : Reads r b) :
    Reads (.node pos t l r) (.arithmetic pos op a b)
  | assign {pos : Nat} {t : Token} {l r : Expr} {a b : Term} (ht : t.IsOperator "=")
    (type : t.IsInt) (hl : Reads l a) (hr : Reads r b) : Reads (.node pos t l r) (.assign a b)
  | compound {pos : Nat} {t : Token} {op : Operator} {l r : Expr} {a b : Term}
    (ht : t.IsOperator (op.symbol ++ "=")) (type : t.IsInt) (hl : Reads l a) (hr : Reads r b) :
    Reads (.node pos t l r) (.compound pos op a b)
  | stepBefore {pos : Nat} {t : Token} {up : Bool} {l : Expr} {a : Term}
    (ht : t.IsOperator (if up then "++" else "--")) (type : t.IsInt) (hl : Reads l a) :
    Reads (.node pos t l .absent) (.step up a)
  | stepAfter {pos : Nat} {t : Token} {up : Bool} {r : Expr} {a : Term}
    (ht : t.IsOperator (if up then "++" else "--")) (type : t.IsInt) (hr : Reads r a) :
    Reads (.node pos t .absent r) (.step up a)
  | minus {pos : Nat} {t : Token} {l : Expr} {a : Term} (ht : t.IsOperator "-") (type : t.IsInt)
    (hl : Reads l a) : Reads (.node pos t l .absent) (.minus a)
  | plus {pos : Nat} {t : Token} {l : Expr} {a : Term} (ht : t.IsOperator "+") (type : t.IsInt)
    (hl : Reads l a) : Reads (.node pos t l .absent) (.plus a)
  | not {pos : Nat} {t : Token} {l : Expr} {a : Term} (ht : t.IsOperator "!") (type : t.IsTruth)
    (hl : Reads l a) : Reads (.node pos t l .absent) (.not a)
  | comparison {pos : Nat} {t : Token} {c : Comparison} {l r : Expr} {a b : Term}
    (ht : t.IsOperator c.symbol) (type : t.IsTruth) (hl : Reads l a) (hr : Reads r b) :
    Reads (.node pos t l r) (.comparison c a b)
  | logical {pos : Nat} {t : Token} {conj : Bool} {l r : Expr} {a b : Term}
    (ht : t.IsOperator (if conj then "&&" else "||")) (type : t.IsTruth) (hl : Reads l a)
    (hr : Reads r b) : Reads (.node pos t l r) (.logical conj a b)
  | conditional {pos q : Nat} {t colon : Token} {l y n : Expr} {a b d : Term}
    (ht : t.IsOperator "?") (type : t.IsInt) (hc : colon.text = ":") (hv : colon.values = [])
    (hl : Reads l a) (hy : Reads y b) (hn : Reads n d) :
    Reads (.node pos t l (.node q colon y n)) (.conditional a b d)
  | comma {pos : Nat} {t : Token} {l r : Expr} {a b : Term} (ht : t.IsOperator ",")
    (type : t.IsInt) (hl : Reads l a) (hr : Reads r b) : Reads (.node pos t l r) (.comma a b)

namespace Reads

variable {e : Expr} {t : Term}

theorem type (h : Reads e t) : ∃ base unsigned, e.type? = some { base, unsigned } ∧
    (base = .int ∧ unsigned = false ∨ base = .bool) := by
  have int : ∀ {t : Token}, t.IsInt → ∃ base unsigned, t.type = some { base, unsigned } ∧
      (base = .int ∧ unsigned = false ∨ base = .bool) :=
    fun h => ⟨_, _, h, .inl ⟨rfl, rfl⟩⟩
  have truth : ∀ {t : Token}, t.IsTruth → ∃ base unsigned, t.type = some { base, unsigned } ∧
      (base = .int ∧ unsigned = false ∨ base = .bool) := by
    rintro t (h | ⟨u, h⟩)
    · exact int h
    · exact ⟨_, _, h, .inr rfl⟩
  cases h with
  | literal ht => exact int ht.type
  | var ht => exact int ht.type
  | not ht type | comparison ht type | logical ht type => exact truth type
  | _ => exact int (by assumption)

theorem isAbsent (h : Reads e t) : e.isAbsent = false := by cases h <;> rfl

theorem of_name (h : Reads e t) (ht : t.name?.isSome = true) :
    ∃ pos v k, e = .node pos v .absent .absent ∧ t = .var k ∧ v.Names k := by
  cases h with
  | var hv => exact ⟨_, _, _, rfl, rfl, hv⟩
  | _ => cases ht

/-- Only a variable's own token names it. -/
theorem key (h : Reads e t) {k : Key} (hk : e.key? = some k) : t = .var k := by
  have none : ∀ {t : Token}, t.IsPlain → t.variableKey = some k → False := by
    intro t ht hk
    rw [ht.key] at hk
    cases hk
  cases h with
  | var ht => exact congrArg Term.var (Option.some.inj (ht.key.symm.trans hk))
  | literal ht => exact (none ht.toIsPlain hk).elim
  | arithmetic ht | assign ht | compound ht | stepBefore ht | stepAfter ht | minus ht | plus ht
  | not ht | comparison ht | logical ht | conditional ht | comma ht =>
    exact (none ht.toIsPlain hk).elim

end Reads

end SignFlow

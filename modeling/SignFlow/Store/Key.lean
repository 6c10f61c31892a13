import SignFlow.Text.Order
import SignFlow.Text.Quoted

/-! The names stores bind: variable numbers and variable texts.

Keys are linearly ordered, numbers before texts, which gives every store one written form. -/

namespace SignFlow

inductive Key
  | id (n : Int)
  | name (s : String)
  deriving DecidableEq, Repr

namespace Key

def lt : Key → Key → Bool
  | id a, id b => decide (a < b)
  | id _, name _ => true
  | name _, id _ => false
  | name a, name b => Text.lt a b

instance : LT Key := ⟨fun a b => a.lt b = true⟩

instance (a b : Key) : Decidable (a < b) := inferInstanceAs (Decidable (a.lt b = true))

theorem lt_irrefl (a : Key) : ¬a < a := by
  show ¬a.lt a = true
  cases a with
  | id n => simp [lt]
  | name s => simp [lt, Text.lt_self]

theorem lt_trans {a b c : Key} (h : a < b) (k : b < c) : a < c := by
  have h : a.lt b = true := h
  have k : b.lt c = true := k
  show a.lt c = true
  cases a <;> cases b <;> cases c <;> simp_all [lt]
  · omega
  · exact Text.lt_of_lt h k

theorem lt_or_eq_or_gt (a b : Key) : a < b ∨ a = b ∨ b < a := by
  show a.lt b = true ∨ a = b ∨ b.lt a = true
  cases a with
  | id m =>
    cases b with
    | id n => simp [lt]; omega
    | name t => simp [lt]
  | name s =>
    cases b with
    | id n => simp [lt]
    | name t =>
      rcases Text.lt_connex s t with h | rfl | h
      · exact .inl h
      · exact .inr (.inl rfl)
      · exact .inr (.inr h)

theorem ne_of_lt {a b : Key} (h : a < b) : a ≠ b :=
  fun e => lt_irrefl b (e ▸ h)

theorem not_lt_of_lt {a b : Key} (h : a < b) : ¬b < a :=
  fun k => lt_irrefl a (lt_trans h k)

/-- A key as messages show it. -/
def display : Key → String
  | id n => toString n
  | name s => Text.quoted s

end Key

end SignFlow

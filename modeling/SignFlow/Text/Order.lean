/-! Texts in the order of their characters' code points. -/

namespace SignFlow.Text

def charsLt : List Char → List Char → Bool
  | _, [] => false
  | [], _ :: _ => true
  | a :: as, b :: bs => a.toNat < b.toNat || (a == b && charsLt as bs)

theorem charsLt_irrefl (as : List Char) : charsLt as as = false := by
  induction as with
  | nil => rfl
  | cons a as ih => simp [charsLt, ih]

theorem charsLt_trans {as bs cs : List Char} (h : charsLt as bs = true) (k : charsLt bs cs = true) :
    charsLt as cs = true := by
  induction as generalizing bs cs with
  | nil =>
    cases cs with
    | nil => simp [charsLt] at k
    | cons c cs => rfl
  | cons a as ih =>
    cases bs with
    | nil => simp [charsLt] at h
    | cons b bs =>
      cases cs with
      | nil => simp [charsLt] at k
      | cons c cs =>
        simp only [charsLt, Bool.or_eq_true, Bool.and_eq_true, decide_eq_true_eq, beq_iff_eq] at h k ⊢
        rcases h with h | ⟨rfl, h⟩
        · rcases k with k | ⟨rfl, _⟩
          · exact .inl (Nat.lt_trans h k)
          · exact .inl h
        · rcases k with k | ⟨rfl, k⟩
          · exact .inl k
          · exact .inr ⟨rfl, ih h k⟩

theorem charsLt_connex (as bs : List Char) : charsLt as bs = true ∨ as = bs ∨ charsLt bs as = true := by
  induction as generalizing bs with
  | nil =>
    cases bs with
    | nil => exact .inr (.inl rfl)
    | cons b bs => exact .inl rfl
  | cons a as ih =>
    cases bs with
    | nil => exact .inr (.inr rfl)
    | cons b bs =>
      simp only [charsLt, Bool.or_eq_true, Bool.and_eq_true, decide_eq_true_eq, beq_iff_eq]
      rcases Nat.lt_trichotomy a.toNat b.toNat with h | h | h
      · exact .inl (.inl h)
      · have e : a = b := Char.toNat_inj.mp h
        subst e
        rcases ih bs with h | rfl | h
        · exact .inl (.inr ⟨rfl, h⟩)
        · exact .inr (.inl rfl)
        · exact .inr (.inr (.inr ⟨rfl, h⟩))
      · exact .inr (.inr (.inl h))

def lt (a b : String) : Bool := charsLt a.toList b.toList

theorem lt_self (a : String) : lt a a = false := charsLt_irrefl a.toList

theorem lt_of_lt {a b c : String} (h : lt a b = true) (k : lt b c = true) : lt a c = true :=
  charsLt_trans h k

theorem lt_connex (a b : String) : lt a b = true ∨ a = b ∨ lt b a = true := by
  rcases charsLt_connex a.toList b.toList with h | h | h
  · exact .inl h
  · exact .inr (.inl (String.toList_inj.mp h))
  · exact .inr (.inr h)

/-- Not behind the other text. -/
def le (a b : String) : Bool := !lt b a

/-- Texts in order; equal ones stay as they stand. -/
def sort (texts : List String) : List String := texts.mergeSort le

/-- Entries in the order of their texts. -/
def sortByName {α : Type} (entries : List (String × α)) : List (String × α) :=
  entries.mergeSort fun a b => le a.1 b.1

end SignFlow.Text

import Mathlib.Tactic
import SignFlow.Proofs.Covers
import SignFlow.Syntax.Literal

/-! Decimal literals and their signs.

A literal of decimal digits has the sign of the number it writes, unless it has more digits than are
read. -/

namespace SignFlow

namespace Text

theorem isDigit_range {c : Char} (h : c.isDigit = true) : 48 ≤ c.toNat ∧ c.toNat ≤ 57 := by
  simp only [Char.isDigit, ge_iff_le, Bool.and_eq_true, decide_eq_true_eq, UInt32.le_iff_toNat_le] at h
  exact h

theorem digitValue?_digit {c : Char} (h : c.isDigit = true) :
    digitValue? c = some (c.toNat - '0'.toNat) := by
  obtain ⟨hl, hr⟩ := isDigit_range h
  have hz : zeros.find? (fun z => z ≤ c.toNat && c.toNat < z + 10) = some 0x30 := by
    rw [zeros, List.find?_cons_of_pos]
    simp only [Bool.and_eq_true, decide_eq_true_eq]
    omega
  rw [digitValue?, hz]
  rfl

theorem isBlank_digit {c : Char} (h : c.isDigit = true) : isBlank c = false := by
  obtain ⟨hl, hr⟩ := isDigit_range h
  simp [isBlank, blanks, Ranges.has]
  omega

theorem dropBlanks_digits {ds : List Char} (hd : ∀ c ∈ ds, c.isDigit = true) : dropBlanks ds = ds := by
  cases ds with
  | nil => rfl
  | cons c rest => exact List.dropWhile_cons_of_neg (by simp [isBlank_digit (hd c (by simp))])

end Text

namespace Integer

theorem digitIn?_digit {c : Char} (h : c.isDigit = true) :
    digitIn? 10 c = some (c.toNat - '0'.toNat) := by
  have hlt : c.toNat - '0'.toNat < 10 := by
    have := Text.isDigit_range h
    have : '0'.toNat = 48 := rfl
    omega
  rw [digitIn?, valueOf?, Text.digitValue?_digit h]
  simpa [Option.filter] using hlt

/-- A run of digits and nothing else. -/
theorem digits_all {base : Nat} {value : Char → Nat} {ds : List Char}
    (hd : ∀ c ∈ ds, digitIn? base c = some (value c)) (afterDigit : Bool) :
    digits base afterDigit ds = (ds.map value, !afterDigit && ds.isEmpty, []) := by
  induction ds generalizing afterDigit with
  | nil => simp [digits]
  | cons c rest ih =>
    rw [digits, hd c (by simp)]
    simp [ih fun x hx => hd x (by simp [hx])]

theorem ofDigits_digits (ds : List Char) :
    ofDigits 10 (ds.map fun c => c.toNat - '0'.toNat) = Nat.ofDigitChars 10 ds 0 := by
  simp only [ofDigits, Nat.ofDigitChars, List.foldl_map, Nat.mul_comm]

theorem takeSign_cons {c : Char} {rest : List Char} (hplus : c ≠ '+') (hminus : c ≠ '-') :
    takeSign (c :: rest) = (false, c :: rest) := by
  unfold takeSign
  split
  · next h => exact absurd (List.cons.inj h).1 hplus
  · next h => exact absurd (List.cons.inj h).1 hminus
  · rfl

theorem read_digits {ds : List Char} (hne : ds ≠ []) (hd : ∀ c ∈ ds, c.isDigit = true) :
    read (String.ofList ds) =
      if Fault.maxDigits < ds.length then .error (.tooManyDigits ds.length)
      else .ok (Nat.ofDigitChars 10 ds 0) := by
  obtain ⟨c, rest, rfl⟩ := List.exists_cons_of_ne_nil hne
  have hc := hd c (by simp)
  have hsign : takeSign (c :: rest) = (false, c :: rest) :=
    takeSign_cons (by rintro rfl; exact absurd hc (by decide)) (by rintro rfl; exact absurd hc (by decide))
  have hdigits : digits 10 false (c :: rest) =
      ((c :: rest).map fun c => c.toNat - '0'.toNat, false, []) :=
    digits_all (fun x hx => digitIn?_digit (hd x hx)) false
  simp only [read, String.toList_ofList, Text.dropBlanks_digits hd, hsign, hdigits, ofDigits_digits,
    List.length_map, signed]
  simp [Text.dropBlanks]

end Integer

namespace Literal

theorem dropEnd_append {drop : Char → Bool} {cs suffix : List Char} (hs : ∀ c ∈ suffix, drop c = true)
    (hcs : ∀ c ∈ cs.getLast?, drop c = false) : dropEnd drop (cs ++ suffix) = cs := by
  rw [dropEnd, List.reverse_append, List.dropWhile_append_of_pos (by simpa using hs)]
  cases cs.eq_nil_or_concat' with
  | inl h => simp [h]
  | inr h =>
    obtain ⟨front, c, rfl⟩ := h
    have hc : drop c = false := hcs c (by simp)
    simp [hc]

theorem isIntegerSuffix_digit {c : Char} (h : c.isDigit = true) : isIntegerSuffix c = false := by
  have hrange := Text.isDigit_range h
  by_contra hc
  simp only [Bool.not_eq_false, isIntegerSuffix, List.contains_iff_mem, List.mem_cons, List.not_mem_nil,
    or_false] at hc
  rcases hc with rfl | rfl | rfl | rfl <;> revert hrange <;> decide

/-- The sign of a decimal number with a suffix. -/
theorem unsigned_suffixed {ds suffix : List Char} (hne : ds ≠ []) (hd : ∀ c ∈ ds, c.isDigit = true)
    (hs : ∀ c ∈ suffix, isIntegerSuffix c = true) :
    unsigned (ds ++ suffix) =
      if Fault.maxDigits < ds.length then .error (.tooManyDigits ds.length)
      else .ok (.ofInt (Nat.ofDigitChars 10 ds 0)) := by
  have hconstant : constant? (ds ++ suffix) = none := by
    refine if_neg fun h => ?_
    obtain ⟨c, rest, rfl⟩ := List.exists_cons_of_ne_nil hne
    have hc := hd c (by simp)
    have : c = Text.single := Option.some.inj h.2.1
    subst this
    exact absurd hc (by decide)
  have hsuffix : dropEnd isIntegerSuffix (ds ++ suffix) = ds :=
    dropEnd_append hs fun c hc => isIntegerSuffix_digit (hd c (List.mem_of_getLast? hc))
  have hlike : (!ds.isEmpty && ds.all Text.isDigitLike) = true := by
    simp only [Bool.and_eq_true, Bool.not_eq_true', List.isEmpty_eq_false_iff, List.all_eq_true]
    refine ⟨hne, fun c hc => ?_⟩
    simp [Text.isDigitLike, Text.digitValue?_digit (hd c hc)]
  rw [unsigned, hconstant]
  simp only [number?, hsuffix, hlike, if_true, Integer.read_digits hne hd]
  split <;> rfl

/-- The sign of a decimal number. -/
theorem unsigned_digits {ds : List Char} (hne : ds ≠ []) (hd : ∀ c ∈ ds, c.isDigit = true) :
    unsigned ds =
      if Fault.maxDigits < ds.length then .error (.tooManyDigits ds.length)
      else .ok (.ofInt (Nat.ofDigitChars 10 ds 0)) := by
  rw [← unsigned_suffixed hne hd (fun _ h => absurd h List.not_mem_nil), List.append_nil]

theorem filter_blanks {cs : List Char} (h : ' ' ∉ cs) : cs.filter (· ≠ ' ') = cs :=
  List.filter_eq_self.mpr fun _ hc => decide_eq_true fun heq => h (heq ▸ hc)

theorem sign_plain {text : String} {cs : List Char} (h : text.toList.filter (· ≠ ' ') = cs)
    (hcs : cs.head? ≠ some '-') : Literal.sign text = unsigned cs := by
  rw [Literal.sign, h]
  split
  · exact absurd rfl hcs
  · rfl

theorem sign_minus {text : String} {cs : List Char} (h : text.toList.filter (· ≠ ' ') = '-' :: cs) :
    Literal.sign text = (unsigned cs).map Sign.negate := by
  rw [Literal.sign, h]
  rfl

/-- The text writes the number in decimal digits, with a minus in front if it is negative. Blanks count
for nothing. -/
inductive Writes (text : String) : List Char → Int → Prop
  | plain {ds : List Char} (h : text.toList.filter (· ≠ ' ') = ds) (hne : ds ≠ [])
    (hd : ∀ c ∈ ds, c.isDigit = true) : Writes text ds (Nat.ofDigitChars 10 ds 0)
  | minus {ds : List Char} (h : text.toList.filter (· ≠ ' ') = '-' :: ds) (hne : ds ≠ [])
    (hd : ∀ c ∈ ds, c.isDigit = true) : Writes text ds (-Nat.ofDigitChars 10 ds 0)

/-- The sign of a written number. -/
theorem Writes.sign {text : String} {ds : List Char} {n : Int} (h : Writes text ds n) :
    Literal.sign text =
      if Fault.maxDigits < ds.length then .error (.tooManyDigits ds.length) else .ok (.ofInt n) := by
  cases h with
  | plain h hne hd =>
    rw [sign_plain h fun hhead => absurd (hd '-' (List.mem_of_head? hhead)) (by decide), unsigned_digits hne hd]
  | minus h hne hd =>
    rw [sign_minus h, unsigned_digits hne hd]
    split
    · rfl
    · exact congrArg Except.ok (Sign.negate_ofInt _)

end Literal

end SignFlow

import Mathlib.Data.Nat.Digits.Defs
import SignFlow.Proofs.Decimal

/-! Integer literals of every base.

A literal is made of a mark for its base, digits and a suffix, and a minus may stand in front. What is read of
it has the sign of its value. Octal digits are read as decimal ones: that is another number, but one that is
zero for the same digits. -/

namespace SignFlow

/-- A property of the characters of a list is decided along the list, not over all characters. -/
instance Text.decidableForallMem (p : Char → Prop) [DecidablePred p] (cs : List Char) :
    Decidable (∀ c ∈ cs, p c) :=
  List.decidableBAll p cs

inductive Radix
  | decimal
  | octal
  | hexadecimal
  | binary
  deriving DecidableEq, Repr

namespace Radix

def base : Radix → Nat
  | decimal => 10
  | octal => 8
  | hexadecimal => 16
  | binary => 2

theorem base_le (r : Radix) : r.base ≤ 16 := by cases r <;> decide

theorem base_pos (r : Radix) : 0 < r.base := by cases r <;> decide

/-- What may stand before the digits to tell the base. Octal digits start with a zero instead. -/
def marks : Radix → List (List Char)
  | decimal | octal => [[]]
  | hexadecimal => [['0', 'x'], ['0', 'X']]
  | binary => [['0', 'b'], ['0', 'B']]

def smallDigits : List Char :=
  ['0', '1', '2', '3', '4', '5', '6', '7', '8', '9', 'a', 'b', 'c', 'd', 'e', 'f']

def capitalDigits : List Char :=
  ['0', '1', '2', '3', '4', '5', '6', '7', '8', '9', 'A', 'B', 'C', 'D', 'E', 'F']

/-- A digit's value is its place in a row of all digits. What is no digit has the place behind the rows. -/
def place (c : Char) : Nat := min (smallDigits.idxOf c) (capitalDigits.idxOf c)

def value (base : Nat) (digits : List Char) : Nat := Nat.ofDigits base (digits.reverse.map place)

theorem mem_digits {c : Char} (h : place c < 16) : c ∈ smallDigits ++ capitalDigits := by
  rw [List.mem_append, ← List.idxOf_lt_length_iff, ← List.idxOf_lt_length_iff]
  exact min_lt_iff.mp h

theorem place_eq_zero {c : Char} (h : place c < 16) : place c = 0 ↔ c = '0' := by
  have hall : ∀ c ∈ smallDigits ++ capitalDigits, place c = 0 ↔ c = '0' := by decide
  exact hall c (mem_digits h)

theorem place_decimal {c : Char} (h : place c < 10) : c.isDigit = true ∧ place c = c.toNat - '0'.toNat := by
  have hall : ∀ c ∈ smallDigits ++ capitalDigits, place c < 10 →
      c.isDigit = true ∧ place c = c.toNat - '0'.toNat := by decide
  exact hall c (mem_digits (by omega)) h

theorem digitIn?_place {base : Nat} {c : Char} (hb : base ≤ 16) (h : place c < base) :
    Integer.digitIn? base c = some (place c) := by
  have hall : ∀ c ∈ smallDigits ++ capitalDigits, Integer.valueOf? c = some (place c) := by decide
  rw [Integer.digitIn?, hall c (mem_digits (by omega))]
  simpa [Option.filter] using h

theorem value_eq_zero {base : Nat} (hb : 0 < base) {ds : List Char} (hd : ∀ c ∈ ds, place c < 16) :
    value base ds = 0 ↔ ∀ c ∈ ds, c = '0' := by
  have hzero : ∀ vs : List Nat, Nat.ofDigits base vs = 0 ↔ ∀ v ∈ vs, v = 0 := by
    intro vs
    induction vs with
    | nil => simp
    | cons v vs ih =>
      rw [Nat.ofDigits_cons, Nat.add_eq_zero_iff, Nat.mul_eq_zero, List.forall_mem_cons, ← ih]
      simp [hb.ne']
  rw [value, hzero, List.map_reverse]
  simp only [List.mem_reverse, List.forall_mem_map]
  exact forall₂_congr fun c hc => place_eq_zero (hd c hc)

/-- The sign of what the digits write does not depend on the base. -/
theorem ofInt_value {base : Nat} (hb : 0 < base) {ds : List Char} (hd : ∀ c ∈ ds, place c < 16) :
    Sign.ofInt (value base ds) = if ∀ c ∈ ds, c = '0' then .zero else .pos := by
  split
  · next h => rw [(value_eq_zero hb hd).mpr h]; rfl
  · next h => exact Sign.ofInt_pos (by exact_mod_cast Nat.pos_of_ne_zero (mt (value_eq_zero hb hd).mp h))

theorem ofDigits_place (base : Nat) (ds : List Char) :
    Integer.ofDigits base (ds.map place) = value base ds := by
  rw [value, List.map_reverse, Nat.ofDigits_eq_foldr, List.foldr_reverse, Integer.ofDigits]
  simp only [Nat.cast_id, Nat.mul_comm, Nat.add_comm]

end Radix

namespace Literal

open Radix

/-- Digits that could be decimal are read as such. -/
theorem unsigned_decimal {ds suffix : List Char} (hne : ds ≠ []) (hd : ∀ c ∈ ds, place c < 10)
    (hlen : ds.length ≤ 4300) (hs : ∀ c ∈ suffix, isIntegerSuffix c = true) :
    unsigned (ds ++ suffix) = .ok (.ofInt (value 10 ds)) := by
  have hplace : ds.map place = ds.map fun c => c.toNat - '0'.toNat :=
    List.map_congr_left fun c hc => (place_decimal (hd c hc)).2
  have hlimit : ¬Fault.maxDigits < ds.length := Nat.not_lt.mpr hlen
  rw [unsigned_suffixed hne (fun c hc => (place_decimal (hd c hc)).1) hs, if_neg hlimit,
    ← Integer.ofDigits_digits, ← hplace, ofDigits_place]

/-- A mark that is not empty is a zero with a letter that tells the base, which is not ten. -/
theorem marked {r : Radix} {mark : List Char} (hmark : mark ∈ r.marks) (hne : mark ≠ []) :
    ∃ letter ∈ ['x', 'X', 'b', 'B'], mark = ['0', letter] ∧ r.base ≠ 10 ∧
      ∀ ds : List Char, ds.head? ≠ some '_' → Integer.takeMark ('0' :: letter :: ds) = (r.base, ds) := by
  have hzero : Text.digitValue? '0' = some 0 := by decide
  cases r with
  | decimal => exact absurd (List.mem_singleton.mp hmark) hne
  | octal => exact absurd (List.mem_singleton.mp hmark) hne
  | hexadecimal =>
    rcases List.mem_pair.mp hmark with rfl | rfl <;> simp +contextual [base, Integer.takeMark, hzero]
  | binary =>
    rcases List.mem_pair.mp hmark with rfl | rfl <;> simp +contextual [base, Integer.takeMark, hzero]

theorem readAnyBase?_marked {r : Radix} {mark ds : List Char} (hmark : mark ∈ r.marks) (hmne : mark ≠ [])
    (hne : ds ≠ []) (hd : ∀ c ∈ ds, place c < r.base) :
    Integer.readAnyBase? (String.ofList (mark ++ ds)) = some (value r.base ds : Nat) := by
  have hscore : ds.head? ≠ some '_' := fun h =>
    absurd ((hd '_' (List.mem_of_head? h)).trans_le r.base_le) (by decide)
  have hdigits : Integer.digits r.base false ds = (ds.map place, false, []) := by
    rw [Integer.digits_all (fun c hc => digitIn?_place r.base_le (hd c hc))]
    simp [hne]
  obtain ⟨letter, -, rfl, hten, htake⟩ := marked hmark hmne
  have hblank : Text.dropBlanks (['0', letter] ++ ds) = ['0', letter] ++ ds :=
    List.dropWhile_cons_of_neg (by decide)
  have hsign : Integer.takeSign (['0', letter] ++ ds) = (false, ['0', letter] ++ ds) := rfl
  simp only [Integer.readAnyBase?, String.toList_ofList, hblank, hsign]
  simp only [List.cons_append, List.nil_append, htake ds hscore, hdigits, ofDigits_place]
  simp [hten, hne, Text.dropBlanks, Integer.signed]

theorem unsigned_marked {r : Radix} {mark ds suffix : List Char} (hmark : mark ∈ r.marks) (hmne : mark ≠ [])
    (hne : ds ≠ []) (hd : ∀ c ∈ ds, place c < r.base) (hs : ∀ c ∈ suffix, isIntegerSuffix c = true) :
    unsigned (mark ++ ds ++ suffix) = .ok (.ofInt (value r.base ds)) := by
  have hread := readAnyBase?_marked hmark hmne hne hd
  have hlast : ∀ c ∈ (mark ++ ds).getLast?, isIntegerSuffix c = false := by
    intro c hc
    rw [List.getLast?_append_of_ne_nil _ hne] at hc
    have hall : ∀ c ∈ smallDigits ++ capitalDigits, isIntegerSuffix c = false := by decide
    exact hall c (mem_digits ((hd c (List.mem_of_getLast? hc)).trans_le r.base_le))
  obtain ⟨letter, hletter, rfl, -, -⟩ := marked hmark hmne
  have hconstant : constant? (['0', letter] ++ ds ++ suffix) = none :=
    if_neg fun h => absurd (Option.some.inj h.2.1) (by decide)
  have hlike : (['0', letter] ++ ds).all Text.isDigitLike = false := by
    have hall : ∀ c ∈ ['x', 'X', 'b', 'B'], Text.isDigitLike c = false := by decide
    simp [hall letter hletter]
  rw [unsigned, hconstant]
  simp only [number?, dropEnd_append hs hlast, hlike, hread, Bool.and_false, Bool.false_eq_true, if_false]
  rfl

end Literal

/-- A written integer: a mark, digits and a suffix, and before them a minus and blanks behind it, or neither. -/
structure Numeral where
  minus : Bool
  blanks : Nat
  radix : Radix
  mark : List Char
  digits : List Char
  suffix : List Char
  mark_mem : mark ∈ radix.marks
  digits_ne_nil : digits ≠ []
  digits_lt : ∀ c ∈ digits, Radix.place c < radix.base
  octal_zero : radix = .octal → digits.head? = some '0'
  /-- More digits than these are not read where no mark tells the base. -/
  length_le : radix = .decimal ∨ radix = .octal → digits.length ≤ 4300
  suffix_mem : ∀ c ∈ suffix, c ∈ ['u', 'U', 'l', 'L']

namespace Numeral

def magnitude (l : Numeral) : List Char := l.mark ++ l.digits ++ l.suffix

def text (l : Numeral) : String :=
  String.ofList ((if l.minus then '-' :: List.replicate l.blanks ' ' else []) ++ l.magnitude)

def value (l : Numeral) : Int :=
  if l.minus then -(Radix.value l.radix.base l.digits : Int) else Radix.value l.radix.base l.digits

theorem place_lt (l : Numeral) : ∀ c ∈ l.digits, Radix.place c < 16 :=
  fun c hc => (l.digits_lt c hc).trans_le l.radix.base_le

theorem ne_of_mem_magnitude (l : Numeral) {c : Char} (h : c ∈ l.magnitude) : c ≠ ' ' ∧ c ≠ '-' := by
  have hmarks : ∀ r : Radix, ∀ mark ∈ r.marks, ∀ c ∈ mark, c ≠ ' ' ∧ c ≠ '-' := by
    intro r
    cases r <;> decide
  have hdigits : ∀ c ∈ Radix.smallDigits ++ Radix.capitalDigits, c ≠ ' ' ∧ c ≠ '-' := by decide
  have hsuffix : ∀ c ∈ ['u', 'U', 'l', 'L'], c ≠ ' ' ∧ c ≠ '-' := by decide
  rcases List.mem_append.mp h with h | h
  · rcases List.mem_append.mp h with h | h
    · exact hmarks l.radix l.mark l.mark_mem c h
    · exact hdigits c (Radix.mem_digits (l.place_lt c h))
  · exact hsuffix c (l.suffix_mem c h)

theorem filter_text (l : Numeral) :
    l.text.toList.filter (· ≠ ' ') = (if l.minus then ['-'] else []) ++ l.magnitude := by
  have hkeep : l.magnitude.filter (· ≠ ' ') = l.magnitude :=
    Literal.filter_blanks fun h => (l.ne_of_mem_magnitude h).1 rfl
  rw [text, String.toList_ofList, List.filter_append, hkeep]
  cases l.minus <;> simp

theorem unsigned_magnitude (l : Numeral) :
    Literal.unsigned l.magnitude = .ok (.ofInt (Radix.value l.radix.base l.digits)) := by
  have hs : ∀ c ∈ l.suffix, Literal.isIntegerSuffix c = true :=
    fun c hc => List.contains_iff_mem.mpr (l.suffix_mem c hc)
  by_cases hmark : l.mark = []
  · have hsmall : l.radix.base ≤ 10 ∧ (l.radix = .decimal ∨ l.radix = .octal) := by
      have hmem := l.mark_mem
      rw [hmark] at hmem
      revert hmem
      cases l.radix <;> decide
    have hread := Literal.unsigned_decimal l.digits_ne_nil
      (fun c hc => (l.digits_lt c hc).trans_le hsmall.1) (l.length_le hsmall.2) hs
    rw [magnitude, hmark, List.nil_append, hread, Radix.ofInt_value (by decide) l.place_lt,
      Radix.ofInt_value l.radix.base_pos l.place_lt]
  · exact Literal.unsigned_marked l.mark_mem hmark l.digits_ne_nil l.digits_lt hs

end Numeral

/-- The sign of an integer literal of any base, with any suffix, is that of its value: zero if all digits are
zero, and otherwise positive, or negative behind a minus. -/
theorem Literal.sign_numeral (l : Numeral) :
    Literal.sign l.text = .ok (.ofInt l.value) ∧
      Sign.ofInt l.value = if ∀ c ∈ l.digits, c = '0' then .zero else if l.minus then .neg else .pos := by
  have hvalue := Radix.ofInt_value l.radix.base_pos l.place_lt
  unfold Numeral.value
  cases hminus : l.minus with
  | false =>
    have htext : l.text.toList.filter (· ≠ ' ') = l.magnitude :=
      l.filter_text.trans (by rw [hminus]; rfl)
    have hhead : l.magnitude.head? ≠ some '-' := fun h => (l.ne_of_mem_magnitude (List.mem_of_head? h)).2 rfl
    refine ⟨?_, by simpa using hvalue⟩
    rw [Literal.sign_plain htext hhead, l.unsigned_magnitude]
    rfl
  | true =>
    have htext : l.text.toList.filter (· ≠ ' ') = '-' :: l.magnitude :=
      l.filter_text.trans (by rw [hminus]; rfl)
    simp only [if_true, ← Sign.negate_ofInt]
    refine ⟨?_, ?_⟩
    · rw [Literal.sign_minus htext, l.unsigned_magnitude]
      rfl
    · rw [hvalue]
      split <;> rfl

/-- A hexadecimal with a sign, blanks and a suffix. -/
def Numeral.suffixed : Numeral where
  minus := true
  blanks := 2
  radix := .hexadecimal
  mark := ['0', 'x']
  digits := ['1', 'F']
  suffix := ['u', 'L']
  mark_mem := by decide
  digits_ne_nil := by decide
  digits_lt := by decide
  octal_zero := by decide
  length_le := by decide
  suffix_mem := by decide

theorem Literal.sign_numeral_suffixed :
    Numeral.suffixed.text = "-  0x1FuL" ∧ Numeral.suffixed.value = -31 ∧
      Literal.sign "-  0x1FuL" = .ok .neg := by
  have htext : Numeral.suffixed.text = "-  0x1FuL" := by decide
  have hvalue : Numeral.suffixed.value = -31 := by decide
  obtain ⟨hsign, -⟩ := sign_numeral Numeral.suffixed
  rw [htext, hvalue] at hsign
  exact ⟨htext, hvalue, hsign⟩

end SignFlow

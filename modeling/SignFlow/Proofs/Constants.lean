import SignFlow.Proofs.FixedWidth
import SignFlow.Proofs.Names

/-! Character constants.

A constant is one character between quotes, written as it is or as an escape, and a prefix may tell the type
that holds it. Its sign is sound, with an exception: of the many ways to write the null character as an escape
only four are taken for zero. -/

namespace SignFlow

open Text

/-- The numbers that a target gives to characters. Zero is the number of the null character only. -/
structure Charset where
  number : Char → Nat
  number_eq_zero : ∀ c, number c = 0 ↔ c = '\x00'

def simpleEscapes : List (Char × Char) :=
  [(single, single), (double, double), ('?', '?'), (backslash, backslash), ('a', '\x07'), ('b', '\x08'),
    ('f', '\x0c'), ('n', '\n'), ('r', '\r'), ('t', '\t'), ('v', '\x0b')]

inductive Glyph
  | plain (c : Char) (h : c ∉ [single, backslash, '\n'])
  | simple (letter c : Char) (h : (letter, c) ∈ simpleEscapes)
  | octal (digits : List Char) (hlen : digits.length ∈ [1, 2, 3]) (hd : ∀ c ∈ digits, Radix.place c < 8)
  | hexadecimal (digits : List Char) (hne : digits ≠ []) (hd : ∀ c ∈ digits, Radix.place c < 16)

namespace Glyph

def chars : Glyph → List Char
  | plain c _ => [c]
  | simple letter _ _ => [backslash, letter]
  | octal digits _ _ => backslash :: digits
  | hexadecimal digits _ _ => backslash :: 'x' :: digits

def code (charset : Charset) : Glyph → Nat
  | plain c _ => charset.number c
  | simple _ c _ => charset.number c
  | octal digits _ _ => Radix.value 8 digits
  | hexadecimal digits _ _ => Radix.value 16 digits

theorem chars_ne_nil (g : Glyph) : g.chars ≠ [] := by
  cases g <;> exact List.cons_ne_nil _ _

theorem blank_notMem (g : Glyph) : ' ' ∉ g.chars ∨ ∃ h, g = .plain ' ' h := by
  have hdigit : ¬Radix.place ' ' < 16 := by decide
  cases g with
  | plain c h =>
    by_cases hc : c = ' '
    · subst hc
      exact .inr ⟨h, rfl⟩
    · exact .inl fun hm => hc (List.mem_singleton.mp hm).symm
  | simple letter c h =>
    have hall : ∀ e ∈ simpleEscapes, ' ' ∉ [backslash, e.1] := by decide
    exact .inl (hall _ h)
  | octal digits _ hd =>
    refine .inl fun hm => ?_
    rcases List.mem_cons.mp hm with h | h
    · exact absurd h (by decide)
    · exact hdigit ((hd _ h).trans (by decide))
  | hexadecimal digits _ hd =>
    refine .inl fun hm => ?_
    rcases List.mem_cons.mp hm with h | h
    · exact absurd h (by decide)
    · rcases List.mem_cons.mp h with h | h
      · exact absurd h (by decide)
      · exact hdigit (hd _ h)

theorem mem_nullEscapes {cs : List Char} : String.ofList cs ∈ Literal.nullEscapes ↔
    cs ∈ [[backslash, '0'], [backslash, 'x', '0'], [backslash, 'x', '0', '0'], [backslash, '0', '0', '0']] := by
  have hlist : Literal.nullEscapes.map String.toList =
      [[backslash, '0'], [backslash, 'x', '0'], [backslash, 'x', '0', '0'], [backslash, '0', '0', '0']] := by
    decide
  rw [← hlist, List.mem_map]
  constructor
  · exact fun h => ⟨_, h, String.toList_ofList⟩
  · rintro ⟨text, h, rfl⟩
    rwa [String.ofList_toList]

theorem code_of_nullEscape {g : Glyph} (h : String.ofList g.chars ∈ Literal.nullEscapes) (charset : Charset) :
    g.code charset = 0 := by
  rw [mem_nullEscapes] at h
  cases g with
  | plain c _ => simp [chars] at h
  | simple letter c hmem =>
    have hall : ∀ e ∈ simpleEscapes, e.1 ≠ '0' := by decide
    have hne := hall _ hmem
    simp [chars, hne] at h
  | octal digits _ hd =>
    refine (Radix.value_eq_zero (by decide) fun c hc => (hd c hc).trans (by decide)).mpr ?_
    simp only [chars, List.mem_cons, List.cons.injEq, true_and, List.not_mem_nil, or_false] at h
    rcases h with rfl | rfl | rfl | rfl
    · simp
    · exact absurd (hd 'x' (by simp)) (by decide)
    · exact absurd (hd 'x' (by simp)) (by decide)
    · simp
  | hexadecimal digits _ hd =>
    refine (Radix.value_eq_zero (by decide) hd).mpr ?_
    simp only [chars, List.mem_cons, List.cons.injEq, true_and, List.not_mem_nil, or_false] at h
    rcases h with ⟨h, -⟩ | rfl | rfl | ⟨h, -⟩
    · exact absurd h (by decide)
    · simp
    · simp
    · exact absurd h (by decide)

end Glyph

def encodings : List (List Char × BaseType) :=
  [([], .char), (['L'], .wchar), (['u'], .char16), (['U'], .char32), (['u', '8'], .char)]

structure CharConstant where
  tag : List Char
  base : BaseType
  glyph : Glyph
  tag_mem : (tag, base) ∈ encodings

namespace CharConstant

def text (k : CharConstant) : String :=
  String.ofList (k.tag ++ single :: k.glyph.chars ++ [single])

/-- The values that the constant can have: the number of its character, as the bits of its type write it,
where the type has room for it. Numbers, widths and the type's signedness are up to the target. -/
def Means (k : CharConstant) (v : Int) : Prop :=
  ∃ (charset : Charset) (w : Widths) (t : ValueType),
    t.base = k.base ∧ k.glyph.code charset < t.patterns w ∧ v = t.wrap w (k.glyph.code charset)

variable {k : CharConstant} {v : Int}

theorem Means.eq_zero (h : k.Means v) (hnull : String.ofList k.glyph.chars ∈ Literal.nullEscapes) : v = 0 := by
  obtain ⟨charset, w, t, -, -, rfl⟩ := h
  rw [Glyph.code_of_nullEscape hnull]
  exact ValueType.wrap_zero w t

theorem Means.blank_ne_zero (h : k.Means v) {hc : ' ' ∉ [single, backslash, '\n']}
    (hblank : k.glyph = .plain ' ' hc) : v ≠ 0 := by
  obtain ⟨charset, w, t, -, hlt, rfl⟩ := h
  have hnumber : charset.number ' ' ≠ 0 := fun h => absurd ((charset.number_eq_zero ' ').mp h) (by decide)
  rw [hblank] at hlt ⊢
  refine ValueType.wrap_ne_zero (by exact_mod_cast hnumber) ?_
  rw [Nat.abs_cast]
  exact_mod_cast hlt

/-- With a prefix the text starts like a name, and the quote at its end makes it no word. -/
theorem sign_tagged (htag : k.tag ≠ []) : Literal.sign k.text = .ok .top := by
  obtain ⟨c, more, hcons, hc⟩ : ∃ c more, k.tag = c :: more ∧ StartsName c := by
    have hall : ∀ e ∈ encodings, e.1 ≠ [] → (e.1.headD ' ').isAlpha = true := by decide
    obtain ⟨c, more, hcons⟩ := List.exists_cons_of_ne_nil htag
    exact ⟨c, more, hcons, .inl (by simpa [hcons] using hall _ k.tag_mem htag)⟩
  obtain ⟨rest, hfilter, hlast⟩ : ∃ rest, k.text.toList.filter (· ≠ ' ') = c :: rest ∧
      (c :: rest).getLast? = some single := by
    refine ⟨(more ++ single :: k.glyph.chars).filter (· ≠ ' ') ++ [single], ?_, ?_⟩
    · have hblank : c ≠ ' ' := hc.ne ' ' (by simp)
      have hquote : single ≠ ' ' := by decide
      rw [text, String.toList_ofList, hcons, List.filter_append, List.cons_append]
      simp [hblank, hquote]
    · rw [← List.cons_append, List.getLast?_concat]
  have hkeep : Literal.dropEnd Literal.isRealSuffix (c :: rest) = c :: rest := by
    conv_lhs => rw [← List.append_nil (c :: rest)]
    exact Literal.dropEnd_append (List.forall_mem_nil _) (by rw [hlast]; rintro _ ⟨⟩; decide)
  have hnone : ¬(Real.read? (String.ofList (c :: rest))).isSome = true := by
    intro hread
    have hword := Real.word_of_read? hc (by rw [hlast]; rintro _ ⟨⟩; decide) hread
    exact absurd (Real.isAlpha_of_word hword single (List.mem_of_getLast? hlast)) (by decide)
  obtain ⟨s, hs, hiff⟩ := @Literal.unsigned_name c rest hc
  rw [hkeep] at hiff
  rw [Literal.sign_plain hfilter fun h => hc.ne '-' (by simp) (Option.some.inj h), hs, hiff.mpr hnone]

theorem sign_blank (htag : k.tag = []) {hc : ' ' ∉ [single, backslash, '\n']}
    (hblank : k.glyph = .plain ' ' hc) : Literal.sign k.text = .ok .top := by
  rw [text, htag, hblank]
  show Literal.sign (String.ofList [single, ' ', single]) = .ok .top
  decide

theorem sign_quoted (htag : k.tag = []) (hblank : ' ' ∉ k.glyph.chars) :
    Literal.sign k.text =
      .ok (if String.ofList k.glyph.chars ∈ Literal.nullEscapes then .zero else .nonzero) := by
  have hfilter : k.text.toList.filter (· ≠ ' ') = single :: k.glyph.chars ++ [single] := by
    have hquote : ' ' ≠ single := by decide
    rw [text, String.toList_ofList, htag, List.nil_append]
    exact Literal.filter_blanks (by simp [hblank, hquote])
  have hconstant : Literal.constant? (single :: k.glyph.chars ++ [single]) = some k.glyph.chars := by
    have hlength := List.length_pos_iff.mpr k.glyph.chars_ne_nil
    rw [Literal.constant?, if_pos]
    · simp
    · refine ⟨by simp; omega, rfl, List.getLast?_concat⟩
  rw [Literal.sign_plain hfilter (Option.some_inj.not.mpr (by decide)), Literal.unsigned, hconstant]
  simp only [List.contains_iff_mem]

end CharConstant

/-- The sign of a character constant covers every value that the constant can have, but for the zero of a
constant that has no prefix and is not one of the four null escapes. The sign of a name is unknown, but for the
words that are read as reals. -/
theorem Literal.sign_constants_and_names (k : CharConstant) (name : String) :
    (∀ v, k.Means v → ∃ s, Literal.sign k.text = .ok s ∧
      (s.Covers v ↔ (v = 0 → k.tag ≠ [] ∨ String.ofList k.glyph.chars ∈ Literal.nullEscapes))) ∧
    (IsName name.toList → ∃ s, Literal.sign name = .ok s ∧ (s = .top ↔ ¬SpellsReal name.toList)) := by
  refine ⟨fun v hv => ?_, fun h => h.sign⟩
  by_cases htag : k.tag = []
  · rcases k.glyph.blank_notMem with hblank | ⟨hc, hblank⟩
    · refine ⟨_, CharConstant.sign_quoted htag hblank, ?_⟩
      split
      · next hnull => simp [hv.eq_zero hnull, hnull]
      · next hnull => simp [htag, hnull]
    · refine ⟨.top, CharConstant.sign_blank htag hblank, ?_⟩
      simp [hv.blank_ne_zero hblank]
  · exact ⟨.top, CharConstant.sign_tagged htag, by simp [htag]⟩

def Charset.codePoints : Charset where
  number := Char.toNat
  number_eq_zero _ := ⟨fun h => Char.toNat_inj.mp h, fun h => h ▸ rfl⟩

def CharConstant.allOnes : CharConstant where
  tag := []
  base := .char
  glyph := .hexadecimal ['F', 'f', 'F', 'f'] (by decide) (by decide)
  tag_mem := by decide

/-- A signed type takes a large number below zero. The short word for infinity is a name like any other. -/
theorem Literal.sign_constants_and_names_allOnes :
    (CharConstant.allOnes.Means (-1) ∧ Literal.sign CharConstant.allOnes.text = .ok .nonzero ∧
      Sign.nonzero.Covers (-1)) ∧
    IsName "inf".toList ∧ Literal.sign "inf" = .ok .top ∧ ¬SpellsReal "inf".toList := by
  have hmeans : CharConstant.allOnes.Means (-1) :=
    ⟨.codePoints, .bytes, ⟨.char, false, false⟩, rfl, by decide, by decide⟩
  have hname : IsName "inf".toList := ⟨'i', ['n', 'f'], by decide, .inl (by decide), by decide⟩
  have hsign : Literal.sign CharConstant.allOnes.text = .ok .nonzero := by decide
  have hinf : Literal.sign "inf" = .ok .top := by decide
  obtain ⟨hconstant, hlabel⟩ := sign_constants_and_names .allOnes "inf"
  obtain ⟨s, hs, hcovers⟩ := hconstant _ hmeans
  obtain rfl : Sign.nonzero = s := Except.ok.inj (hsign.symm.trans hs)
  obtain ⟨t, ht, hspells⟩ := hlabel hname
  obtain rfl : Sign.top = t := Except.ok.inj (hinf.symm.trans ht)
  exact ⟨⟨hmeans, hs, hcovers.mpr fun h => absurd h (by decide)⟩, hname, ht, hspells.mp rfl⟩

def CharConstant.twoZeros : CharConstant where
  tag := []
  base := .char
  glyph := .octal ['0', '0'] (by decide) (by decide)
  tag_mem := by decide

/-- Two zeros write the null character as well as one or three, but they are not taken for zero. The name is
taken for a number that is not a number. -/
theorem Literal.null_and_name_misread :
    (CharConstant.twoZeros.text = "'\\00'" ∧ CharConstant.twoZeros.Means 0 ∧
      Literal.sign CharConstant.twoZeros.text = .ok .nonzero ∧ ¬Sign.nonzero.Covers 0) ∧
    IsName "nan".toList ∧ Literal.sign "nan" = .ok .neg :=
  ⟨⟨by decide, ⟨.codePoints, .bytes, ⟨.char, false, false⟩, rfl, by decide, by decide⟩, by decide, by decide⟩,
    ⟨'n', ['a', 'n'], by decide, .inl (by decide), by decide⟩, by decide⟩

end SignFlow

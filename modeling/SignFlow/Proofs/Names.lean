import SignFlow.Proofs.Numerals

/-! Names read as numbers.

Where a number is wanted and a name stands, nothing is known of its sign, with an exception: a few words are
read as reals. No name is read as an integer. -/

namespace SignFlow

/-- A letter or an underscore. -/
def Text.StartsName (c : Char) : Prop := c.isAlpha = true ∨ c = '_'

namespace Text

variable {c : Char}

theorem StartsName.range (h : StartsName c) :
    65 ≤ c.toNat ∧ c.toNat ≤ 90 ∨ c.toNat = 95 ∨ 97 ≤ c.toNat ∧ c.toNat ≤ 122 := by
  rcases h with h | rfl
  · rcases Bool.or_eq_true_iff.mp h with h | h
    · exact .inl (of_decide_eq_true h)
    · obtain ⟨hlow, hhigh⟩ := Bool.and_eq_true_iff.mp h
      exact .inr (.inr ⟨of_decide_eq_true hlow, of_decide_eq_true hhigh⟩)
  · exact .inr (.inl rfl)

theorem StartsName.ne (h : StartsName c) : ∀ d ∈ ['+', '-', '.', ' ', single], c ≠ d := by
  have hall : ∀ d ∈ ['+', '-', '.', ' ', single], ¬(d.isAlpha = true ∨ d = '_') := by decide
  rintro d hd rfl
  exact hall c hd h

theorem StartsName.isBlank (h : StartsName c) : isBlank c = false := by
  have hrange := h.range
  simp [Text.isBlank, blanks, Ranges.has]
  omega

theorem StartsName.digitValue? (h : StartsName c) : digitValue? c = none := by
  have hzeros : ∀ z ∈ zeros, z = 48 ∨ 0x660 ≤ z := by decide
  have hrange := h.range
  rw [Text.digitValue?, Option.map_eq_none_iff, List.find?_eq_none]
  intro z hz hin
  simp only [Bool.and_eq_true, decide_eq_true_eq] at hin
  have := hzeros z hz
  omega

theorem StartsName.isDigitLike (h : StartsName c) : isDigitLike c = false := by
  have hlikes : ∀ r ∈ digitLikes, 0xb2 ≤ r.1 := by decide
  have hrange := h.range
  rw [Text.isDigitLike, h.digitValue?, Bool.or_eq_false_iff, Ranges.has, List.any_eq_false]
  refine ⟨rfl, fun r hr hin => ?_⟩
  simp only [Bool.and_eq_true, decide_eq_true_eq] at hin
  have := hlikes r hr
  omega

theorem ofList_eq_iff {cs : List Char} {text : String} : String.ofList cs = text ↔ cs = text.toList := by
  rw [← String.toList_inj, String.toList_ofList]

theorem trimBlanks_eq {cs : List Char} (hhead : ∀ c ∈ cs.head?, isBlank c = false)
    (hlast : ∀ c ∈ cs.getLast?, isBlank c = false) : trimBlanks cs = cs := by
  have hdrop : ∀ {cs : List Char}, (∀ c ∈ cs.head?, isBlank c = false) → dropBlanks cs = cs := by
    intro cs h
    cases cs with
    | nil => rfl
    | cons c rest => exact List.dropWhile_cons_of_neg (by simp [h c rfl])
  rw [trimBlanks, hdrop hhead, hdrop (by simpa using hlast), List.reverse_reverse]

end Text

open Text

namespace Integer

theorem digitIn?_name {c : Char} (h : StartsName c) : digitIn? 10 c = none := by
  rw [digitIn?, valueOf?, h.digitValue?]
  simp only
  split
  · simp [Option.filter]
  · split
    · simp [Option.filter]
    · rfl

theorem readAnyBase?_name {c : Char} {rest : List Char} (h : StartsName c) :
    readAnyBase? (String.ofList (c :: rest)) = none := by
  have hblank : dropBlanks (c :: rest) = c :: rest := List.dropWhile_cons_of_neg (by simp [h.isBlank])
  have hsign : takeSign (c :: rest) = (false, c :: rest) :=
    takeSign_cons (h.ne '+' (by simp)) (h.ne '-' (by simp))
  have hmark : takeMark (c :: rest) = (10, c :: rest) := by
    cases rest <;> simp [takeMark, h.digitValue?]
  have hmisplaced : (digits 10 false (c :: rest)).2.1 = true := by
    rw [digits, digitIn?_name h]
    by_cases hc : c = '_' <;> simp [hc]
  simp only [readAnyBase?, String.toList_ofList, hblank, hsign, hmark, hmisplaced, Bool.true_or, if_true]

end Integer

namespace Real

/-- The words that are read as reals, in small letters. -/
def words : List (List Char) :=
  [['i', 'n', 'f'], ['i', 'n', 'f', 'i', 'n', 'i', 't', 'y'], ['n', 'a', 'n']]

theorem unsigned?_eq (negative : Bool) (cs : List Char) :
    (unsigned? negative cs).isSome = true ↔
      cs.map Char.toLower ∈ words ∨ (decimal? negative cs).isSome = true := by
  simp only [unsigned?, ofList_eq_iff, words, List.mem_cons, List.not_mem_nil, or_false]
  have hinf : "inf".toList = ['i', 'n', 'f'] := by decide
  have hinfinity : "infinity".toList = ['i', 'n', 'f', 'i', 'n', 'i', 't', 'y'] := by decide
  have hnan : "nan".toList = ['n', 'a', 'n'] := by decide
  rw [hinf, hinfinity, hnan]
  split
  · next h => simp [← or_assoc, h]
  · next h =>
    split
    · next h' => simp [h']
    · next h' =>
      rw [not_or] at h
      simp [h, h']

theorem decimal?_name {c : Char} {rest : List Char} (h : StartsName c) (negative : Bool) :
    decimal? negative (c :: rest) = none := by
  have hspan : spanDigits (c :: rest) = ([], c :: rest) := by rw [spanDigits, h.digitValue?]
  have hfraction : fraction (c :: rest) = ([], c :: rest) := by
    unfold fraction
    split
    · next hp => exact absurd (List.cons.inj hp).1 (h.ne '.' (by simp))
    · rfl
  simp [decimal?, hspan, hfraction]

theorem dropUnderscores?_cons {c : Char} (hc : c ≠ '_') (afterDigit : Bool) (rest : List Char) :
    dropUnderscores? afterDigit (c :: rest) =
      (dropUnderscores? (digitValue? c).isSome rest).map (c :: ·) := by
  rw [dropUnderscores?.eq_def]
  exact if_neg hc

theorem dropUnderscores?_underscore (afterDigit : Bool) (d : Char) (rest : List Char) :
    dropUnderscores? afterDigit ('_' :: d :: rest) =
      if afterDigit && (digitValue? d).isSome then dropUnderscores? false (d :: rest) else none := by
  rw [dropUnderscores?.eq_def]
  exact if_pos rfl

theorem dropUnderscores?_of_notMem {cs : List Char} (h : '_' ∉ cs) (afterDigit : Bool) :
    dropUnderscores? afterDigit cs = some cs := by
  induction cs generalizing afterDigit with
  | nil => rfl
  | cons c rest ih =>
    obtain ⟨hc, hrest⟩ := not_or.mp (List.mem_cons.not.mp h)
    rw [dropUnderscores?_cons (Ne.symm hc), ih hrest]
    rfl

/-- Underscores stand between digits, so without digits there are none. -/
theorem dropUnderscores?_eq_self {cs ds : List Char} {afterDigit : Bool}
    (h : dropUnderscores? afterDigit cs = some ds) (hds : ∀ c ∈ ds, digitValue? c = none) : ds = cs := by
  induction cs generalizing ds afterDigit with
  | nil => exact (Option.some.inj h).symm
  | cons c rest ih =>
    by_cases hc : c = '_'
    · subst hc
      cases rest with
      | nil => cases h
      | cons d rest =>
        -- what follows is a digit, and it stays
        rw [dropUnderscores?_underscore] at h
        split at h
        · next hd =>
          have hdigit : (digitValue? d).isSome = true := (Bool.and_eq_true_iff.mp hd).2
          have hne : d ≠ '_' := by
            rintro rfl
            exact absurd hdigit (by decide)
          rw [dropUnderscores?_cons hne] at h
          obtain ⟨ds, -, rfl⟩ := Option.map_eq_some_iff.mp h
          rw [hds d List.mem_cons_self] at hdigit
          cases hdigit
        · cases h
    · rw [dropUnderscores?_cons hc] at h
      obtain ⟨ds, hrest, rfl⟩ := Option.map_eq_some_iff.mp h
      rw [ih hrest fun c hc => hds c (List.mem_cons_of_mem _ hc)]

theorem isAlpha_of_word {cs : List Char} (h : cs.map Char.toLower ∈ words) : ∀ c ∈ cs, c.isAlpha = true := by
  have hlower : ∀ w ∈ words, ∀ c ∈ w, c.isLower = true := by decide
  intro c hc
  have hc := hlower _ h _ (List.mem_map_of_mem hc)
  by_cases hupper : c.isUpper = true
  · exact Bool.or_eq_true_iff.mpr (.inl hupper)
  · have hsame : c.toLower = c := dif_neg (decide_eq_true_iff.not.mp hupper)
    rw [hsame] at hc
    exact Bool.or_eq_true_iff.mpr (.inr hc)

/-- Text that starts like a name is read as a real only if it is one of the words. -/
theorem word_of_read? {c : Char} {rest : List Char} (h : StartsName c)
    (hlast : ∀ d ∈ (c :: rest).getLast?, isBlank d = false)
    (hread : (read? (String.ofList (c :: rest))).isSome = true) : (c :: rest).map Char.toLower ∈ words := by
  have htrim : trimBlanks (c :: rest) = c :: rest := trimBlanks_eq (by simpa using h.isBlank) hlast
  rw [read?, String.toList_ofList, htrim] at hread
  cases hdrop : dropUnderscores? false (c :: rest) with
  | none => rw [hdrop] at hread; cases hread
  | some ds =>
    have hc : c ≠ '_' := by
      rintro rfl
      cases rest with
      | nil => cases hdrop
      | cons d rest => rw [dropUnderscores?_underscore] at hdrop; cases hdrop
    obtain ⟨tail, -, rfl⟩ := Option.map_eq_some_iff.mp ((dropUnderscores?_cons hc _ _).symm.trans hdrop)
    have hsign : Integer.takeSign (c :: tail) = (false, c :: tail) :=
      Integer.takeSign_cons (h.ne '+' (by simp)) (h.ne '-' (by simp))
    simp only [hdrop, Option.bind_eq_bind, Option.bind_some, hsign, unsigned?_eq, decimal?_name h,
      Option.isSome_none, Bool.false_eq_true, or_false] at hread
    have hself := dropUnderscores?_eq_self hdrop fun d hd =>
      StartsName.digitValue? (.inl (isAlpha_of_word hread d hd))
    rwa [hself] at hread

theorem read?_word {cs : List Char} (h : cs.map Char.toLower ∈ words) :
    (read? (String.ofList cs)).isSome = true := by
  have hstart : ∀ c ∈ cs, StartsName c := fun c hc => .inl (isAlpha_of_word h c hc)
  have htrim : trimBlanks cs = cs :=
    trimBlanks_eq (fun c hc => (hstart c (List.mem_of_head? hc)).isBlank)
      fun c hc => (hstart c (List.mem_of_getLast? hc)).isBlank
  have hdrop : dropUnderscores? false cs = some cs :=
    dropUnderscores?_of_notMem (fun hc => absurd (isAlpha_of_word h _ hc) (by decide)) false
  have hsign : Integer.takeSign cs = (false, cs) := by
    cases cs with
    | nil => rfl
    | cons c rest =>
      have hc := hstart c List.mem_cons_self
      exact Integer.takeSign_cons (hc.ne '+' (by simp)) (hc.ne '-' (by simp))
  simp only [read?, String.toList_ofList, htrim, hdrop, Option.bind_eq_bind, Option.bind_some, hsign]
  exact (unsigned?_eq false cs).mpr (.inl h)

end Real

namespace Literal

theorem dropEnd_split (drop : Char → Bool) (cs : List Char) :
    ∃ suffix, cs = dropEnd drop cs ++ suffix ∧ ∀ c ∈ suffix, drop c = true := by
  refine ⟨(cs.reverse.takeWhile drop).reverse, ?_, fun c hc => ?_⟩
  · rw [dropEnd, ← List.reverse_append, List.takeWhile_append_dropWhile, List.reverse_reverse]
  · exact List.all_eq_true.mp List.all_takeWhile c (List.mem_reverse.mp hc)

theorem dropEnd_last {drop : Char → Bool} {cs : List Char} {c : Char} (h : c ∈ (dropEnd drop cs).getLast?) :
    drop c = false := by
  rw [dropEnd, List.getLast?_reverse] at h
  have hhead := List.head?_dropWhile_not drop cs.reverse
  rwa [Option.mem_def.mp h] at hhead

/-- Text that starts like a name is no integer, and its sign is known only if it is read as a real. -/
theorem unsigned_name {c : Char} {rest : List Char} (h : StartsName c) :
    ∃ s, unsigned (c :: rest) = .ok s ∧
      (s = .top ↔ ¬(Real.read? (String.ofList (dropEnd isRealSuffix (c :: rest)))).isSome = true) := by
  have hconstant : constant? (c :: rest) = none :=
    if_neg fun hq => h.ne single (by simp) (Option.some.inj hq.2.1)
  have hinteger : (!(dropEnd isIntegerSuffix (c :: rest)).isEmpty &&
      (dropEnd isIntegerSuffix (c :: rest)).all isDigitLike) = false ∧
      Integer.readAnyBase? (String.ofList (dropEnd isIntegerSuffix (c :: rest))) = none := by
    obtain ⟨suffix, hsplit, -⟩ := dropEnd_split isIntegerSuffix (c :: rest)
    cases hdrop : dropEnd isIntegerSuffix (c :: rest) with
    | nil => exact ⟨rfl, by decide⟩
    | cons d tail =>
      rw [hdrop] at hsplit
      obtain ⟨rfl, -⟩ := List.cons.inj hsplit
      exact ⟨by simp [h.isDigitLike], Integer.readAnyBase?_name h⟩
  rw [unsigned, hconstant]
  simp only [number?, hinteger.1, hinteger.2, Bool.false_eq_true, if_false]
  refine ⟨_, rfl, ?_⟩
  cases Real.read? (String.ofList (dropEnd isRealSuffix (c :: rest))) with
  | none => simp
  | some x =>
    have hreal : Sign.ofReal x ≠ .top := by
      unfold Sign.ofReal
      split
      · decide
      · split <;> decide
    simpa [Sign.ofNumber] using hreal

/-- A letter or an underscore, then letters, digits and underscores. -/
def IsName (cs : List Char) : Prop :=
  ∃ c rest, cs = c :: rest ∧ StartsName c ∧ ∀ d ∈ rest, d.isAlphanum = true ∨ d = '_'

/-- A word for a number that is not a number or for an infinity, in any case, and letters that could be the
suffix of a real. The short word for infinity ends in such a letter, so it is not among them. -/
def SpellsReal (cs : List Char) : Prop :=
  ∃ word suffix, cs = word ++ suffix ∧
    word.map Char.toLower ∈ [['i', 'n', 'f', 'i', 'n', 'i', 't', 'y'], ['n', 'a', 'n']] ∧
    ∀ c ∈ suffix, c ∈ ['f', 'F', 'l', 'L']

theorem IsName.isBlank {cs : List Char} (h : IsName cs) : ∀ c ∈ cs, isBlank c = false := by
  obtain ⟨c, rest, rfl, hc, hrest⟩ := h
  intro d hd
  rcases List.mem_cons.mp hd with rfl | hd
  · exact hc.isBlank
  · rcases hrest d hd with h | rfl
    · rcases Bool.or_eq_true_iff.mp h with h | h
      · exact StartsName.isBlank (.inl h)
      · exact isBlank_digit h
    · exact StartsName.isBlank (.inr rfl)

theorem isRealSuffix_iff {c : Char} : isRealSuffix c = true ↔ c.toLower ∈ ['f', 'l'] := by
  rw [isRealSuffix, List.contains_iff_mem]
  constructor
  · have hall : ∀ c ∈ ['f', 'F', 'l', 'L'], c.toLower ∈ ['f', 'l'] := by decide
    exact hall c
  · intro h
    unfold Char.toLower at h
    split at h
    · -- a capital letter is 32 places before the small one
      have hval : ∀ {d : Char}, c.val + ('a'.val - 'A'.val) = d.val → c.val = d.val - ('a'.val - 'A'.val) :=
        fun h => h ▸ (UInt32.add_sub_cancel _ _).symm
      rcases List.mem_pair.mp h with h | h
      · have hc : c = 'F' := Char.ext (hval (congrArg Char.val h))
        simp [hc]
      · have hc : c = 'L' := Char.ext (hval (congrArg Char.val h))
        simp [hc]
    · rcases List.mem_pair.mp h with rfl | rfl <;> simp

/-- The last letter of a word decides whether it could be taken for a suffix. -/
theorem last_suffix {cs : List Char} {w : List Char} (h : cs.map Char.toLower = w) {c : Char}
    (hc : c ∈ cs.getLast?) : isRealSuffix c = true ↔ w.getLast? ∈ [some 'f', some 'l'] := by
  have hlast : w.getLast? = some c.toLower := by
    rw [← h, List.getLast?_map, Option.mem_def.mp hc]
    rfl
  rw [hlast, isRealSuffix_iff]
  simp

theorem read?_name_iff {cs : List Char} (h : IsName cs) :
    (Real.read? (String.ofList (dropEnd isRealSuffix cs))).isSome = true ↔ SpellsReal cs := by
  constructor
  · intro hread
    obtain ⟨suffix, hsplit, hsuffix⟩ := dropEnd_split isRealSuffix cs
    obtain ⟨c, rest, hcs, hc, -⟩ := id h
    cases hdrop : dropEnd isRealSuffix cs with
    | nil =>
      rw [hdrop] at hread
      exact absurd hread (by decide)
    | cons d tail =>
      have hkept : ∀ x ∈ (d :: tail).getLast?, isRealSuffix x = false := fun x hx => dropEnd_last (hdrop ▸ hx)
      rw [hdrop] at hread hsplit
      obtain ⟨rfl, -⟩ := List.cons.inj (hcs.symm.trans hsplit)
      have hlast : ∀ x ∈ (c :: tail).getLast?, Text.isBlank x = false := fun x hx =>
        h.isBlank x (hsplit ▸ List.mem_append_left _ (List.mem_of_getLast? hx))
      have hword := Real.word_of_read? hc hlast hread
      refine ⟨c :: tail, suffix, hsplit, ?_, fun x hx => List.contains_iff_mem.mp (hsuffix x hx)⟩
      rcases List.mem_cons.mp hword with hinf | hword
      · obtain ⟨x, hx⟩ : ∃ x, x ∈ (c :: tail).getLast? := ⟨_, List.getLast?_cons⟩
        have hsome := (last_suffix hinf hx).mpr (by decide)
        rw [hkept x hx] at hsome
        cases hsome
      · exact hword
  · rintro ⟨word, suffix, rfl, hword, hsuffix⟩
    have hlast : ∀ c ∈ word.getLast?, isRealSuffix c = false := by
      intro c hc
      rw [Bool.eq_false_iff, ne_eq, last_suffix rfl hc]
      have hall : ∀ w ∈ [['i', 'n', 'f', 'i', 'n', 'i', 't', 'y'], ['n', 'a', 'n']],
          w.getLast? ∉ [some 'f', some 'l'] := by decide
      exact hall _ hword
    have hdrop : dropEnd isRealSuffix (word ++ suffix) = word :=
      dropEnd_append (fun c hc => List.contains_iff_mem.mpr (hsuffix c hc)) hlast
    rw [hdrop]
    exact Real.read?_word (List.mem_cons_of_mem _ hword)

/-- The sign of a name is unknown unless it is read as a real. -/
theorem IsName.sign {name : String} (h : IsName name.toList) :
    ∃ s, Literal.sign name = .ok s ∧ (s = .top ↔ ¬SpellsReal name.toList) := by
  have hkeep : name.toList.filter (· ≠ ' ') = name.toList :=
    filter_blanks fun hc => absurd (h.isBlank ' ' hc) (by decide)
  have hiff := read?_name_iff h
  obtain ⟨c, rest, hname, hc, -⟩ := h
  have hhead : name.toList.head? ≠ some '-' := by
    rw [hname]
    exact fun h => hc.ne '-' (by simp) (Option.some.inj h)
  rw [sign_plain hkeep hhead, ← hiff, hname]
  exact unsigned_name hc

end Literal

end SignFlow

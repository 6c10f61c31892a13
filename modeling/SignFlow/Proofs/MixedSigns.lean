import SignFlow.Proofs.FixedWidth
import SignFlow.Proofs.Progress

/-! Comparisons between integral types.

Operands of different types are compared in a type common to both, and where that one is unsigned a
negative operand counts as a large one. Signs are compared as if no type were involved. The two agree
where the operands agree on being unsigned after promotion, and where the operand that is not is known not
to be negative; nothing else is refined. -/

namespace SignFlow

namespace ValueType

/-- The type of an operand in arithmetic. A type that ranks below `int` becomes `int`, or `unsigned int` where
an `int` does not hold all its values. -/
def promoted (w : Widths) (t : ValueType) : ValueType :=
  if t.base.rank < BaseType.int.rank then
    { base := .int, unsigned := t.unsigned && w.bits BaseType.int.rank ≤ w.bits t.base.rank }
  else t

/-- The type common to an unsigned and a signed one: the signed one only if it ranks higher and holds all
values of the other; if it just ranks higher, the unsigned type that belongs to it. -/
def mixed (w : Widths) (u s : ValueType) : ValueType :=
  if s.base.rank ≤ u.base.rank then u
  else if w.bits u.base.rank < w.bits s.base.rank then s
  else { s with unsigned := true }

def common (w : Widths) (a b : ValueType) : ValueType :=
  if a.unsigned = b.unsigned then if a.base.rank < b.base.rank then b else a
  else if a.unsigned then a.mixed w b else b.mixed w a

variable {w : Widths} {t a b u s : ValueType} {x y : Int}

theorem Holds.promoted (h : t.Holds w x) (ht : t.base ≠ .bool)
    (hw : ∀ rank < BaseType.int.rank, w.bits rank < w.bits BaseType.int.rank) :
    (t.promoted w).Holds w x ∧ (t.promoted w).base ≠ .bool ∧
      (t.promoted w).unsigned = t.staysUnsigned := by
  unfold ValueType.promoted staysUnsigned
  split
  · next hrank =>
    have hlt := hw _ hrank
    have hsigned : (t.unsigned && decide (w.bits BaseType.int.rank ≤ w.bits t.base.rank)) = false := by
      simp [hlt]
    refine ⟨h.to_wider (by simp) hsigned hlt, by simp, ?_⟩
    simp [hsigned, hrank]
  · next hrank =>
    refine ⟨h, ht, ?_⟩
    simp [Nat.le_of_not_lt hrank]

theorem Holds.mixed (hx : u.Holds w x) (hy : s.Holds w y) (hu : u.base ≠ .bool) (hs : s.base ≠ .bool)
    (hunsigned : u.unsigned = true) (hsigned : s.unsigned = false) (hpos : 0 ≤ y) :
    (u.mixed w s).Holds w x ∧ (u.mixed w s).Holds w y := by
  have hnonneg := hx.nonneg (.inr hunsigned)
  unfold ValueType.mixed
  split
  · next hrank => exact ⟨hx, hy.to_unsigned hpos hu hunsigned (patterns_mono hrank)⟩
  · next hrank =>
    split
    · next hbits => exact ⟨hx.to_wider hs hsigned hbits, hy⟩
    · have hle : u.patterns w ≤ s.patterns w := patterns_mono (Nat.le_of_not_le hrank)
      exact ⟨hx.to_unsigned hnonneg hs rfl hle, hy.to_unsigned hpos hs rfl le_rfl⟩

theorem Holds.common (hx : a.Holds w x) (hy : b.Holds w y) (ha : a.base ≠ .bool) (hb : b.base ≠ .bool)
    (h : a.unsigned = b.unsigned ∨ 0 ≤ x ∧ 0 ≤ y) :
    (a.common w b).Holds w x ∧ (a.common w b).Holds w y := by
  unfold ValueType.common
  split
  · next hsame =>
    split
    · next hrank => exact ⟨hx.same ha hb hsame hrank.le, hy⟩
    · next hrank => exact ⟨hx, hy.same hb ha hsame.symm (Nat.le_of_not_lt hrank)⟩
  · next hne =>
    obtain ⟨hx₀, hy₀⟩ := h.resolve_left hne
    cases hu : a.unsigned with
    | true => exact hx.mixed hy ha hb hu (by simpa [hu] using Ne.symm hne) hy₀
    | false => exact (hy.mixed hx hb ha (by simpa [hu] using Ne.symm hne) hu hx₀).symm

end ValueType

namespace Comparison

/-- The outcome of comparing values of two types: both are promoted and converted to the common type first. -/
def holdsBetween (w : Widths) (c : Comparison) (l r : ValueType) (x y : Int) : Bool :=
  let a := l.promoted w
  let b := r.promoted w
  c.holds ((a.common w b).wrap w (a.wrap w x)) ((a.common w b).wrap w (b.wrap w y))

variable {w : Widths} {l r : ValueType} {x y : Int}

theorem holdsBetween_eq (hw : ∀ rank < BaseType.int.rank, w.bits rank < w.bits BaseType.int.rank)
    (hl : l.base ≠ .bool) (hr : r.base ≠ .bool) (hx : l.Holds w x) (hy : r.Holds w y)
    (h : l.staysUnsigned = r.staysUnsigned ∨ 0 ≤ x ∧ 0 ≤ y) (c : Comparison) :
    c.holdsBetween w l r x y = c.holds x y := by
  obtain ⟨hpx, hpl, hul⟩ := hx.promoted hl hw
  obtain ⟨hpy, hpr, hur⟩ := hy.promoted hr hw
  rw [← hul, ← hur] at h
  obtain ⟨hcx, hcy⟩ := hpx.common hpy hpl hpr h
  simp only [holdsBetween]
  rw [hpx.wrap_eq, hpy.wrap_eq, hcx.wrap_eq, hcy.wrap_eq]

end Comparison

structure Token.IsVariable (t : Token) (k : Key) (type : ValueType) : Prop where
  key : t.variableKey = some k
  type : t.type = some type
  notNumber : t.isNumber = false
  notChar : t.isChar = false
  values : t.values = []

namespace Token.IsVariable

variable {t : Token} {k : Key} {type : ValueType} {s : Store} {x : Int}

theorem isNumeric (h : t.IsVariable k type) (htype : type.isIntegral = true) : t.isNumeric = true := by
  simp [Token.isNumeric, Token.isIntegral, h.type, htype]

theorem fact (h : t.IsVariable k type) (htype : type.isIntegral = true) (hs : s.isReachable = true)
    (hx : (s.lookup k).Covers x) (pos : Nat) :
    ∃ a, (Expr.node pos t .absent .absent).fact s = .ok (some a) ∧ a.Covers x := by
  have hnumeric := h.isNumeric htype
  unfold Expr.fact Eval.factOf
  split
  · refine ⟨.top, ?_, Sign.covers_top x⟩
    rw [if_pos (show (Expr.node pos t .absent .absent).isNumeric = true from hnumeric)]
  · refine ⟨s.lookup k, ?_, hx⟩
    rw [Expr.eval_node h.values]
    show (Eval.leaf t s).value = _
    rw [Eval.leaf_value hs, if_pos hnumeric, h.notNumber, h.notChar, h.key]
    rfl

end Token.IsVariable

namespace Eval

variable {l r : Expr} {lf rf : Sign} {lt rt : ValueType} {w : Widths} {x y : Int}

theorem compare_of_facts {left right : Walk Fact} {s : Store} (hl : factOf l left s = .ok (some lf))
    (hr : factOf r right s = .ok (some rf)) (c : Comparison) :
    compare c l r left right s =
      .ok (if comparable l r lf rf then (s.refine c l.key? (some lf) r.key? (some rf)).1 else s) := by
  unfold compare
  rw [hl, hr]
  show (if comparable l r lf rf then _ else _) = _
  split <;> rfl

/-- Signs are compared where the operands agree on staying unsigned, or where neither is negative. -/
theorem comparable_nonneg (h : comparable l r lf rf = true) (hl : l.type? = some lt) (hr : r.type? = some rt)
    (hx : lt.Holds w x) (hy : rt.Holds w y) (hlf : lf.Covers x) (hrf : rf.Covers y) :
    lt.staysUnsigned = rt.staysUnsigned ∨ 0 ≤ x ∧ 0 ≤ y := by
  have hleft : l.staysUnsigned = lt.staysUnsigned := by rw [Expr.staysUnsigned, hl]; rfl
  have hright : r.staysUnsigned = rt.staysUnsigned := by rw [Expr.staysUnsigned, hr]; rfl
  have hunsigned : ∀ {t : ValueType} {v : Int}, t.Holds w v → t.staysUnsigned = true → 0 ≤ v :=
    fun hv ht => hv.nonneg (.inr (Bool.and_eq_true_iff.mp ht).1)
  have hsign : ∀ {f : Sign} {v : Int}, f = .zero ∨ f = .pos → f.Covers v → 0 ≤ v := by
    rintro f v (rfl | rfl) hf
    · exact (Sign.covers_zero.mp hf).ge
    · exact (Sign.covers_pos.mp hf).le
  by_cases hsame : lt.staysUnsigned = rt.staysUnsigned
  · exact .inl hsame
  simp only [comparable, hleft, hright, Bool.or_eq_true, beq_iff_eq, hsame, false_or] at h
  cases hu : lt.staysUnsigned with
  | true =>
    rw [hu, if_pos rfl] at h
    exact .inr ⟨hunsigned hx hu, hsign h hrf⟩
  | false =>
    rw [hu, if_neg Bool.false_ne_true] at h
    exact .inr ⟨hsign h hlf, hunsigned hy (by simpa [hu] using Ne.symm hsame)⟩

end Eval

namespace Store

variable {s : Store} {c : Comparison} {j k : Key} {a b : Sign} {x y : Int}

theorem refine_keeps (hs : s.isReachable = true) (hjk : j ≠ k) (ha : a.Covers x) (hb : b.Covers y)
    (hc : c.holds x y = true) :
    (s.refine c (some j) (some a) (some k) (some b)).1.isReachable = true ∧
      ((s.refine c (some j) (some a) (some k) (some b)).1.lookup j).Covers x ∧
      ((s.refine c (some j) (some a) (some k) (some b)).1.lookup k).Covers y := by
  have hx : (c.refine a b).Covers x := Comparison.refine_covers hc ha hb
  have hy : (c.flip.refine b a).Covers y := Comparison.refine_covers ((c.holds_flip x y).trans hc) hb ha
  rw [refine_fst hs]
  refine ⟨(isReachable_outcome hx.ne_bottom hy.ne_bottom).trans hs, ?_, ?_⟩
  · rw [lookup_outcome hs hx.ne_bottom hy.ne_bottom, if_neg (by simpa using hjk.symm),
      if_pos (Option.mem_some_self j)]
    exact hx
  · rw [lookup_outcome hs hx.ne_bottom hy.ne_bottom, if_pos (Option.mem_some_self k)]
    exact hy

end Store

namespace Expr

/-- Assuming the outcome of a comparison is sound for machine integers. Two variables of integral types are
compared as their types demand. Whatever the outcome for two of their values that a store leaves room for, the
store that assumes this outcome can be reached and leaves room for them. -/
theorem assume_keeps_compared (w : Widths)
    (hw : ∀ rank < BaseType.int.rank, w.bits rank < w.bits BaseType.int.rank) (c : Comparison) {t a b : Token}
    {j k : Key} {l r : ValueType} (ht : t.text = c.symbol) (ha : a.IsVariable j l) (hb : b.IsVariable k r)
    (hjk : j ≠ k) (hl : l.isIntegral = true) (hlb : l.base ≠ .bool) (hr : r.isIntegral = true)
    (hrb : r.base ≠ .bool) (pos p q : Nat) (s : Store) (hs : s.isReachable = true) {x y : Int}
    (hx : l.Holds w x) (hy : r.Holds w y) (hsx : (s.lookup j).Covers x) (hsy : (s.lookup k).Covers y) :
    ∃ s', (node pos t (node p a absent absent) (node q b absent absent)).assume
        (c.holdsBetween w l r x y) s = .ok s' ∧
      s'.isReachable = true ∧ (s'.lookup j).Covers x ∧ (s'.lookup k).Covers y := by
  obtain ⟨f, hf, hfx⟩ := ha.fact hl hs hsx p
  obtain ⟨g, hg, hgy⟩ := hb.fact hr hs hsy q
  rw [assume_comparison ht (binaryOf?_comparison rfl rfl ht) hs, Eval.compare_of_facts hf hg]
  refine ⟨_, rfl, ?_⟩
  split
  · next hcomparable =>
    have hnonneg := Eval.comparable_nonneg hcomparable ha.type hb.type hx hy hfx hgy
    rw [Comparison.holdsBetween_eq hw hlb hrb hx hy hnonneg]
    have hkey : ∀ {t : Token} {k : Key} {type : ValueType} (p : Nat), t.IsVariable k type →
        (node p t absent absent).key? = some k := fun _ h => h.key
    rw [hkey p ha, hkey q hb]
    refine Store.refine_keeps hs hjk hfx hgy ?_
    cases h : c.holds x y <;> simp [h, Comparison.holds_negate]
  · exact ⟨hs, hsx, hsy⟩

namespace Mixed

def token (k : Key) (type : ValueType) : Token where
  text := "v"
  variableKey := some k
  type := some type

def unsignedInt : ValueType := { base := .int, unsigned := true }

def signedChar : ValueType := { base := .char }

def below : Expr :=
  -- an `unsigned int` and a `signed char`, compared
  .node 1 { text := "<" } (.node 0 (token (.id 1) unsignedInt) .absent .absent)
    (.node 2 (token (.id 2) signedChar) .absent .absent)

-- nothing is known of the first variable, and the second is negative
def store : Store := Store.empty.bind (.id 2) .neg

theorem token_isVariable (k : Key) (type : ValueType) : (token k type).IsVariable k type :=
  ⟨rfl, rfl, rfl, rfl, rfl⟩

end Mixed

/-- As an `unsigned int`, -1 is larger than 7. Nothing is concluded from the comparison, as it should be:
below a negative integer there would be no room for 7. -/
theorem assume_keeps_compared_mixed :
    (Mixed.unsignedInt.Holds .bytes 7 ∧ Mixed.signedChar.Holds .bytes (-1) ∧
      (Mixed.store.lookup (.id 1)).Covers 7 ∧ (Mixed.store.lookup (.id 2)).Covers (-1) ∧
      Comparison.lt.holdsBetween .bytes Mixed.unsignedInt Mixed.signedChar 7 (-1) = true ∧
      Comparison.lt.holds 7 (-1) = false) ∧
    ∃ s', Mixed.below.assume true Mixed.store = .ok s' ∧ s'.isReachable = true ∧
      (s'.lookup (.id 1)).Covers 7 ∧ (s'.lookup (.id 2)).Covers (-1) := by
  have hx : Mixed.unsignedInt.Holds .bytes 7 := by decide
  have hy : Mixed.signedChar.Holds .bytes (-1) := by decide
  have hsx : (Mixed.store.lookup (.id 1)).Covers 7 := by decide
  have hsy : (Mixed.store.lookup (.id 2)).Covers (-1) := by decide
  have hholds : Comparison.lt.holdsBetween .bytes Mixed.unsignedInt Mixed.signedChar 7 (-1) = true := by
    decide
  have hkeeps := assume_keeps_compared .bytes (fun _ h => Widths.bytes_strict h) .lt (t := { text := "<" }) rfl
    (Mixed.token_isVariable (.id 1) Mixed.unsignedInt) (Mixed.token_isVariable (.id 2) Mixed.signedChar)
    (by decide) rfl (by decide) rfl (by decide) 1 0 2 Mixed.store rfl hx hy hsx hsy
  rw [hholds] at hkeeps
  exact ⟨⟨hx, hy, hsx, hsy, hholds, rfl⟩, hkeeps⟩

end Expr

end SignFlow

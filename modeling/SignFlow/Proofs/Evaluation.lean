import SignFlow.Proofs.Accounts
import SignFlow.Proofs.Worklist

/-! The evaluation of expressions is sound.

Each way to build an expression keeps soundness: if the operands are evaluated soundly, so is the
expression. Hence every expression that stands for a term is evaluated soundly. -/

namespace SignFlow

namespace Token

theorem known?_of_values {t : Token} (h : t.values = []) : t.known? = .ok none := by
  simp [known?, h]
  rfl

theorem isIntegral_of_type {t : Token} {base : BaseType} {u : Bool}
    (h : t.type = some { base, unsigned := u }) (hb : base = .int ∨ base = .bool) :
    t.isIntegral = true := by
  rcases hb with rfl | rfl <;> simp [isIntegral, h] <;> rfl

theorem IsInt.isNumeric {t : Token} (h : t.IsInt) : t.isNumeric = true := by
  rw [Token.isNumeric, isIntegral_of_type h (.inl rfl)]
  rfl

theorem IsDecimal.writes {t : Token} {digits : List Char} (h : t.IsDecimal digits) :
    Literal.Writes t.text digits (Nat.ofDigitChars 10 digits 0) := by
  refine .plain ?_ h.nonempty h.digit
  rw [h.text_eq, List.filter_eq_self]
  intro c hc
  have := h.digit c hc
  by_contra hb
  simp only [ne_eq, decide_not, Bool.not_eq_true', decide_eq_false_iff_not, not_not] at hb
  subst hb
  exact absurd this (by decide)

end Token

theorem Walk.assignTo_names {q : Nat} {v : Token} {k : Key} (hv : v.Names k) (a : Sign) :
    Walk.assignTo (.node q v .absent .absent) (some a) = Walk.change (·.bind k a) := by
  have hk : (Expr.node q v .absent .absent).key? = some k := hv.key
  simp only [Walk.assignTo, hk, (Reads.var hv : Reads (.node q v .absent .absent) _).isNumeric, if_true]

/-- Without known values an expression is evaluated by what it is. -/
theorem Expr.eval_node {pos : Nat} {t : Token} {l r : Expr} (h : t.values = []) :
    (Expr.node pos t l r).eval = Eval.visit pos t l r l.meaning r.meaning := by
  show Eval.withKnown t (Eval.visit pos t l r l.meaning r.meaning) = _
  unfold Eval.withKnown
  rw [Token.known?_of_values h]
  exact Walk.bind_pure _

theorem Expr.binaryOf?_of_text {t : Token} {l r : Expr} (hl : l.isAbsent = false)
    (hr : r.isAbsent = false) {text : String} (ht : t.text = text) :
    binaryOf? t l r = Binary.ofText? text := by
  simp [binaryOf?, hl, hr, ht]

theorem Expr.binaryOf?_comparison {t : Token} {l r : Expr} {c : Comparison} (hl : l.isAbsent = false)
    (hr : r.isAbsent = false) (ht : t.text = c.symbol) : binaryOf? t l r = some (.comparison c) := by
  rw [binaryOf?_of_text hl hr ht]
  cases c <;> rfl

theorem Expr.binaryOf?_compound {t : Token} {l r : Expr} {op : Operator} (hl : l.isAbsent = false)
    (hr : r.isAbsent = false) (ht : t.text = op.symbol ++ "=") : binaryOf? t l r = some (.compound op) := by
  rw [binaryOf?_of_text hl hr ht]
  cases op <;> rfl

namespace Eval

variable {pos : Nat} {t : Token} {l r : Expr} {ml mr : Meaning}

theorem visit_assign (ht : t.text = "=") (hr : r.isAbsent = false) :
    visit pos t l r ml mr = assign l r ml.value mr.value := by
  simp [visit, hr, ht]

theorem visit_arithmetic {op : Operator} (hb : Expr.binaryOf? t l r = some (.arithmetic op))
    (hl : l.isAbsent = false) (hne : (t.text == "=") = false) :
    visit pos t l r ml mr = arithmetic pos t op l r ml.value mr.value := by
  simp [visit, hl, hne, hb]

theorem visit_compound {op : Operator} (hb : Expr.binaryOf? t l r = some (.compound op))
    (hl : l.isAbsent = false) (hne : (t.text == "=") = false) :
    visit pos t l r ml mr = compound pos t op l r ml.value mr.value := by
  simp [visit, hl, hne, hb]

/-- A step, its operand on either side. -/
theorem visit_step {up : Bool} {operand : Expr} (ht : t.text = if up then "++" else "--")
    (ho : (l, r) = (operand, .absent) ∨ (l, r) = (.absent, operand)) (hn : operand.isAbsent = false) :
    visit pos t l r l.meaning r.meaning = step (if up then .plus else .minus) operand operand.eval := by
  have hb : Expr.binaryOf? t l r = none := by
    rcases ho with h | h <;> cases h <;> simp [Expr.binaryOf?, Expr.isAbsent]
  unfold visit
  rw [hb, ht]
  rcases ho with h | h <;> cases h <;> rw [hn] <;> cases up <;> rfl

/-- An operator with one operand that none of the others is. -/
theorem visit_unary (hl : l.isAbsent = false) (ht : t.text ∈ ["-", "+", "!"]) :
    visit pos t l .absent ml mr = unary t l ml.value := by
  have hb : Expr.binaryOf? t l .absent = none := by simp [Expr.binaryOf?, Expr.isAbsent]
  unfold visit
  rw [hb, hl]
  simp only [List.mem_cons, List.not_mem_nil, or_false] at ht
  rcases ht with ht | ht | ht <;> simp [ht, Expr.isCastOf, Expr.isAbsent]

theorem visit_logical {conj : Bool} (ht : t.text = if conj then "&&" else "||")
    (hl : l.isAbsent = false) (hr : r.isAbsent = false) :
    visit pos t l r ml mr = shortCircuit conj ml mr := by
  have hb := Expr.binaryOf?_of_text hl hr ht
  unfold visit
  rw [hb, hl, hr, ht]
  cases conj <;> rfl

theorem visit_conditional {q : Nat} {colon : Token} {yes no : Expr} (ht : t.text = "?")
    (hc : colon.text = ":") (hl : l.isAbsent = false) :
    visit pos t l (.node q colon yes no) ml mr = conditional t true ml mr := by
  have hb : Expr.binaryOf? t l (.node q colon yes no) = none := by
    rw [Expr.binaryOf?_of_text hl rfl ht]
    rfl
  unfold visit
  rw [hb, hl, ht, show (Expr.node q colon yes no).text = ":" from hc]
  rfl

theorem visit_comparison {c : Comparison} (hb : Expr.binaryOf? t l r = some (.comparison c))
    (hl : l.isAbsent = false) (hne : (t.text == "=") = false) :
    visit pos t l r ml mr = comparison ml.value mr.value := by
  simp [visit, hl, hne, hb]

/-- Comparing with a sign leaves the store as it is or refines it by what is known of the expression. -/
theorem compareWith_cases {c : Comparison} {e : Expr} {value : Walk Fact} {sign : Sign} {s s' : Store}
    (h : compareWith c e value sign s = .ok s') :
    s' = s ∨ ∃ a, factOf e value s = .ok (some a) ∧
      s' = (s.refine c e.key? (some a) none (some sign)).1 := by
  obtain ⟨f, hf, h⟩ := (Returning.except Fault).of_bind h
  cases f with
  | none =>
    cases h
    exact .inl rfl
  | some a =>
    cases h
    exact .inr ⟨a, hf, rfl⟩

theorem compare_cases {c : Comparison} {left right : Walk Fact} {s s' : Store}
    (h : compare c l r left right s = .ok s') :
    s' = s ∨ ∃ a b, factOf l left s = .ok (some a) ∧ factOf r right s = .ok (some b) ∧
      s' = (s.refine c l.key? (some a) r.key? (some b)).1 := by
  obtain ⟨f, hf, h⟩ := (Returning.except Fault).of_bind h
  obtain ⟨g, hg, h⟩ := (Returning.except Fault).of_bind h
  split at h
  · split at h
    · cases h
      exact .inr ⟨_, _, hf, hg, rfl⟩
    · cases h
      exact .inl rfl
  · cases h
    exact .inl rfl

end Eval

def Binary.isComparison : Binary → Bool
  | comparison _ => true
  | _ => false

namespace Expr

variable {pos : Nat} {t : Token} {l r : Expr} {s : Store}

theorem assume_not (ht : t.text = "!") (hl : l.isAbsent = false) (hs : s.isReachable = true)
    (truth : Bool) : (node pos t l .absent).assume truth s = l.assume (!truth) s := by
  show Eval.assumeNode _ t l .absent _ _ _ truth s = _
  simp only [Eval.assumeNode, hs, ht, hl]
  rfl

theorem assume_comparison {c : Comparison} (ht : t.text = c.symbol)
    (hb : binaryOf? t l r = some (.comparison c)) (hs : s.isReachable = true) (truth : Bool) :
    (node pos t l r).assume truth s =
      Eval.compare (if truth then c else c.negate) l r l.eval r.eval s := by
  show Eval.assumeNode _ t l r _ _ _ truth s = _
  simp only [Eval.assumeNode, hs, hb, ht]
  cases c <;> rfl

theorem assume_logical {conj : Bool} (ht : t.text = if conj then "&&" else "||")
    (hl : l.isAbsent = false) (hr : r.isAbsent = false) (hs : s.isReachable = true) (truth : Bool) :
    (node pos t l r).assume truth s = (do
      let first ← l.assume truth s
      if conj == truth then r.assume truth first
      else do
        let second ← r.assume truth (← l.assume (!truth) s)
        pure (first.join second)) := by
  show Eval.assumeNode _ t l r _ _ _ truth s = _
  simp only [Eval.assumeNode, hs, ht, hl, hr]
  cases conj <;> rfl

/-- What is no logical operator and no comparison is true where it is not zero. -/
theorem assume_value (hn : t.isNumeric = true)
    (hnot : (t.text == "!" && r.isAbsent && !l.isAbsent) = false)
    (hlogical : ((t.text == "&&" || t.text == "||") && !l.isAbsent && !r.isAbsent) = false)
    (hcomp : (binaryOf? t l r).any Binary.isComparison = false) (hs : s.isReachable = true)
    (truth : Bool) :
    (node pos t l r).assume truth s =
      (node pos t l r).compareWith (if truth then .ne else .eq) .zero s := by
  show Eval.assumeNode _ t l r _ _ _ truth s = _
  unfold Eval.assumeNode
  rw [hs, hnot, hlogical, hn]
  simp only [Bool.not_true, Bool.false_eq_true, if_false, if_true]
  rcases hb : binaryOf? t l r with _ | op | op | c
  · rfl
  · rfl
  · rfl
  · rw [hb] at hcomp
    cases hcomp

end Expr

/-- A term that is no comparison and no logical operator is tested by its value. -/
theorem Reads.assume_value {e : Expr} {u : Term} (h : Reads e u) (hu : u.isValue = true) {s : Store}
    (hs : s.isReachable = true) (truth : Bool) :
    e.assume truth s = e.compareWith (if truth then .ne else .eq) .zero s := by
  have leaf : ∀ {pos : Nat} {t : Token}, t.IsInt → (Expr.node pos t .absent .absent).assume truth s =
      (Expr.node pos t .absent .absent).compareWith (if truth then .ne else .eq) .zero s :=
    fun type => Expr.assume_value type.isNumeric (by simp [Expr.isAbsent]) (by simp [Expr.isAbsent])
      (by simp [Expr.binaryOf?, Expr.isAbsent]) hs truth
  have operator : ∀ {pos : Nat} {t : Token} {l r : Expr} {text : String}, t.IsOperator text → t.IsInt →
      text ≠ "!" → text ≠ "&&" → text ≠ "||" → (Binary.ofText? text).any Binary.isComparison = false →
      (Expr.node pos t l r).assume truth s =
        (Expr.node pos t l r).compareWith (if truth then .ne else .eq) .zero s := by
    intro pos t l r text ht type hnot hand hor hb
    refine Expr.assume_value type.isNumeric ?_ ?_ ?_ hs truth
    · simp [ht.text_eq, hnot]
    · simp [ht.text_eq, hand, hor]
    · unfold Expr.binaryOf?
      split
      · rfl
      · rw [ht.text_eq]
        exact hb
  cases h with
  | literal ht => exact leaf ht.type
  | var ht => exact leaf ht.type
  | @arithmetic _ _ op _ _ _ _ ht type =>
    cases op <;> exact operator ht type (by decide) (by decide) (by decide) rfl
  | @compound _ _ op _ _ _ _ ht type =>
    cases op <;> exact operator ht type (by decide) (by decide) (by decide) rfl
  | @stepBefore _ _ up _ _ ht type | @stepAfter _ _ up _ _ ht type =>
    cases up <;> exact operator ht type (by decide) (by decide) (by decide) rfl
  | assign ht type | minus ht type | plus ht type | conditional ht type | comma ht type =>
    exact operator ht type (by decide) (by decide) (by decide) rfl
  | not | comparison | logical => cases hu

namespace Sound

open Eval

variable {pos q : Nat} {t : Token} {l r : Expr} {a b : Term}

theorem fact {e : Expr} {t : Term} (h : e.AccountsFor t) (hr : Reads e t) {s : Store} {ρ ρ' : Env} {v : Int}
    (hs : s.Covers ρ) (hv : t.run ρ (.value v ρ')) {f : Fact} (hf : e.fact s = .ok f) :
    f.Covers v := by
  unfold Expr.fact factOf at hf
  split at hf
  · cases hf
    rw [hr.isNumeric]
    exact ⟨.top, rfl, Sign.covers_top v⟩
  · exact ((h hs).value hf hv).1

/-- The variable of an expression that names one has the value the expression has. -/
theorem key {e : Expr} {t : Term} (hr : Reads e t) {ρ ρ' : Env} {v : Int}
    (hv : t.run ρ (.value v ρ')) : ∀ k ∈ e.key?, ρ k = v := by
  intro k hk
  obtain rfl := hr.key hk
  exact (Run.read_value.mp hv).1.symm

/-- Assuming how an expression compares with a sign keeps the environments where it does. -/
theorem compareWith {e : Expr} {t : Term} (h : e.AccountsFor t) (hr : Reads e t) {s s' : Store}
    {ρ ρ' : Env} {v y : Int} {c : Comparison} {sign : Sign} (hs : s.Covers ρ)
    (hv : t.run ρ (.value v ρ')) (hy : sign.Covers y) (hc : c.holds v y = true)
    (he : e.compareWith c sign s = .ok s') : s'.Covers ρ := by
  rcases compareWith_cases he with rfl | ⟨sx, hf, rfl⟩
  · exact hs
  · exact hs.refine (fact h hr hs hv hf).sign hy (key hr hv) (by simp) hc

/-- Assuming how two expressions compare keeps the environments where they do. -/
theorem compare (hl : l.AccountsFor a) (hr : r.AccountsFor b) (rl : Reads l a) (rr : Reads r b) {s s' : Store}
    {ρ ρ₁ ρ₂ : Env} {x y : Int} {c : Comparison} (hs : s.Covers ρ) (hx : a.run ρ (.value x ρ₁))
    (hy : b.run ρ (.value y ρ₂)) (hc : c.holds x y = true)
    (he : Eval.compare c l r l.eval r.eval s = .ok s') : s'.Covers ρ := by
  rcases compare_cases he with rfl | ⟨sx, sy, hf, hg, rfl⟩
  · exact hs
  · have hsx := (fact hl rl hs hx hf).sign
    have hsy := (fact hr rr hs hy hg).sign
    exact hs.refine hsx hsy (key rl hx) (key rr hy) hc

theorem of_value {e : Expr} {u : Term} (hv : e.AccountsFor u) (hr : Reads e u) (hu : u.isValue = true) :
    Sound e u := by
  refine ⟨hv, fun _ s s' ρ ρ' v hs hrun he => ?_⟩
  rw [hr.assume_value hu hs.isReachable] at he
  refine compareWith hv hr hs hrun (Sign.covers_ofInt 0) ?_ he
  by_cases h : v = 0 <;> simp [h, Comparison.holds]

theorem literal {digits : List Char} (ht : t.IsDecimal digits) :
    Sound (.node pos t .absent .absent) (.literal digits) := by
  refine of_value (fun s ρ hs => ?_) (.literal ht) rfl
  rw [Expr.eval_node ht.values]
  have hleaf : leaf t s = (Walk.lift (Literal.sign t.text) >>= fun a => pure (some a)) s := by
    simp only [leaf, ht.type.isNumeric, ht.number, Bool.not_true, Bool.false_eq_true, if_false,
      Bool.true_or, if_true]
    show (if !s.isReachable then _ else _ : Walk Fact) s = _
    rw [hs.isReachable]
    rfl
  show (leaf t s).Accounts _ _
  rw [hleaf, ht.writes.sign]
  split
  · exact .of_error rfl
  · exact .pure ⟨_, rfl, Sign.covers_ofInt _⟩ hs

theorem var {k : Key} (ht : t.Names k) : Sound (.node pos t .absent .absent) (.var k) := by
  refine of_value (fun s ρ hs => ?_) (.var ht) rfl
  rw [Expr.eval_node ht.values]
  have hleaf : leaf t s = (pure (some (s.lookup k)) : Walk Fact) s := by
    simp only [leaf, ht.type.isNumeric, ht.notNumber, ht.notChar, ht.key, Bool.not_true,
      Bool.false_eq_true, if_false, Bool.or_false]
    show (if !s.isReachable then _ else _ : Walk Fact) s = _
    rw [hs.isReachable]
    rfl
  show (leaf t s).Accounts _ _
  rw [hleaf]
  exact .pure ⟨_, rfl, hs k⟩ hs

/-- A difference of a variable and itself is zero. -/
theorem cancels_zero {op : Operator} (rl : Reads l a) (rr : Reads r b) (hc : cancels op l r = true)
    {ρ ρ₁ ρ₂ : Env} {x y v : Int} (hx : a.run ρ (.value x ρ₁)) (hy : b.run ρ₁ (.value y ρ₂))
    (hv : op.Gives x y v) : v = 0 := by
  simp only [cancels, Bool.and_eq_true, beq_iff_eq, Option.isSome_iff_exists] at hc
  obtain ⟨⟨⟨rfl, k, hk⟩, hkey⟩, _⟩ := hc
  obtain rfl := rl.key hk
  obtain rfl := rr.key (hkey ▸ hk)
  obtain ⟨rfl, rfl⟩ := Run.read_value.mp hx
  obtain ⟨rfl, rfl⟩ := Run.read_value.mp hy
  obtain rfl := hv
  exact Int.sub_self _

theorem arithmetic {op : Operator} (ht : t.IsOperator op.symbol) (type : t.IsInt) (rl : Reads l a)
    (rr : Reads r b) (hl : Sound l a) (hr : Sound r b) :
    Sound (.node pos t l r) (.arithmetic pos op a b) := by
  have hb : Expr.binaryOf? t l r = some (.arithmetic op) := by
    rw [Expr.binaryOf?_of_text rl.isAbsent rr.isAbsent ht.text_eq]
    cases op <;> rfl
  refine of_value (fun s ρ hs => ?_) (.arithmetic ht type rl rr) rfl
  rw [Expr.eval_node ht.values,
    visit_arithmetic hb rl.isAbsent (by rw [ht.text_eq]; cases op <;> rfl), Term.run]
  refine (hl.value hs).bind fun f x s₁ ρ₁ hf hs₁ hx => ?_
  refine (hr.value hs₁).bind fun g y s₂ ρ₂ hg hs₂ hy => ?_
  obtain ⟨sx, rfl, hsx⟩ := hf
  obtain ⟨sy, rfl, hsy⟩ := hg
  have covers : ∀ v, op.Gives x y v → (if cancels op l r && op.apply sx sy != .bottom then Sign.zero
      else op.apply sx sy).Covers v := by
    intro v hv
    split
    · rename_i hc
      rw [cancels_zero rl rr (Bool.and_eq_true_iff.mp hc).1 hx hy hv]
      exact Sign.covers_ofInt 0
    · exact hv.covers hsx hsy
  rw [type, rl.convert, rr.convert]
  dsimp only
  rw [Fact.fit_int, ← Run.bind_pure (Run.compute pos op x y)]
  refine .compute (fun hy => ⟨rfl, ?_, ?_⟩) fun v hv => .pure ⟨_, rfl, covers v hv⟩ hs₂
  · simp [rl.isIntegral, rr.isIntegral]
  · exact (hy ▸ hsy).mayBeZero

theorem assign (ht : t.IsOperator "=") (rl : Reads l a) (ha : a.name?.isSome = true) (rr : Reads r b)
    (hr : Sound r b) : Sound (.node pos t l r) (.assign a b) := by
  obtain ⟨q, v, k, rfl, rfl, hv⟩ := rl.of_name ha
  refine ⟨fun s ρ hs => ?_, fun h => nomatch h⟩
  rw [Expr.eval_node ht.values, visit_assign ht.text_eq rr.isAbsent, Term.run_assign_var]
  refine (hr.value hs).bind fun f x s₁ ρ₁ hf hs₁ hx => ?_
  obtain ⟨a, rfl, ha⟩ := hf
  have hkey : (Expr.node q v .absent .absent).key? = some k := hv.key
  have htype : (Expr.node q v .absent .absent).type? = some { base := .int } := hv.type
  rw [htype, rr.convert, hkey]
  simp only [Option.isNone_some, Bool.false_eq_true, if_false, Walk.assignTo_names hv,
    (Reads.var hv : Reads (.node q v .absent .absent) _).isNumeric, if_true]
  exact (Outcome.Accounts.write ha hs₁).bind fun _ _ s₂ ρ₂ _ hs₂ _ => .pure ⟨a, rfl, ha⟩ hs₂

theorem compound {op : Operator} (ht : t.IsOperator (op.symbol ++ "=")) (rl : Reads l a)
    (ha : a.name?.isSome = true) (rr : Reads r b) (hr : Sound r b) :
    Sound (.node pos t l r) (.compound pos op a b) := by
  obtain ⟨q, v, k, rfl, rfl, hv⟩ := rl.of_name ha
  refine ⟨fun s ρ hs => ?_, fun h => nomatch h⟩
  have hb := Expr.binaryOf?_compound rl.isAbsent rr.isAbsent ht.text_eq
  rw [Expr.eval_node ht.values, visit_compound hb rfl (by rw [ht.text_eq]; cases op <;> rfl),
    Term.run_compound_var]
  refine (hr.value hs).bind fun g y s₁ ρ₁ hg hs₁ hy => ?_
  refine ((var hv).value hs₁).bind fun f x s₂ ρ₂ hf hs₂ hx => ?_
  obtain ⟨sx, rfl, hsx⟩ := hf
  obtain ⟨sy, rfl, hsy⟩ := hg
  have htype : (Expr.node q v .absent .absent).type? = some { base := .int } := hv.type
  dsimp only
  rw [htype, Fact.narrow_int, rr.isIntegral]
  simp only [Bool.not_true, Bool.and_false, Bool.false_and, Bool.false_eq_true, if_false,
    Walk.assignTo_names hv]
  refine .compute (fun h => ⟨rfl, rfl, (h ▸ hsy).mayBeZero⟩) fun w hw => ?_
  have hcov := hw.covers hsx hsy
  exact (Outcome.Accounts.write hcov hs₂).bind fun _ _ s₃ ρ₃ _ hs₃ _ => .pure ⟨_, rfl, hcov⟩ hs₃

/-- A step up or down, the operand on either side. -/
theorem step_accounts {up : Bool} {op : Operator} (hop : op = if up then .plus else .minus)
    (rl : Reads l a) (ha : a.name?.isSome = true) {s : Store} {ρ : Env} (hs : s.Covers ρ) :
    (step op l l.eval s).Accounts Fact.Covers ((Term.step up a).run ρ) := by
  obtain ⟨q, v, k, rfl, rfl, hv⟩ := rl.of_name ha
  have htype : (Expr.node q v .absent .absent).type? = some { base := .int } := hv.type
  rw [Term.run_step_var]
  refine ((var hv).value hs).bind fun f x s₁ ρ₁ hf hs₁ hx => ?_
  obtain ⟨old, rfl, hold⟩ := hf
  have hnew : (op.apply old .pos).Covers (if up then x + 1 else x - 1) := by
    refine Operator.Gives.covers (y := 1) ?_ hold (by decide)
    cases up <;> rw [hop] <;> rfl
  dsimp only
  rw [if_pos rl.isNumeric, htype, Fact.narrow_int, Walk.assignTo_names hv]
  refine (Outcome.Accounts.write hnew hs₁).bind fun _ _ s₂ ρ₂ _ hs₂ _ => ?_
  refine .choose ?_ hs₂
  rintro w (rfl | rfl)
  · exact ⟨_, rfl, hold.mono (Sign.le_join_left _ _)⟩
  · exact ⟨_, rfl, hnew.mono (Sign.le_join_right _ _)⟩

theorem stepBefore {up : Bool} (ht : t.IsOperator (if up then "++" else "--")) (rl : Reads l a)
    (ha : a.name?.isSome = true) : Sound (.node pos t l .absent) (.step up a) := by
  refine ⟨fun s ρ hs => ?_, fun h => nomatch h⟩
  rw [Expr.eval_node ht.values, visit_step ht.text_eq (.inl rfl) rl.isAbsent]
  exact step_accounts rfl rl ha hs

theorem stepAfter {up : Bool} (ht : t.IsOperator (if up then "++" else "--")) (rr : Reads r a)
    (ha : a.name?.isSome = true) : Sound (.node pos t .absent r) (.step up a) := by
  refine ⟨fun s ρ hs => ?_, fun h => nomatch h⟩
  rw [Expr.eval_node ht.values, visit_step ht.text_eq (.inr rfl) rr.isAbsent]
  exact step_accounts rfl rr ha hs

theorem minus (ht : t.IsOperator "-") (type : t.IsInt) (rl : Reads l a) (hl : Sound l a) :
    Sound (.node pos t l .absent) (.minus a) := by
  refine of_value (fun s ρ hs => ?_) (.minus ht type rl) rfl
  rw [Expr.eval_node ht.values, visit_unary rl.isAbsent (by simp [ht.text_eq]), Term.run]
  simp only [unary, ht.text_eq]
  refine (hl.value hs).bind fun f x s₁ ρ₁ hf hs₁ _ => ?_
  obtain ⟨sx, rfl, hsx⟩ := hf
  rw [Option.bind_some, type, Fact.fit_int]
  exact .pure ⟨_, rfl, hsx.negate⟩ hs₁

theorem plus (ht : t.IsOperator "+") (type : t.IsInt) (rl : Reads l a) (hl : Sound l a) :
    Sound (.node pos t l .absent) (.plus a) := by
  refine of_value (fun s ρ hs => ?_) (.plus ht type rl) rfl
  rw [Expr.eval_node ht.values, visit_unary rl.isAbsent (by simp [ht.text_eq]), Term.run]
  simp only [unary, ht.text_eq, Walk.bind_pure]
  exact hl.value hs

theorem not (ht : t.IsOperator "!") (rl : Reads l a) (hl : Sound l a) :
    Sound (.node pos t l .absent) (.not a) := by
  constructor
  · intro s ρ hs
    rw [Expr.eval_node ht.values, visit_unary rl.isAbsent (by simp [ht.text_eq]), Term.run]
    simp only [unary, ht.text_eq]
    refine (hl.value hs).bind fun f x s₁ ρ₁ hf hs₁ _ => ?_
    obtain ⟨sx, rfl, hsx⟩ := hf
    rw [if_neg (by simpa using hsx.ne_bottom)]
    exact .pure ⟨_, rfl, Sign.covers_top _⟩ hs₁
  · intro hp s s' ρ ρ' v hs hv he
    obtain ⟨x, ρ₁, hx, hv⟩ := Run.bind_value.mp hv
    obtain ⟨rfl, _⟩ := Run.pure_value.mp hv
    rw [Expr.assume_not ht.text_eq rl.isAbsent hs.isReachable] at he
    refine hl.assume hp hs hx ?_
    rw [← he]
    by_cases h : x = 0 <;> simp [h]

theorem comparison {c : Comparison} (ht : t.IsOperator c.symbol) (rl : Reads l a) (rr : Reads r b)
    (hl : Sound l a) (hr : Sound r b) : Sound (.node pos t l r) (.comparison c a b) := by
  have hb := Expr.binaryOf?_comparison rl.isAbsent rr.isAbsent ht.text_eq
  constructor
  · intro s ρ hs
    rw [Expr.eval_node ht.values, visit_comparison hb rl.isAbsent (by rw [ht.text_eq]; cases c <;> rfl),
      Term.run]
    refine (hl.value hs).bind fun f x s₁ ρ₁ hf hs₁ _ => ?_
    refine (hr.value hs₁).bind fun g y s₂ ρ₂ hg hs₂ _ => ?_
    obtain ⟨sx, rfl, hsx⟩ := hf
    obtain ⟨sy, rfl, hsy⟩ := hg
    refine .pure ⟨_, rfl, ?_⟩ hs₂
    simp only [Option.getD_some, Comparison.value, hsx.ne_bottom, hsy.ne_bottom, or_self, if_false]
    exact Sign.covers_top _
  · intro hp s s' ρ ρ' v hs hv he
    rw [Term.isPure, Bool.and_eq_true] at hp
    obtain ⟨x, ρ₁, hx, hrest⟩ := Run.bind_value.mp hv
    obtain ⟨y, ρ₂, hy, hlast⟩ := Run.bind_value.mp hrest
    obtain ⟨rfl, _⟩ := Run.pure_value.mp hlast
    obtain rfl := Term.run_still hp.1 hx
    rw [Expr.assume_comparison ht.text_eq hb hs.isReachable] at he
    refine compare hl.value hr.value rl rr hs hx hy ?_ he
    cases h : c.holds x y <;> simp [h, Comparison.holds_negate]

/-- The test runs first: what comes next starts from a store where the outcome may be assumed. -/
theorem accounts_tested {f : Store → Walk Fact} {g : Int → Run Int} (hl : l.AccountsFor a)
    (hb : l.BranchesFor a) {s : Store} {ρ : Env} (hs : s.Covers ρ)
    (h : ∀ {s₁ ρ₁ x}, s₁.Covers ρ₁ →
      (∀ s', l.assume (decide (x ≠ 0)) s₁ = .ok s' → s'.Covers ρ₁) →
      (f s₁ s₁).Accounts Fact.Covers (g x ρ₁)) :
    ((do
      let _ ← l.meaning.value
      f (← Walk.store) : Walk Fact) s).Accounts Fact.Covers ((a.run >>= g) ρ) :=
  (hl hs).bind_at fun _ _ _ hv _ hs₁ hx => h hs₁ fun _ he => hb hs hv hx he

/-- The right operand runs where the left one has the outcome that goes on. -/
theorem logical_accounts {conj : Bool} (hl : l.AccountsFor a) (hb : l.BranchesFor a)
    (hr : r.AccountsFor b) {s : Store} {ρ : Env} (hs : s.Covers ρ) :
    (shortCircuit conj l.meaning r.meaning s).Accounts Fact.Covers
      ((Term.logical conj a b).run ρ) := by
  rw [Term.run, shortCircuit]
  refine accounts_tested hl hb hs fun {s₁ ρ₁ x} hs₁ htest => ?_
  refine .after (x := Walk.lift (l.assume conj s₁)) fun taken htaken => ?_
  -- whatever ran, the store it left is taken in, and the value may be anything
  have last : ∀ {branch : Store} {ρ' : Env} {v : Int}, (s₁.absorb branch).Covers ρ' →
      ((do
        Walk.change (·.absorb branch)
        pure (some (if (← Walk.store).isReachable then .top else .bottom)) : Walk Fact) s₁).Accounts
        Fact.Covers ((pure v : Run Int) ρ') := by
    intro branch ρ' v h
    refine .pure (a := some (if (s₁.absorb branch).isReachable then Sign.top else Sign.bottom)) ?_ h
    rw [h.isReachable]
    exact ⟨.top, rfl, Sign.covers_top v⟩
  by_cases hgo : decide (x ≠ 0) = conj
  · rw [if_pos hgo]
    have htakes : taken.Covers ρ₁ := htest taken (hgo ▸ htaken)
    exact .aside (hr htakes) fun f' y ρ₂ _ hbranch => last (hbranch.absorbed hs₁)
  · rw [if_neg hgo]
    exact .after fun p _ => last (hs₁.absorb p.2)

/-- Assuming an outcome of a logical operator keeps the environments where it has that outcome. -/
theorem logical_assume {conj : Bool} (hp : (Term.logical conj a b).isPure = true) (hl : Sound l a)
    (hr : Sound r b) {s s' : Store} {ρ ρ' : Env} {v : Int} (hs : s.Covers ρ)
    (hv : (Term.logical conj a b).run ρ (.value v ρ'))
    (he : (do
      let first ← l.assume (decide (v ≠ 0)) s
      if conj == decide (v ≠ 0) then r.assume (decide (v ≠ 0)) first
      else do
        let second ← r.assume (decide (v ≠ 0)) (← l.assume (!decide (v ≠ 0)) s)
        pure (first.join second)) = Except.ok s') : s'.Covers ρ := by
  rw [Term.isPure, Bool.and_eq_true] at hp
  rw [Term.run] at hv
  obtain ⟨x, ρ₁, hx, hrest⟩ := Run.bind_value.mp hv
  obtain ⟨first, hfirst, he⟩ := (Returning.except Fault).of_bind he
  by_cases hgo : decide (x ≠ 0) = conj
  · rw [if_pos hgo] at hrest
    obtain ⟨y, ρ₂, hy, hlast⟩ := Run.bind_value.mp hrest
    obtain ⟨hv', _⟩ := Run.pure_value.mp hlast
    have hd : decide (v ≠ 0) = decide (y ≠ 0) := by rw [hv']; cases decide (y ≠ 0) <;> rfl
    rw [Term.run_still hp.1 hx] at hy
    rw [hd] at hfirst he
    by_cases hsame : conj = decide (y ≠ 0)
    · -- both sides have the outcome
      rw [if_pos (by simpa using hsame)] at he
      exact hr.assume hp.2 (hl.assume hp.1 hs hx (by rw [hgo, hsame]; exact hfirst)) hy he
    · -- the left side went on, the right one decided
      rw [if_neg (by simpa using hsame)] at he
      obtain ⟨left, hleft, he⟩ := (Returning.except Fault).of_bind he
      obtain ⟨second, hsecond, he⟩ := (Returning.except Fault).of_bind he
      cases he
      have hleft' : l.assume (decide (x ≠ 0)) s = .ok left := by
        refine Eq.trans ?_ hleft
        rw [hgo, Bool.eq_not.mpr hsame]
      exact (hr.assume hp.2 (hl.assume hp.1 hs hx hleft') hy hsecond).join_right first
  · -- the left side decided
    rw [if_neg hgo] at hrest
    obtain ⟨hv', _⟩ := Run.pure_value.mp hrest
    have hd : decide (v ≠ 0) = !conj := by rw [hv']; cases conj <;> rfl
    rw [hd] at hfirst he
    rw [if_neg (by cases conj <;> simp)] at he
    obtain ⟨left, _, he⟩ := (Returning.except Fault).of_bind he
    obtain ⟨second, _, he⟩ := (Returning.except Fault).of_bind he
    cases he
    have hfirst' : l.assume (decide (x ≠ 0)) s = .ok first := by
      refine Eq.trans ?_ hfirst
      rw [Bool.eq_not.mpr hgo]
    exact (hl.assume hp.1 hs hx hfirst').join_left second

theorem logical {conj : Bool} (ht : t.IsOperator (if conj then "&&" else "||")) (rl : Reads l a)
    (rr : Reads r b) (hp : a.isPure = true) (hl : Sound l a) (hr : Sound r b) :
    Sound (.node pos t l r) (.logical conj a b) := by
  constructor
  · intro s ρ hs
    rw [Expr.eval_node ht.values, visit_logical ht.text_eq rl.isAbsent rr.isAbsent]
    exact logical_accounts hl.value (hl.branches hp) hr.value hs
  · intro hp s s' ρ ρ' v hs hv he
    rw [Expr.assume_logical ht.text_eq rl.isAbsent rr.isAbsent hs.isReachable] at he
    exact logical_assume hp hl hr hs hv he

/-- Each arm runs where the test has its outcome. -/
theorem conditional_accounts {arms : Meaning} {d : Term} (type : t.IsInt) (hl : l.AccountsFor a)
    (hb : l.BranchesFor a)
    (hy : ∀ {s ρ}, s.Covers ρ → (arms.left s).Accounts Fact.Covers (b.run ρ))
    (hn : ∀ {s ρ}, s.Covers ρ → (arms.right s).Accounts Fact.Covers (d.run ρ)) {s : Store} {ρ : Env}
    (hs : s.Covers ρ) :
    (Eval.conditional t true l.meaning arms s).Accounts Fact.Covers
      ((Term.conditional a b d).run ρ) := by
  rw [Term.run, Eval.conditional, if_neg (by simp)]
  refine accounts_tested hl hb hs fun {s₁ ρ₁ x} hs₁ htest => ?_
  refine .after (x := Walk.lift (l.assume true s₁)) fun yesStore hyes => ?_
  have last : ∀ {f : Fact} {out : Store} {ρ' : Env} {v : Int}, out.Covers ρ' → f.Covers v →
      ((do Walk.change (·.adopt out); pure f : Walk Fact) s₁).Accounts Fact.Covers
        ((pure v : Run Int) ρ') := fun hout hf => .pure hf (hout.adopted hs₁)
  have unknown : ∀ v, Fact.Covers t.unknown v := fun v => ⟨.top, if_pos type.isNumeric, Sign.covers_top v⟩
  by_cases hx' : x ≠ 0
  · rw [if_pos hx', ← Run.bind_pure b.run]
    have hy' : yesStore.Covers ρ₁ := htest yesStore ((decide_eq_true hx').symm ▸ hyes)
    refine .aside (hy hy') fun yes v ρ₂ hv hend => ?_
    refine .after (x := Walk.lift (l.assume false s₁)) fun noStore _ => .after fun no _ => ?_
    obtain ⟨a, rfl, ha⟩ := hv
    rcases no with ⟨_ | b, noEnd⟩
    · exact last (hend.join_left noEnd) (unknown v)
    · exact last (hend.join_left noEnd) ⟨a.join b, rfl, ha.mono (Sign.le_join_left a b)⟩
  · rw [if_neg hx', ← Run.bind_pure d.run]
    refine .after fun yes _ => ?_
    refine .after (x := Walk.lift (l.assume false s₁)) fun noStore hno => ?_
    have hn' : noStore.Covers ρ₁ := htest noStore ((decide_eq_false hx').symm ▸ hno)
    refine .aside (hn hn') fun no v ρ₂ hv hend => ?_
    obtain ⟨b, rfl, hb⟩ := hv
    rcases yes with ⟨_ | a, yesEnd⟩
    · exact last (hend.join_right yesEnd) (unknown v)
    · exact last (hend.join_right yesEnd) ⟨a.join b, rfl, hb.mono (Sign.le_join_right a b)⟩

theorem conditional {colon : Token} {y n : Expr} {d : Term} (ht : t.IsOperator "?")
    (type : t.IsInt) (hc : colon.text = ":") (hv : colon.values = []) (rl : Reads l a)
    (ry : Reads y b) (rn : Reads n d) (hp : a.isPure = true) (hl : Sound l a) (hy : Sound y b)
    (hn : Sound n d) :
    Sound (.node pos t l (.node q colon y n)) (.conditional a b d) := by
  refine of_value (fun s ρ hs => ?_) (.conditional ht type hc hv rl ry rn) rfl
  rw [Expr.eval_node ht.values, visit_conditional ht.text_eq hc rl.isAbsent]
  exact conditional_accounts type hl.value (hl.branches hp) (fun hs => hy.value hs)
    (fun hs => hn.value hs) hs

theorem comma (ht : t.IsOperator ",") (type : t.IsInt) (rl : Reads l a) (rr : Reads r b)
    (hl : Sound l a) (hr : Sound r b) : Sound (.node pos t l r) (.comma a b) := by
  have hb : Expr.binaryOf? t l r = none := by
    rw [Expr.binaryOf?_of_text rl.isAbsent rr.isAbsent ht.text_eq]
    rfl
  refine of_value (fun s ρ hs => ?_) (.comma ht type rl rr) rfl
  have hvisit : visit pos t l r l.meaning r.meaning = (do let _ ← l.eval; r.eval) := by
    unfold visit
    rw [hb, rl.isAbsent, rr.isAbsent, ht.text_eq]
    simp [Expr.isCastOf, ht.text_eq]
    rfl
  rw [Expr.eval_node ht.values, hvisit, Term.run]
  exact (hl.value hs).bind fun _ _ s₁ ρ₁ _ hs₁ _ => hr.value hs₁

end Sound

/-- Every expression that stands for a term whose tests are pure and whose targets are variables is
evaluated soundly. -/
theorem Reads.sound {e : Expr} {t : Term} (h : Reads e t) (hp : t.testsPure = true)
    (hn : t.namesTargets = true) : Sound e t := by
  induction h with
  | literal ht => exact .literal ht
  | var ht => exact .var ht
  | arithmetic ht type rl rr ihl ihr =>
    rw [Term.testsPure, Bool.and_eq_true] at hp
    rw [Term.namesTargets, Bool.and_eq_true] at hn
    exact .arithmetic ht type rl rr (ihl hp.1 hn.1) (ihr hp.2 hn.2)
  | assign ht type rl rr ihl ihr =>
    rw [Term.testsPure, Bool.and_eq_true] at hp
    rw [Term.namesTargets, Bool.and_eq_true] at hn
    exact .assign ht rl hn.1 rr (ihr hp.2 hn.2)
  | compound ht type rl rr ihl ihr =>
    rw [Term.testsPure, Bool.and_eq_true] at hp
    rw [Term.namesTargets, Bool.and_eq_true] at hn
    exact .compound ht rl hn.1 rr (ihr hp.2 hn.2)
  | stepBefore ht type rl => exact .stepBefore ht rl hn
  | stepAfter ht type rr => exact .stepAfter ht rr hn
  | minus ht type rl ihl => exact .minus ht type rl (ihl hp hn)
  | plus ht type rl ihl => exact .plus ht type rl (ihl hp hn)
  | not ht type rl ihl => exact .not ht rl (ihl hp hn)
  | comparison ht type rl rr ihl ihr =>
    rw [Term.testsPure, Bool.and_eq_true] at hp
    rw [Term.namesTargets, Bool.and_eq_true] at hn
    exact .comparison ht rl rr (ihl hp.1 hn.1) (ihr hp.2 hn.2)
  | logical ht type rl rr ihl ihr =>
    rw [Term.testsPure, Bool.and_eq_true, Bool.and_eq_true] at hp
    rw [Term.namesTargets, Bool.and_eq_true] at hn
    exact .logical ht rl rr hp.1.1 (ihl hp.1.2 hn.1) (ihr hp.2 hn.2)
  | conditional ht type hc hv rl ry rn ihl ihy ihn =>
    rw [Term.testsPure, Bool.and_eq_true, Bool.and_eq_true, Bool.and_eq_true] at hp
    rw [Term.namesTargets, Bool.and_eq_true, Bool.and_eq_true] at hn
    exact .conditional ht type hc hv rl ry rn hp.1.1.1 (ihl hp.1.1.2 hn.1.1) (ihy hp.1.2 hn.1.2)
      (ihn hp.2 hn.2)
  | comma ht type rl rr ihl ihr =>
    rw [Term.testsPure, Bool.and_eq_true] at hp
    rw [Term.namesTargets, Bool.and_eq_true] at hn
    exact .comma ht type rl rr (ihl hp.1 hn.1) (ihr hp.2 hn.2)

theorem Reads.sound_of_isPure {e : Expr} {t : Term} (h : Reads e t) (hp : t.isPure = true) : Sound e t :=
  h.sound (Term.testsPure_of_isPure hp) (Term.namesTargets_of_isPure hp)

/-! Targets that are not variables. -/

namespace Walk

variable {α β γ : Type} {x : Walk α} {s : Store}

theorem store_bind_congr {f : α → Walk β} {g : α → Walk γ}
    (h : ∀ a s', (f a s').store = (g a s').store) : ((x >>= f) s).store = ((x >>= g) s).store := by
  cases hx : (x s).value with
  | ok a =>
    rw [bind_of_ok hx, bind_of_ok hx]
    exact h a _
  | error e => rw [bind_of_error hx, bind_of_error hx]

theorem store_bind_still {f : α → Walk β} (h : ∀ a s', (f a s').store = s') :
    ((x >>= f) s).store = (x s).store := by
  rw [store_bind_congr (g := pure) h, Walk.bind_pure]

end Walk

namespace Eval

variable {pos : Nat} {t : Token} {op : Operator} {l r : Expr} {left right : Walk Fact}

theorem assign_unnamed (hk : l.key? = none) (s : Store) :
    (assign l r left right s).store = ((do let _ ← right; left : Walk Fact) s).store := by
  refine Walk.store_bind_congr fun b s' => ?_
  rw [hk]
  refine Walk.store_bind_still fun a s'' => ?_
  simp only [Walk.assignTo, hk]
  rfl

theorem compound_unnamed (hk : l.key? = none) (s : Store) :
    (compound pos t op l r left right s).store = ((do let _ ← right; left : Walk Fact) s).store := by
  refine Walk.store_bind_congr fun b s' => Walk.store_bind_still fun a s'' => ?_
  simp only [Walk.assignTo, hk]
  rcases a with _ | a <;> rcases b with _ | b
  · rfl
  · rfl
  · rfl
  · cases op <;> rfl

theorem step_unnamed {operand : Expr} {value : Walk Fact} (hk : operand.key? = none) (s : Store) :
    (step op operand value s).store = (value s).store := by
  refine Walk.store_bind_still fun a s' => ?_
  simp only [Walk.assignTo, hk]
  rcases a with _ | a
  · rfl
  · dsimp only
    split <;> rfl

end Eval

/-- What the term itself assigns or steps. -/
def Term.target? : Term → Option Term
  | assign target _ | compound _ _ target _ | step _ target => some target
  | _ => none

namespace Reads

theorem key?_of_unnamed {e : Expr} {t : Term} (h : Reads e t) (ht : t.name? = none) : e.key? = none := by
  cases hk : e.key? with
  | none => rfl
  | some k =>
    rw [h.key hk] at ht
    cases ht

/-- A write through a target that is no variable is dropped: the store is the one that evaluating the
operands leaves. -/
theorem write_dropped {pos : Nat} {t : Token} {l r : Expr} {u a : Term} (h : Reads (.node pos t l r) u)
    (hu : u.target? = some a) (ha : a.name? = none) (s : Store) :
    ((Expr.node pos t l r).eval s).store = ((do let _ ← r.eval; l.eval : Walk Fact) s).store := by
  cases h with
  | assign ht type hl hr =>
    cases hu
    rw [Expr.eval_node ht.values, Eval.visit_assign ht.text_eq hr.isAbsent]
    exact Eval.assign_unnamed (hl.key?_of_unnamed ha) s
  | @compound _ _ op _ _ _ _ ht type hl hr =>
    cases hu
    have hb := Expr.binaryOf?_compound hl.isAbsent hr.isAbsent ht.text_eq
    rw [Expr.eval_node ht.values,
      Eval.visit_compound hb hl.isAbsent (by rw [ht.text_eq]; cases op <;> rfl)]
    exact Eval.compound_unnamed (hl.key?_of_unnamed ha) s
  | stepBefore ht type hl =>
    cases hu
    rw [Expr.eval_node ht.values, Eval.visit_step ht.text_eq (.inl rfl) hl.isAbsent]
    exact Eval.step_unnamed (hl.key?_of_unnamed ha) s
  | stepAfter ht type hr =>
    cases hu
    rw [Expr.eval_node ht.values, Eval.visit_step ht.text_eq (.inr rfl) hr.isAbsent,
      Eval.step_unnamed (hr.key?_of_unnamed ha)]
    exact (Walk.store_bind_still fun _ _ => rfl).symm
  | literal | var | arithmetic | minus | plus | not | comparison | logical | conditional | comma => cases hu

end Reads

end SignFlow

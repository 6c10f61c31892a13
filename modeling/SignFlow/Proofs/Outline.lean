import SignFlow.Proofs.Faults

/-! What an evaluation does on every store alike.

Whether an expression has a sign depends on its tokens only, and so do the divisions it passes through:
what cannot be reached is evaluated too. An outline is both, read off the tokens. Values known for certain
can give a sign where there was none; apart from that the outline is exact. -/

namespace SignFlow

namespace Walk

variable {α β : Type}

/-- If the step returns, then with a value, a store and sites like these. -/
def Ends (x : Walk α) (s : Store) (P : α → Store → List Site → Prop) : Prop :=
  ∀ ⦃a⦄, (x s).value = .ok a → P a (x s).store (x s).sites

namespace Ends

variable {s : Store} {P Q : α → Store → List Site → Prop}

theorem mono {x : Walk α} (h : x.Ends s P) (hpq : ∀ a s' σ, P a s' σ → Q a s' σ) : x.Ends s Q :=
  fun _ ha => hpq _ _ _ (h ha)

theorem pure {a : α} (h : P a s []) : (Pure.pure a : Walk α).Ends s P := by
  intro b hb
  cases hb
  exact h

theorem bind {x : Walk α} {f : α → Walk β} {P : β → Store → List Site → Prop}
    (h : x.Ends s fun a s' σ => (f a).Ends s' fun b s'' σ' => P b s'' (σ ++ σ')) :
    (x >>= f).Ends s P := by
  intro b hb
  cases hv : (x s).value with
  | ok a =>
    rw [bind_of_ok hv] at hb ⊢
    exact h hv hb
  | error e =>
    rw [bind_of_error hv] at hb
    cases hb

theorem store {P : Store → Store → List Site → Prop} (h : P s s []) : Walk.store.Ends s P := by
  intro b hb
  cases hb
  exact h

theorem change {g : Store → Store} {P : Unit → Store → List Site → Prop} (h : P () (g s) []) :
    (Walk.change g).Ends s P := fun _ _ => h

theorem note {site : Site} {P : Unit → Store → List Site → Prop} (h : P () s [site]) :
    (Walk.note site).Ends s P := fun _ _ => h

theorem lift {x : Except Fault α} (h : ∀ a, x = .ok a → P a s []) : (Walk.lift x).Ends s P :=
  fun a ha => h a ha

theorem ite {c : Prop} [Decidable c] {x y : Walk α} (hx : c → x.Ends s P) (hy : ¬c → y.Ends s P) :
    (if c then x else y).Ends s P := by
  split
  · exact hx ‹_›
  · exact hy ‹_›

theorem aside {x : Walk α} {other : Store} {P : α × Store → Store → List Site → Prop}
    (h : x.Ends other fun a s' σ => P (a, s') s σ) : (Walk.aside other x).Ends s P := by
  intro b hb
  have hb : (x other).value.map (fun a => (a, (x other).store)) = .ok b := hb
  cases hv : (x other).value with
  | ok a =>
    rw [hv] at hb
    cases hb
    exact h hv
  | error e =>
    rw [hv] at hb
    cases hb

end Ends

end Walk

/-- A division as the text has it. -/
structure Mark where
  pos : Nat
  operator : Operator
  compound : Bool
  integral : Bool
  deriving DecidableEq, Repr

def Site.mark (s : Site) : Mark := ⟨s.pos, s.operator, s.compound, s.integral⟩

/-- All of the marks are noted, and in the strict sense nothing else. -/
structure Mark.Noted (strict : Bool) (ms : List Mark) (σ : List Site) : Prop where
  all : ms ⊆ σ.map Site.mark
  only : strict = true → σ.map Site.mark ⊆ ms

namespace Mark.Noted

variable {strict : Bool} {ms ns : List Mark} {σ τ : List Site}

theorem of_eq (h : σ.map Site.mark = ms) : Noted strict ms σ :=
  h ▸ ⟨List.Subset.refl _, fun _ => List.Subset.refl _⟩

theorem append (hm : Noted strict ms σ) (hn : Noted strict ns τ) : Noted strict (ms ++ ns) (σ ++ τ) := by
  refine ⟨?_, fun h => ?_⟩
  · rw [List.map_append]
    exact List.append_subset.mpr ⟨List.subset_append_of_subset_left _ hm.all,
      List.subset_append_of_subset_right _ hn.all⟩
  · rw [List.map_append]
    exact List.append_subset.mpr ⟨List.subset_append_of_subset_left _ (hm.only h),
      List.subset_append_of_subset_right _ (hn.only h)⟩

end Mark.Noted

/-- Whether an evaluation gives a sign, and the divisions it notes. -/
structure Outline where
  tracked : Bool := false
  marks : List Mark := []

namespace Outline

def assign (l : Expr) (a b : Outline) : Outline where
  tracked := l.isNumeric && b.tracked
  marks := b.marks ++ if l.key?.isNone then a.marks else []

/-- An operation on the values of two operands, in the order of their evaluation. A division is noted if
both have a sign. -/
def operation (t : Token) (mark : Mark) (a b : Outline) : Outline where
  tracked := a.tracked && b.tracked || t.isNumeric
  marks := a.marks ++ b.marks ++
    if mark.operator.isDivision && a.tracked && b.tracked then [mark] else []

/-- Both are evaluated, and the result has a sign in any case. -/
def both (a b : Outline) : Outline := ⟨true, a.marks ++ b.marks⟩

def step (operand : Expr) (a : Outline) : Outline := ⟨a.tracked && operand.isNumeric, a.marks⟩

def unary (t : Token) (a : Outline) : Outline where
  tracked :=
    match t.text with
    | "-" | "+" => a.tracked
    | "&" => false
    | "!" => true
    | _ => t.isNumeric
  marks := a.marks

def conditional (t : Token) (hasArms : Bool) (a arms yes no : Outline) : Outline :=
  if hasArms then ⟨yes.tracked && no.tracked || t.isNumeric, a.marks ++ yes.marks ++ no.marks⟩
  else ⟨t.isNumeric, a.marks ++ arms.marks⟩

def other (t : Token) (a b : Outline) : Outline :=
  ⟨t.isNumeric, (if t.text != "(" then a.marks else []) ++ b.marks⟩

end Outline

/-- The outlines of an expression and of its operands. -/
structure Outlines where
  value : Outline := {}
  left : Outline := {}
  right : Outline := {}

namespace Expr

/-- The outline of a node, by what it is. -/
def outlineOf (pos : Nat) (t : Token) (l r : Expr) (a b : Outlines) : Outline :=
  if l.isAbsent && r.isAbsent then ⟨t.isNumeric, []⟩
  else if t.text == "=" && !r.isAbsent then .assign l a.value b.value
  else
    match binaryOf? t l r with
    | some (.arithmetic op) =>
      .operation t ⟨pos, op, false, l.isIntegral && r.isIntegral⟩ a.value b.value
    | some (.compound op) => .operation t ⟨pos, op, true, r.isIntegral⟩ b.value a.value
    | some (.comparison _) => .both a.value b.value
    | none =>
      if t.text == "++" || t.text == "--" then
        if l.isAbsent then .step r b.value else .step l a.value
      else if t.text == "&&" || t.text == "||" then .both a.value b.value
      else if t.text == "?" then .conditional t (r.text == ":") a.value b.value b.left b.right
      else if t.text == "." || t.text == "::" then ⟨t.isNumeric, a.value.marks⟩
      else if isCastOf t l r then a.value
      else if r.isAbsent then .unary t a.value
      else if t.text == "," then ⟨b.value.tracked, a.value.marks ++ b.value.marks⟩
      else .other t a.value b.value

def outlines : Expr → Outlines
  | absent => {}
  | node pos t l r => ⟨outlineOf pos t l r l.outlines r.outlines, l.outlines.value, r.outlines.value⟩

theorem eq_absent {e : Expr} (h : e.isAbsent = true) : e = absent := by
  cases e with
  | absent => rfl
  | node => cases h

/-- Evaluating the expression gives a sign. -/
def tracked (e : Expr) : Bool := e.outlines.value.tracked

/-- The divisions that evaluating the expression notes. -/
def marks (e : Expr) : List Mark := e.outlines.value.marks

/-- Every node has the property. -/
def Each (P : Nat → Token → Expr → Expr → Prop) : Expr → Prop
  | absent => True
  | node pos t l r => P pos t l r ∧ l.Each P ∧ r.Each P

instance decidableEach (P : Nat → Token → Expr → Expr → Prop) [∀ pos t l r, Decidable (P pos t l r)] :
    (e : Expr) → Decidable (e.Each P)
  | absent => inferInstanceAs (Decidable True)
  | node pos t l r =>
    have := decidableEach P l
    have := decidableEach P r
    inferInstanceAs (Decidable (P pos t l r ∧ l.Each P ∧ r.Each P))

theorem Each.mono {P Q : Nat → Token → Expr → Expr → Prop} {e : Expr}
    (hpq : ∀ pos t l r, P pos t l r → Q pos t l r) (h : e.Each P) : e.Each Q := by
  induction e with
  | absent => trivial
  | node pos t l r ihl ihr => exact ⟨hpq _ _ _ _ h.1, ihl h.2.1, ihr h.2.2⟩

end Expr

/-- No value is known for certain. -/
def Token.Unknown (t : Token) : Prop := ∀ v ∈ t.values, v.known = false

theorem Token.Unknown.known? {t : Token} (h : t.Unknown) : t.known? = .ok none := by
  have hnone : t.values.filter FlowValue.known = [] :=
    List.filter_eq_nil_iff.mpr fun v hv => by simp [h v hv]
  simp only [Token.known?, hnone]
  rfl

/-- The evaluation has a sign where the outline says so and notes the divisions of the outline; in the strict
sense it has a sign only there, and notes nothing else. -/
structure Outline.Fits (strict : Bool) (o : Outline) (f : Fact) (σ : List Site) : Prop where
  isSome : o.tracked = true → f.isSome = true
  only : strict = true → f.isSome = true → o.tracked = true
  marks : Mark.Noted strict o.marks σ

def Walk.Outlined (strict : Bool) (o : Outline) (x : Walk Fact) : Prop :=
  ∀ s, x.Ends s fun f _ σ => o.Fits strict f σ

structure Meaning.Outlined (strict : Bool) (o : Outlines) (m : Meaning) : Prop where
  value : m.value.Outlined strict o.value
  left : m.left.Outlined strict o.left
  right : m.right.Outlined strict o.right

theorem Token.isSome_unknown (t : Token) : t.unknown.isSome = t.isNumeric := by
  unfold Token.unknown
  cases t.isNumeric <;> rfl

namespace Fact

theorem isSome_convert (f : Fact) (src dst : Option ValueType) :
    (f.convert src dst).isSome = f.isSome := by
  cases f <;> cases src <;> cases dst <;> rfl

theorem isSome_fit (f : Fact) (type : Option ValueType) : (f.fit type).isSome = f.isSome := by
  unfold fit
  split <;> (try split) <;> rfl

theorem isSome_narrow (f : Fact) (type : Option ValueType) : (f.narrow type).isSome = f.isSome := by
  unfold narrow
  split
  case h_4 =>
    split
    · rfl
    · exact isSome_fit _ _
  all_goals exact isSome_fit _ _

end Fact

namespace Walk.Ends

theorem assignTo {target : Expr} {f : Fact} {s : Store} {P : Unit → Store → List Site → Prop}
    (h : ∀ s', P () s' []) : (Walk.assignTo target f).Ends s P := by
  unfold Walk.assignTo
  split
  · exact .pure (h _)
  · split
    · split
      · exact .change (h _)
      · exact .change (h _)
    · exact .change (h _)

theorem forgetTarget {target : Expr} {s : Store} {P : Unit → Store → List Site → Prop}
    (h : ∀ s', P () s' []) : (Walk.forgetTarget target).Ends s P := by
  unfold Walk.forgetTarget
  split
  · exact .pure (h _)
  · exact .change (h _)

end Walk.Ends

namespace Outline.Fits

variable {strict : Bool} {o a b : Outline} {f g : Fact} {σ τ : List Site}

theorem of_isSome (h : f.isSome = o.tracked) (hm : Mark.Noted strict o.marks σ) : o.Fits strict f σ :=
  ⟨fun ht => h.trans ht, fun _ hf => h.symm.trans hf, hm⟩

theorem congr (h : o.Fits strict f σ) (hg : g.isSome = f.isSome) : o.Fits strict g σ :=
  ⟨fun ht => hg.trans (h.isSome ht), fun he hs => h.only he (hg.symm.trans hs), h.marks⟩

theorem retrack (h : o.Fits strict f σ) (ht : a.tracked = o.tracked)
    (hm : Mark.Noted strict a.marks τ) : a.Fits strict f τ :=
  ⟨fun hs => h.isSome (ht.symm.trans hs), fun he hs => ht.trans (h.only he hs), hm⟩

theorem marks_append (ha : a.Fits strict f σ) (hb : b.Fits strict g τ) :
    Mark.Noted strict (a.marks ++ b.marks) (σ ++ τ) := ha.marks.append hb.marks

theorem not_both (ha : a.Fits strict f σ) (hb : b.Fits strict g τ) (h : f = none ∨ g = none) :
    (a.tracked && b.tracked) = false := by
  rw [Bool.and_eq_false_iff]
  refine h.imp (fun hf => ?_) fun hg => ?_
  · exact Bool.eq_false_iff.mpr fun ht => by simpa [hf] using ha.isSome ht
  · exact Bool.eq_false_iff.mpr fun ht => by simpa [hg] using hb.isSome ht

/-- If a side has no sign, nothing is noted and the result is unknown. -/
theorem unknown {t : Token} {mark : Mark} (ha : a.Fits strict f σ) (hb : b.Fits strict g τ)
    (h : f = none ∨ g = none) : (operation t mark a b).Fits strict t.unknown (σ ++ (τ ++ [])) := by
  have hboth := ha.not_both hb h
  refine .of_isSome ?_ ?_
  · rw [operation, hboth, Bool.false_or, Token.isSome_unknown]
  · simpa [operation, Bool.and_assoc, hboth] using ha.marks_append hb

theorem computed {t : Token} {mark : Mark} {x y : Sign} {noted : List Site}
    (ha : a.Fits strict (some x) σ) (hb : b.Fits strict (some y) τ)
    (hnoted : noted.map Site.mark = if mark.operator.isDivision then [mark] else [])
    (hf : f.isSome = true) : (operation t mark a b).Fits strict f (σ ++ (τ ++ noted)) := by
  have hlast : Mark.Noted strict (if mark.operator.isDivision && a.tracked && b.tracked then [mark] else [])
      noted := by
    refine ⟨fun m hm => ?_, fun he => ?_⟩
    · rw [hnoted]
      split at hm
      · rename_i hdiv
        simp only [Bool.and_eq_true] at hdiv
        rwa [if_pos hdiv.1.1]
      · cases hm
    · rw [hnoted, ha.only he rfl, hb.only he rfl, Bool.and_true, Bool.and_true]
      exact List.Subset.refl _
  refine ⟨fun _ => hf, fun he _ => ?_, ?_⟩
  · simp [operation, ha.only he rfl, hb.only he rfl]
  · rw [← List.append_assoc]
    exact (ha.marks_append hb).append hlast

end Outline.Fits

namespace Walk.Outlined

variable {strict : Bool}

theorem ite {c : Prop} [Decidable c] {o o' : Outline} {x y : Walk Fact}
    (hx : c → Outlined strict o x) (hy : ¬c → Outlined strict o' y) :
    Outlined strict (if c then o else o') (if c then x else y) := by
  by_cases hc : c
  · simpa only [if_pos hc] using hx hc
  · simpa only [if_neg hc] using hy hc

end Walk.Outlined

namespace Eval

open Walk

variable {strict : Bool} {pos : Nat} {t : Token} {op : Operator} {l r : Expr} {a b : Outline}
  {left right : Walk Fact}

theorem leaf_outlined : (leaf t).Outlined strict ⟨t.isNumeric, []⟩ := by
  intro s
  unfold leaf
  split
  · rename_i hn
    exact .pure (.of_isSome (by simpa using hn) (.of_eq rfl))
  · rename_i hn
    have hfits : ∀ v, (⟨t.isNumeric, []⟩ : Outline).Fits strict (some v) [] := fun v =>
      .of_isSome (by simpa using hn) (.of_eq rfl)
    refine .bind (.store ?_)
    split
    · exact .pure (hfits _)
    split
    · exact .bind (.lift fun v _ => .pure (hfits v))
    split
    · exact .bind (.store (.pure (hfits _)))
    · exact .pure (hfits _)

theorem assign_outlined (hl : left.Outlined strict a) (hr : right.Outlined strict b) :
    (assign l r left right).Outlined strict (.assign l a b) := by
  intro s
  refine .bind ((hr s).mono fun v s₁ σ₁ hv => ?_)
  dsimp only
  replace hv := hv.congr (v.isSome_convert r.type? l.type?)
  generalize v.convert r.type? l.type? = v at hv
  have hsome : ∀ {σ}, Mark.Noted strict (Outline.assign l a b).marks σ →
      (Outline.assign l a b).Fits strict (if l.isNumeric = true then v else none) σ := by
    intro σ hm
    cases hn : l.isNumeric with
    | false => exact .of_isSome (by simp [Outline.assign, hn]) hm
    | true => exact ⟨by simpa [Outline.assign, hn] using hv.isSome,
        by simpa [Outline.assign, hn] using hv.only, hm⟩
  split
  · rename_i hk
    refine .bind ((hl s₁).mono fun w s₂ σ₂ hw => .bind (.assignTo fun s₃ => .pure (hsome ?_)))
    simpa [Outline.assign, hk] using hv.marks_append hw
  · rename_i hk
    refine .bind (.assignTo fun s₃ => .pure (hsome ?_))
    simpa [Outline.assign, hk] using hv.marks

theorem arithmetic_outlined (hl : left.Outlined strict a) (hr : right.Outlined strict b) :
    (arithmetic pos t op l r left right).Outlined strict
      (.operation t ⟨pos, op, false, l.isIntegral && r.isIntegral⟩ a b) := by
  intro s
  refine .bind ((hl s).mono fun v s₁ σ₁ hv => .bind ((hr s₁).mono fun w s₂ σ₂ hw => ?_))
  replace hv := hv.congr (v.isSome_convert l.type? t.type)
  replace hw := hw.congr (w.isSome_convert r.type? t.type)
  dsimp only
  generalize v.convert l.type? t.type = v at hv
  generalize w.convert r.type? t.type = w at hw
  rcases v with _ | x
  case none => exact .pure (hv.unknown hw (.inl rfl))
  rcases w with _ | y
  case none => exact .pure (hv.unknown hw (.inr rfl))
  dsimp only
  split
  · rename_i hdiv
    exact .bind (.note (.pure (hv.computed hw (if_pos hdiv).symm (Fact.isSome_fit _ _))))
  · rename_i hdiv
    exact .pure (hv.computed hw (if_neg hdiv).symm (Fact.isSome_fit _ _))

theorem compound_outlined (hl : left.Outlined strict a) (hr : right.Outlined strict b) :
    (compound pos t op l r left right).Outlined strict
      (.operation t ⟨pos, op, true, r.isIntegral⟩ b a) := by
  intro s
  refine .bind ((hr s).mono fun w s₁ σ₁ hw => .bind ((hl s₁).mono fun v s₂ σ₂ hv => ?_))
  rcases v with _ | x
  case none => exact .bind (.assignTo fun _ => .pure (hw.unknown hv (.inr rfl)))
  rcases w with _ | y
  case none => exact .bind (.assignTo fun _ => .pure (hw.unknown hv (.inl rfl)))
  dsimp only
  split
  · rename_i hdiv
    refine .bind (.note (.bind (.assignTo fun _ => .pure ?_)))
    exact hw.computed hv (if_pos hdiv).symm (Fact.isSome_narrow _ _)
  · rename_i hdiv
    refine .bind (.assignTo fun _ => .pure ?_)
    exact hw.computed hv (if_neg hdiv).symm (Fact.isSome_narrow _ _)

theorem comparison_outlined (hl : left.Outlined strict a) (hr : right.Outlined strict b) :
    (comparison left right).Outlined strict (.both a b) := by
  intro s
  refine .bind ((hl s).mono fun v s₁ σ₁ hv => .bind ((hr s₁).mono fun w s₂ σ₂ hw => .pure ?_))
  exact .of_isSome rfl (by simpa [Outline.both] using hv.marks_append hw)

theorem step_outlined {operand : Expr} {value : Walk Fact} (h : value.Outlined strict a) :
    (step op operand value).Outlined strict (.step operand a) := by
  intro s
  refine .bind ((h s).mono fun v s₁ σ₁ hv => ?_)
  have hmarks : Mark.Noted strict (Outline.step operand a).marks (σ₁ ++ ([] ++ [])) := by
    simpa [Outline.step] using hv.marks
  rcases v with _ | x
  case none =>
    have hnone : a.tracked = false := Bool.eq_false_iff.mpr fun ht => nomatch hv.isSome ht
    exact .bind (.assignTo fun _ => .pure (.of_isSome (by simp [Outline.step, hnone]) hmarks))
  dsimp only
  split
  · rename_i hn
    refine .bind (.assignTo fun _ => .pure ⟨fun _ => ?_, fun he _ => ?_, hmarks⟩)
    · rw [Option.isSome_map, Fact.isSome_narrow]
      rfl
    · simp [Outline.step, hn, hv.only he rfl]
  · rename_i hn
    exact .bind (.assignTo fun _ => .pure (.of_isSome (by simp [Outline.step, hn]) hmarks))

theorem unary_outlined {operand : Expr} {value : Walk Fact} (h : value.Outlined strict a) :
    (unary t operand value).Outlined strict (.unary t a) := by
  intro s
  refine .bind ((h s).mono fun v s₁ σ₁ hv => ?_)
  have hmarks : Mark.Noted strict (Outline.unary t a).marks (σ₁ ++ []) := by
    simpa [Outline.unary] using hv.marks
  split
  · rename_i ht
    refine .pure ((hv.congr ?_).retrack (by simp [Outline.unary, ht]) hmarks)
    cases v
    · rfl
    · exact Fact.isSome_fit _ _
  · rename_i ht
    exact .pure (hv.retrack (by simp [Outline.unary, ht]) hmarks)
  · rename_i ht
    exact .bind (.forgetTarget fun _ => .pure (.of_isSome (by simp [Outline.unary, ht]) hmarks))
  · rename_i ht
    refine .pure (.of_isSome ?_ hmarks)
    split <;> simp [Outline.unary, ht]
  · refine .pure (.of_isSome ?_ hmarks)
    rw [Token.isSome_unknown, Outline.unary]
    split <;> simp_all

theorem other_outlined (hl : left.Outlined strict a) (hr : right.Outlined strict b) :
    (other t l left right).Outlined strict (.other t a b) := by
  have last : ∀ {s : Store} {σ : List Site}, Mark.Noted strict (Outline.other t a b).marks σ →
      Walk.Ends (do
        if Expr.assignments.contains t.text then assignTo l (some .top)
        pure t.unknown : Walk Fact) s fun f _ τ => (Outline.other t a b).Fits strict f (σ ++ τ) := by
    intro s σ hm
    have hfits : (Outline.other t a b).Fits strict t.unknown (σ ++ []) :=
      .of_isSome t.isSome_unknown (by simpa using hm)
    exact .ite (fun _ => .bind (.assignTo fun _ => .pure hfits)) fun _ => .pure hfits
  intro s
  refine .ite (fun ht => ?_) fun ht => ?_
  · refine .bind ((hl s).mono fun v s₁ σ₁ hv => .bind ((hr s₁).mono fun w s₂ σ₂ hw => ?_))
    refine (last ?_).mono fun f s' σ hf => List.append_assoc σ₁ σ₂ σ ▸ hf
    simpa [Outline.other, ht] using hv.marks_append hw
  · refine .bind ((hr s).mono fun w s₁ σ₁ hw => last ?_)
    simpa [Outline.other, ht] using hw.marks

theorem shortCircuit_outlined {goesOn : Bool} {ml mr : Meaning} (hl : ml.value.Outlined strict a)
    (hr : mr.value.Outlined strict b) : (shortCircuit goesOn ml mr).Outlined strict (.both a b) := by
  intro s
  refine .bind ((hl s).mono fun v s₁ σ₁ hv => .bind (.store (.bind (.lift fun taken _ => ?_))))
  refine .bind (.aside ((hr taken).mono fun w s₂ σ₂ hw => .bind (.change (.bind (.store (.pure ?_))))))
  exact .of_isSome rfl (by simpa [Outline.both] using hv.marks_append hw)

theorem conditional_outlined {hasArms : Bool} {cond arms : Meaning} {yes no : Outline}
    (hc : cond.value.Outlined strict a) (ha : arms.Outlined strict ⟨b, yes, no⟩) :
    (conditional t hasArms cond arms).Outlined strict (.conditional t hasArms a b yes no) := by
  intro s
  refine .bind ((hc s).mono fun v s₁ σ₁ hv => .ite (fun h => ?_) fun h => ?_)
  · have h : hasArms = false := by simpa using h
    refine .bind ((ha.value s₁).mono fun w s₂ σ₂ hw => .pure (.of_isSome ?_ ?_))
    · rw [Token.isSome_unknown, h]
      rfl
    · simpa [Outline.conditional, h] using hv.marks_append hw
  · have h : hasArms = true := by simpa using h
    refine .bind (.store (.bind (.lift fun yesStore _ => .bind (.aside ?_))))
    refine (ha.left yesStore).mono fun y s₂ σ₂ hy => ?_
    refine .bind (.store (.bind (.lift fun noStore _ => .bind (.aside ?_))))
    refine (ha.right noStore).mono fun n s₃ σ₃ hn => .bind (.change ?_)
    have hmarks : Mark.Noted strict (Outline.conditional t hasArms a b yes no).marks
        (σ₁ ++ (σ₂ ++ (σ₃ ++ []))) := by
      simp only [Outline.conditional, h, if_true, List.append_assoc, List.append_nil]
      exact hv.marks.append (hy.marks.append hn.marks)
    have hunknown : y = none ∨ n = none →
        (Outline.conditional t hasArms a b yes no).Fits strict t.unknown (σ₁ ++ (σ₂ ++ (σ₃ ++ []))) := by
      intro hnone
      refine .of_isSome ?_ hmarks
      simp [Outline.conditional, h, hy.not_both hn hnone, Token.isSome_unknown]
    rcases y with _ | y
    case none => exact .pure (hunknown (.inl rfl))
    rcases n with _ | n
    case none => exact .pure (hunknown (.inr rfl))
    refine .pure ⟨fun _ => rfl, fun he _ => ?_, hmarks⟩
    have hyes : yes.tracked = true := hy.only he rfl
    have hno : no.tracked = true := hn.only he rfl
    simp [Outline.conditional, h, hyes, hno]

theorem withKnown_outlined {o : Outline} {visited : Walk Fact} (h : visited.Outlined strict o)
    (ht : strict = true → t.Unknown) : (withKnown t visited).Outlined strict o := by
  intro s
  refine .bind ((h s).mono fun f s₁ σ₁ hf => .bind (.lift fun known hknown => ?_))
  have hcomputed : (pure f : Walk Fact).Ends s₁ fun f _ τ => o.Fits strict f (σ₁ ++ ([] ++ τ)) :=
    .pure (by simpa using hf)
  cases known with
  | none => exact hcomputed
  | some n =>
    refine .bind (.store (.ite (fun _ => .pure ⟨fun _ => rfl, fun he _ => ?_, ?_⟩) fun _ => hcomputed))
    · cases hknown.symm.trans (ht he).known?
    · simpa using hf.marks

theorem visit_outlined {ml mr : Meaning} {ol ops : Outlines} (hl : ml.Outlined strict ol)
    (hr : mr.Outlined strict ops) :
    (visit pos t l r ml mr).Outlined strict (Expr.outlineOf pos t l r ol ops) := by
  refine .ite (fun _ => leaf_outlined) fun _ => .ite (fun _ => assign_outlined hl.value hr.value) fun _ => ?_
  cases hb : Expr.binaryOf? t l r with
  | some kind =>
    cases kind with
    | arithmetic op => exact arithmetic_outlined hl.value hr.value
    | compound op => exact compound_outlined hl.value hr.value
    | comparison c => exact comparison_outlined hl.value hr.value
  | none =>
    refine .ite (fun _ => .ite (fun _ => step_outlined hr.value) fun _ => step_outlined hl.value) fun _ => ?_
    refine .ite (fun _ => shortCircuit_outlined hl.value hr.value) fun _ => ?_
    refine .ite (fun _ => conditional_outlined hl.value hr) fun _ => .ite (fun _ s => ?_) fun _ => ?_
    · refine .bind ((hl.value s).mono fun v s₁ σ₁ hv => .pure (.of_isSome t.isSome_unknown ?_))
      simpa using hv.marks
    refine .ite (fun _ s => ?_) fun _ => .ite (fun _ => unary_outlined hl.value) fun _ => ?_
    · refine .bind ((hl.value s).mono fun v s₁ σ₁ hv => .pure ?_)
      exact (hv.congr (v.isSome_convert _ _)).retrack rfl (by simpa using hv.marks)
    refine .ite (fun _ s => ?_) fun _ => other_outlined hl.value hr.value
    refine .bind ((hl.value s).mono fun v s₁ σ₁ hv => (hr.value s₁).mono fun w s₂ σ₂ hw => ?_)
    exact hw.retrack rfl (hv.marks_append hw)

end Eval

theorem Expr.meaning_outlined (strict : Bool) (e : Expr)
    (h : strict = true → e.Each fun _ t _ _ => t.Unknown) : e.meaning.Outlined strict e.outlines := by
  induction e with
  | absent =>
    have hnone : (pure none : Walk Fact).Outlined strict {} :=
      fun _ => .pure (.of_isSome rfl (.of_eq rfl))
    exact ⟨hnone, hnone, hnone⟩
  | node pos t l r ihl ihr =>
    have hl := ihl fun he => (h he).2.1
    have hr := ihr fun he => (h he).2.2
    exact ⟨Eval.withKnown_outlined (Eval.visit_outlined hl hr) fun he => (h he).1, hl.value, hr.value⟩

namespace Expr

variable {e : Expr} {s : Store} {f : Fact}

/-- Without values known for certain, an expression has a sign if it is tracked, whatever the store. -/
theorem isSome_eval (hu : e.Each fun _ t _ _ => t.Unknown) (h : (e.eval s).value = .ok f) :
    f.isSome = e.tracked := by
  have hfits := (e.meaning_outlined true fun _ => hu).value s h
  exact Bool.eq_iff_iff.mpr ⟨hfits.only rfl, hfits.isSome⟩

theorem marks_subset (h : (e.eval s).value = .ok f) : e.marks ⊆ (e.eval s).sites.map Site.mark :=
  ((e.meaning_outlined false fun he => nomatch he).value s h).marks.all

/-- Without values known for certain, nothing else is noted. -/
theorem subset_marks (hu : e.Each fun _ t _ _ => t.Unknown) (h : (e.eval s).value = .ok f) :
    (e.eval s).sites.map Site.mark ⊆ e.marks :=
  ((e.meaning_outlined true fun _ => hu).value s h).marks.only rfl

end Expr

end SignFlow

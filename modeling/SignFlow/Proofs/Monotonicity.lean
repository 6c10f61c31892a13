import SignFlow.Proofs.Below
import SignFlow.Proofs.Liveness

/-! Blocks and edges are monotone.

From a smaller store, evaluation gives a smaller sign and leaves a smaller store, and a condition's
outcome leaves a smaller store. Not every expression is like that: an assignment such as `*=` to an
integer by something that is no integer turns the impossible sign into any sign. -/

namespace SignFlow

theorem Comparison.value_mono {a a' b b' : Sign} (ha : a ≤ a') (hb : b ≤ b') :
    Comparison.value a b ≤ Comparison.value a' b' := by
  unfold Comparison.value
  split
  · exact Sign.bottom_le _
  · rename_i h
    rw [if_neg]
    · exact Sign.le_refl _
    · rintro (rfl | rfl)
      · exact h (.inl (Sign.eq_bottom ha))
      · exact h (.inr (Sign.eq_bottom hb))

/-- Below zero or a positive sign there is nothing else that is possible. -/
theorem Sign.eq_of_le_definite {a b : Sign} :
    a ≤ b → a ≠ bottom → (b == zero || b == pos) = true → a = b := by
  cases a <;> cases b <;> decide

theorem Fact.Le.getD {f g : Fact} (h : f.Le g) : f.getD .top ≤ g.getD .top := by
  cases h with
  | none => exact Sign.le_refl _
  | some h => exact h

theorem Walk.aside_ok {α : Type} {x : Walk α} {other s s' : Store} {a : α}
    (h : (Walk.aside other x s).value = .ok (a, s')) :
    (x other).value = .ok a ∧ (x other).store = s' := by
  have h : (x other).value.map (fun a => (a, (x other).store)) = .ok (a, s') := h
  cases hv : (x other).value with
  | error e =>
    rw [hv] at h
    cases h
  | ok b =>
    rw [hv] at h
    cases h
    exact ⟨rfl, rfl⟩

/-- From a smaller store the step stays below. -/
def Walk.Rises (x : Walk Fact) : Prop := ∀ ⦃s₁ s₂⦄, s₁ ≤ s₂ → (x s₁).Below Fact.Le (x s₂)

theorem Walk.Rises.ite {c : Prop} [Decidable c] {x y : Walk Fact} (hx : x.Rises) (hy : y.Rises) :
    (if c then x else y).Rises := fun _ _ hs => .ite (fun _ => hx hs) fun _ => hy hs

structure Meaning.Rises (m : Meaning) : Prop where
  value : m.value.Rises
  left : m.left.Rises
  right : m.right.Rises
  assume : ∀ truth ⦃s₁ s₂⦄, s₁ ≤ s₂ →
    Fault.Below (fun s t => s ≤ t) (m.assume truth s₁) (m.assume truth s₂)

namespace Eval

open Walk Outcome

variable {pos : Nat} {t : Token} {op : Operator} {l r : Expr} {left right : Walk Fact}

theorem leaf_ends (s : Store) : (leaf t).Ends s fun f s' _ => f.isSome = t.isNumeric ∧ s' = s := by
  refine .ite (fun hn => .pure ⟨by simpa using hn, rfl⟩) fun hn => ?_
  have hn : t.isNumeric = true := by simpa using hn
  refine .bind (.store (.ite (fun _ => .pure ⟨hn.symm, rfl⟩) fun _ => .ite (fun _ => ?_) fun _ => ?_))
  · exact .bind (.lift fun v _ => .pure ⟨hn.symm, rfl⟩)
  · match t.variableKey with
    | some k => exact .bind (.store (.pure ⟨hn.symm, rfl⟩))
    | none => exact .pure ⟨hn.symm, rfl⟩

theorem leaf_dead {s : Store} (hs : s.isReachable = false) :
    leaf t s = { value := .ok (if t.isNumeric then some .bottom else none), store := s } := by
  unfold leaf
  cases hn : t.isNumeric with
  | false => rfl
  | true =>
    simp only [Bool.not_true, Bool.false_eq_true, if_false, if_true]
    rw [Walk.bind_of_ok (x := Walk.store) rfl, if_pos (by simp [hs])]
    rfl

theorem leaf_lookup {k : Key} (hk : t.variableKey = some k) (hn : (t.isNumber || t.isChar) = false)
    {s : Store} (hs : s.isReachable = true) :
    (leaf t).Ends s fun f _ _ => ∀ a, f = some a → a = s.lookup k := by
  refine .ite (fun _ => .pure nofun) fun _ => .bind (.store (.ite (fun h => ?_) fun _ => ?_))
  · simp [hs] at h
  refine .ite (fun h => absurd (hn.symm.trans h) (by decide)) fun _ => ?_
  rw [hk]
  exact .bind (.store (.pure fun a ha => (Option.some.inj ha).symm))

theorem leaf_rises : (leaf t).Rises := by
  intro s₁ s₂ hs
  cases hs₁ : s₁.isReachable with
  | false =>
    intro f hf
    obtain ⟨hsome, hstore⟩ := leaf_ends s₂ hf
    rw [leaf_dead hs₁, hstore]
    refine ⟨_, rfl, ?_, hs⟩
    rw [← hsome]
    cases f with
    | none => exact .none
    | some v => exact .some (Sign.bottom_le v)
  | true =>
    refine .ite (fun _ => .pure hs .none) fun _ => .bind (.store hs) fun u₁ u₂ hu₁ hu hs => ?_
    cases hu₁
    simp only [hs₁, Store.isReachable_mono hu hs₁, Bool.not_true, Bool.false_eq_true, if_false]
    refine .ite (fun _ => ?_) fun _ => ?_
    · exact .bind (.lift hs (.refl Sign.le_refl _)) fun a b _ hab hs => .pure hs (.some hab)
    match t.variableKey with
    | some k => exact .bind (.store hs) fun v w _ hvw hs => .pure hs (.some (Store.le_iff.mp hvw k))
    | none => exact .pure hs (.refl _)

theorem assign_rises (hl : left.Rises) (hr : right.Rises) : (assign l r left right).Rises := by
  intro s₁ s₂ hs
  refine .bind (hr hs) fun v w _ hvw hs => ?_
  replace hvw := hvw.convert r.type? l.type?
  have last : ∀ {s₁ s₂ : Store}, s₁ ≤ s₂ → Outcome.Below Fact.Le
      ((do
        assignTo l (v.convert r.type? l.type?)
        pure (if l.isNumeric then v.convert r.type? l.type? else none) : Walk Fact) s₁)
      ((do
        assignTo l (w.convert r.type? l.type?)
        pure (if l.isNumeric then w.convert r.type? l.type? else none) : Walk Fact) s₂) := by
    intro s₁ s₂ hs
    refine .bind (.assignTo l hs hvw) fun _ _ _ _ hs => .pure hs ?_
    split
    · exact hvw
    · exact .none
  exact .ite (fun _ => .bind (hl hs) fun _ _ _ _ hs => last hs) fun _ => last hs

theorem arithmetic_rises (hl : left.Rises) (hr : right.Rises) :
    (arithmetic pos t op l r left right).Rises := by
  intro s₁ s₂ hs
  refine .bind (hl hs) fun v v' _ hv hs => .bind (hr hs) fun w w' _ hw hs => ?_
  replace hv := hv.convert l.type? t.type
  replace hw := hw.convert r.type? t.type
  dsimp only
  generalize v.convert l.type? t.type = v at hv
  generalize v'.convert l.type? t.type = v' at hv
  generalize w.convert r.type? t.type = w at hw
  generalize w'.convert r.type? t.type = w' at hw
  cases hv with
  | none => exact .pure hs (.refl _)
  | @some a a' ha =>
    cases hw with
    | none => exact .pure hs (.refl _)
    | @some b b' hb =>
      have hresult : (if cancels op l r && op.apply a b != .bottom then .zero else op.apply a b) ≤
          (if cancels op l r && op.apply a' b' != .bottom then .zero else op.apply a' b') := by
        have hcomputed := op.apply_mono ha hb
        revert hcomputed
        generalize op.apply a b = x
        generalize op.apply a' b' = y
        cases cancels op l r <;> cases x <;> cases y <;> decide
      have hfit := Fact.Le.fit (.some hresult) t.type
      exact .ite (fun _ => .bind (.note hs) fun _ _ _ _ hs => .pure hs hfit) fun _ => .pure hs hfit

/-- Unless an integer is assigned something with a sign that is no integer. -/
theorem compound_rises (hl : left.Rises) (hr : right.Rises)
    (hcompound : l.isIntegral = true → r.isIntegral = false → ∀ s f, (right s).value = .ok f → f = none) :
    (compound pos t op l r left right).Rises := by
  intro s₁ s₂ hs
  refine .bind (hr hs) fun w w' hvalue hw hs => .bind (hl hs) fun v v' _ hv hs => ?_
  have hunknown : Outcome.Below Fact.Le
      ((do assignTo l none; pure t.unknown : Walk Fact) (left (right s₁).store).store)
      ((do assignTo l none; pure t.unknown : Walk Fact) (left (right s₂).store).store) :=
    .bind (.assignTo l hs .none) fun _ _ _ _ hs => .pure hs (.refl _)
  cases hv with
  | none => exact hunknown
  | @some a a' ha =>
    cases hw with
    | none => exact hunknown
    | @some b b' hb =>
      have hkept : (l.isIntegral && !r.isIntegral) = false := by
        by_contra h
        simp only [Bool.not_eq_false, Bool.and_eq_true, Bool.not_eq_true'] at h
        cases hcompound h.1 h.2 s₁ _ hvalue
      have hresult := Fact.Le.narrow (.some (op.apply_mono ha hb)) l.type?
      simp only [hkept, Bool.false_and, Bool.false_eq_true, if_false]
      have last := fun {s₁ s₂ : Store} (hs : s₁ ≤ s₂) =>
        Outcome.Below.bind (.assignTo l hs hresult) fun _ _ _ _ hs => Outcome.Below.pure hs hresult
      exact .ite (fun _ => .bind (.note hs) fun _ _ _ _ hs => last hs) fun _ => last hs

theorem comparison_rises (hl : left.Rises) (hr : right.Rises) : (comparison left right).Rises := by
  intro s₁ s₂ hs
  refine .bind (hl hs) fun v v' _ hv hs => .bind (hr hs) fun w w' _ hw hs => .pure hs (.some ?_)
  exact Comparison.value_mono hv.getD hw.getD

theorem step_rises {operand : Expr} {value : Walk Fact} (h : value.Rises) :
    (step op operand value).Rises := by
  intro s₁ s₂ hs
  refine .bind (h hs) fun v v' _ hv hs => ?_
  have hnone : Outcome.Below Fact.Le ((do assignTo operand none; pure none : Walk Fact) (value s₁).store)
      ((do assignTo operand none; pure none : Walk Fact) (value s₂).store) :=
    .bind (.assignTo operand hs .none) fun _ _ _ _ hs => .pure hs .none
  cases hv with
  | none => exact hnone
  | @some a a' ha =>
    refine .ite (fun _ => ?_) fun _ => hnone
    have hnew := Fact.Le.narrow (.some (op.apply_mono ha (Sign.le_refl .pos))) operand.type?
    refine .bind (.assignTo operand hs hnew) fun _ _ _ _ hs => .pure hs ?_
    revert hnew
    generalize Fact.narrow (some (op.apply a .pos)) operand.type? = new
    generalize Fact.narrow (some (op.apply a' .pos)) operand.type? = new'
    intro hnew
    cases hnew with
    | none => exact .none
    | some h => exact .some (Sign.join_mono ha h)

theorem unary_eq (t : Token) (operand : Expr) (value : Walk Fact) :
    unary t operand value = (do
      let v ← value
      if t.text = "-" then pure (v.bind fun s => Fact.fit (some s.negate) t.type)
      else if t.text = "+" then pure v
      else if t.text = "&" then do
        forgetTarget operand
        pure none
      else if t.text = "!" then pure (if v = some .bottom then some .bottom else some .top)
      else pure t.unknown) := by
  unfold unary
  congr
  funext v
  split <;> simp_all

theorem unary_rises {operand : Expr} {value : Walk Fact} (h : value.Rises) :
    (unary t operand value).Rises := by
  intro s₁ s₂ hs
  rw [unary_eq]
  refine .bind (h hs) fun v v' _ hv hs => .ite (fun _ => .pure hs ?_) fun _ => ?_
  · cases hv with
    | none => exact .none
    | some h => exact .fit (.some (Sign.negate_mono h)) _
  refine .ite (fun _ => .pure hs hv) fun _ => .ite (fun _ => ?_) fun _ => ?_
  · exact .bind (.forgetTarget operand hs) fun _ _ _ _ hs => .pure hs .none
  refine .ite (fun _ => .pure hs ?_) fun _ => .pure hs (.refl _)
  cases hv with
  | none => exact .refl _
  | @some a a' h =>
    revert h
    cases a <;> cases a' <;> decide

theorem other_rises (hl : left.Rises) (hr : right.Rises) : (other t l left right).Rises := by
  intro s₁ s₂ hs
  have last : ∀ {s₁ s₂ : Store}, s₁ ≤ s₂ → Outcome.Below Fact.Le
      ((do
        let _ ← right
        if Expr.assignments.contains t.text then assignTo l (some .top)
        pure t.unknown : Walk Fact) s₁)
      ((do
        let _ ← right
        if Expr.assignments.contains t.text then assignTo l (some .top)
        pure t.unknown : Walk Fact) s₂) := by
    intro s₁ s₂ hs
    refine .bind (hr hs) fun _ _ _ _ hs => .ite (fun _ => ?_) fun _ => .pure hs (.refl _)
    exact .bind (.assignTo l hs (.refl _)) fun _ _ _ _ hs => .pure hs (.refl _)
  exact .ite (fun _ => .bind (hl hs) fun _ _ _ _ hs => last hs) fun _ => last hs

variable {ml mr : Meaning}

theorem shortCircuit_rises {goesOn : Bool} (hl : ml.Rises) (hr : mr.Rises) :
    (shortCircuit goesOn ml mr).Rises := by
  intro s₁ s₂ hs
  refine .bind (hl.value hs) fun _ _ _ _ hs => .bind (.store hs) fun u₁ u₂ _ hu hs => ?_
  refine .bind (.lift hs (hl.assume goesOn hu)) fun taken taken' _ htaken hs => ?_
  refine .bind (.aside hs (hr.value htaken)) fun b b' _ hb hs => ?_
  refine .bind (.change (Store.absorb_mono hs hb.2)) fun _ _ _ _ hs => ?_
  refine .bind (.store hs) fun u₁ u₂ _ hu hs => .pure hs (.some ?_)
  cases hu₁ : u₁.isReachable with
  | false => exact Sign.bottom_le _
  | true =>
    rw [Store.isReachable_mono hu hu₁]
    exact Sign.le_refl _

/-- Arms of which one can be reached make what both leave reachable. -/
theorem conditional_rises {hasArms : Bool} (hl : ml.Rises) (hr : mr.Rises) (hlive : ml.Live)
    (hlive' : mr.Live) : (conditional t hasArms ml mr).Rises := by
  intro s₁ s₂ hs
  refine .bind (hl.value hs) fun _ _ _ _ hs => .ite (fun _ => ?_) fun _ => ?_
  · exact .bind (hr.value hs) fun _ _ _ _ hs => .pure hs (.refl _)
  refine .bind (.store hs) fun u₁ u₂ hu₁ hu hs => ?_
  cases hu₁
  refine .bind (.lift hs (hl.assume true hu)) fun yes yes' hyes hle hs => ?_
  refine .bind (.aside hs (hr.left hle)) fun (y, yEnd) (y', yEnd') hy hyle hs => ?_
  refine .bind (.store hs) fun u₃ u₄ hu₃ hu' hs => ?_
  cases hu₃
  refine .bind (.lift hs (hl.assume false hu')) fun no no' hno hle' hs => ?_
  refine .bind (.aside hs (hr.right hle')) fun (n, nEnd) (n', nEnd') hn hnle hs => ?_
  obtain ⟨hleft, rfl⟩ := aside_ok hy
  obtain ⟨hright, rfl⟩ := aside_ok hn
  refine .bind (.change (Store.adopt_mono hs (Store.join_mono hyle.2 hnle.2) fun hreach => ?_))
    fun _ _ _ _ hs => ?_
  · rw [Store.isReachable_join, Bool.or_eq_true]
    exact (hlive.assume hreach true hyes hno).imp (fun h => (hlive'.left yes h hleft).1)
      fun h => (hlive'.right no h hright).1
  · cases hyle.1 with
    | none => exact .pure hs (.refl _)
    | some ha =>
      cases hnle.1 with
      | none => exact .pure hs (.refl _)
      | some hb => exact .pure hs (.some (Sign.join_mono ha hb))

theorem visit_rises (hl : ml.Rises) (hr : mr.Rises) (hlive : ml.Live) (hlive' : mr.Live)
    (hcompound : ∀ op, Expr.binaryOf? t l r = some (.compound op) → l.isIntegral = true →
      r.isIntegral = false → ∀ s f, (mr.value s).value = .ok f → f = none) :
    (visit pos t l r ml mr).Rises := by
  refine leaf_rises.ite ((assign_rises hl.value hr.value).ite ?_)
  split
  · exact arithmetic_rises hl.value hr.value
  · exact compound_rises hl.value hr.value (hcompound _ ‹_›)
  · exact comparison_rises hl.value hr.value
  refine ((step_rises hr.value).ite (step_rises hl.value)).ite ((shortCircuit_rises hl hr).ite ?_)
  refine (conditional_rises hl hr hlive hlive').ite (.ite (fun _ _ hs => ?_) (.ite (fun _ _ hs => ?_) ?_))
  · exact .bind (hl.value hs) fun _ _ _ _ hs => .pure hs (.refl _)
  · exact .bind (hl.value hs) fun _ _ _ hv hs => .pure hs (hv.convert _ _)
  refine (unary_rises hl.value).ite (.ite (fun _ _ hs => ?_) (other_rises hl.value hr.value))
  exact .bind (hl.value hs) fun _ _ _ _ hs => hr.value hs

theorem withKnown_none (ht : t.known? = .ok none) (visited : Walk Fact) : withKnown t visited = visited := by
  unfold withKnown
  rw [ht]
  exact Walk.bind_pure visited

theorem withKnown_eq (ht : t.Unknown) (visited : Walk Fact) : withKnown t visited = visited :=
  withKnown_none ht.known? visited

theorem factOf_rises {e : Expr} {value : Walk Fact} (h : value.Rises) {s₁ s₂ : Store} (hs : s₁ ≤ s₂) :
    Fault.Below Fact.Le (factOf e value s₁) (factOf e value s₂) := by
  unfold factOf
  split
  · exact .refl .refl _
  · intro b hb
    obtain ⟨a, ha, hab, _⟩ := h hs hb
    exact ⟨a, ha, hab⟩

/-- If the larger signs can be compared, so can smaller ones that are possible. -/
theorem comparable_of_le {a a' b b' : Sign} (ha : a ≤ a') (hb : b ≤ b') (hna : a ≠ .bottom)
    (hnb : b ≠ .bottom) (h : comparable l r a' b' = true) : comparable l r a b = true := by
  unfold comparable at h ⊢
  rw [Bool.or_assoc, Bool.or_eq_true] at h ⊢
  refine h.imp_right fun h => ?_
  split at h
  · rw [if_pos ‹_›, Sign.eq_of_le_definite hb hnb h]
    exact h
  · rw [if_neg ‹_›, Sign.eq_of_le_definite ha hna h]
    exact h

/-- The sign of something that names a variable is the one the store has for it. -/
def Mirrors (e : Expr) (value : Walk Fact) : Prop :=
  ∀ k ∈ e.key?, ∀ s a, s.isReachable = true → factOf e value s = .ok (some a) → a ≤ s.lookup k

theorem compare_rises {c : Comparison} (hl : left.Rises) (hr : right.Rises) (hlive : left.Live)
    (hlive' : right.Live) (hml : Mirrors l left) (hmr : Mirrors r right) {s₁ s₂ : Store} (hs : s₁ ≤ s₂)
    (hs₁ : s₁.isReachable = true) :
    Fault.Below (fun s t => s ≤ t) (compare c l r left right s₁) (compare c l r left right s₂) := by
  refine .bind (factOf_rises hl hs) fun lf lf' hlf hle => .bind (factOf_rises hr hs) fun rf rf' hrf hre => ?_
  cases hle with
  | none => exact .ok hs
  | @some a a' ha =>
    cases hre with
    | none => exact .ok hs
    | @some b b' hb =>
      dsimp only
      by_cases hc' : comparable l r a' b' = true
      · have hc := comparable_of_le ha hb (factOf_possible hlive hs₁ hlf).sign
          (factOf_possible hlive' hs₁ hrf).sign hc'
        rw [if_pos hc, if_pos hc']
        exact .ok (Store.refine_mono hs ha hb)
      · -- only the smaller signs can be compared: the outcome is below the smaller store already
        rw [if_neg hc']
        split
        · refine .ok (Store.le_trans (Store.refine_le (fun k hk => ?_) fun k hk => ?_) hs)
          · exact hml k hk s₁ a hs₁ hlf
          · exact hmr k hk s₁ b hs₁ hrf
        · exact .ok hs

theorem compareWith_rises {c : Comparison} {e : Expr} {value : Walk Fact} {sign : Sign}
    (h : value.Rises) {s₁ s₂ : Store} (hs : s₁ ≤ s₂) :
    Fault.Below (fun s t => s ≤ t) (compareWith c e value sign s₁) (compareWith c e value sign s₂) := by
  refine .bind (factOf_rises h hs) fun f f' _ hf => ?_
  cases hf with
  | none => exact .ok hs
  | some ha => exact .ok (Store.refine_mono hs ha (Sign.le_refl sign))

theorem assumeNode_rises {e : Expr} {value : Walk Fact} (hv : value.Rises) (hl : ml.Rises)
    (hr : mr.Rises) (hlive : ml.Live) (hlive' : mr.Live) (hml : Mirrors l ml.value)
    (hmr : Mirrors r mr.value) (truth : Bool) {s₁ s₂ : Store} (hs : s₁ ≤ s₂) :
    Fault.Below (fun s t => s ≤ t) (assumeNode e t l r value ml mr truth s₁)
      (assumeNode e t l r value ml mr truth s₂) := by
  cases hs₁ : s₁.isReachable with
  | false =>
    intro s' _
    refine ⟨s₁, ?_, Store.eq_unreachable hs₁ ▸ Store.unreachable_le s'⟩
    rw [assumeNode, if_pos (by simp [hs₁])]
    rfl
  | true =>
    unfold assumeNode
    simp only [hs₁, Store.isReachable_mono hs hs₁, Bool.not_true, Bool.false_eq_true, if_false]
    split
    · exact hl.assume _ hs
    split
    · refine .bind (hl.assume truth hs) fun first first' _ hfirst => ?_
      split
      · exact hr.assume truth hfirst
      · refine .bind (hl.assume (!truth) hs) fun other other' _ hother => ?_
        exact .bind (hr.assume truth hother) fun second second' _ hsecond =>
          .ok (Store.join_mono hfirst hsecond)
    match Expr.binaryOf? t l r with
    | some (.comparison c) =>
      exact compare_rises hl.value hr.value hlive.value hlive'.value hml hmr hs hs₁
    | some (.arithmetic op) | some (.compound op) | none =>
      dsimp only
      split
      · exact compareWith_rises hv hs
      · exact .ok hs

end Eval

def Binary.isCompound : Binary → Bool
  | compound _ => true
  | _ => false

namespace Expr

/-- Nothing is known for certain, and what names a variable is a plain leaf. -/
structure Tame (t : Token) (l r : Expr) : Prop where
  unknown : t.Unknown
  leaf : t.variableKey.isSome = true → l.isAbsent = true ∧ r.isAbsent = true
  plain : t.variableKey.isSome = true → t.isNumber = false ∧ t.isChar = false ∧
    t.text ∉ "(" :: assignments ++ steps

/-- Besides, an integer is not assigned the result with an operand that has a sign and is no integer. -/
structure Regular (t : Token) (l r : Expr) : Prop extends Tame t l r where
  compound : (binaryOf? t l r).any Binary.isCompound = true → l.isIntegral = true →
    r.isIntegral = true ∨ r.tracked = false

instance (t : Token) (l r : Expr) : Decidable (Tame t l r) :=
  decidable_of_iff
    ((∀ v ∈ t.values, v.known = false) ∧
      (t.variableKey.isSome = true → l.isAbsent = true ∧ r.isAbsent = true) ∧
      (t.variableKey.isSome = true → t.isNumber = false ∧ t.isChar = false ∧
        t.text ∉ "(" :: assignments ++ steps))
    ⟨fun h => ⟨h.1, h.2.1, h.2.2⟩, fun h => ⟨h.unknown, h.leaf, h.plain⟩⟩

instance (t : Token) (l r : Expr) : Decidable (Regular t l r) :=
  decidable_of_iff
    (Tame t l r ∧ ((binaryOf? t l r).any Binary.isCompound = true → l.isIntegral = true →
      r.isIntegral = true ∨ r.tracked = false))
    ⟨fun h => ⟨h.1, h.2⟩, fun h => ⟨h.toTame, h.compound⟩⟩

/-- What is known of the name of a variable is what the store says of the variable. -/
theorem fact_name {pos : Nat} {t : Token} {k : Key} (hk : t.variableKey = some k)
    (hplain : t.isNumber = false ∧ t.isChar = false ∧ t.text ∉ "(" :: assignments ++ steps)
    (hu : t.Unknown) {s : Store} (hs : s.isReachable = true) {a : Sign}
    (ha : (node pos t absent absent).fact s = .ok (some a)) : a = s.lookup k := by
  obtain ⟨hnumber, hchar, htext⟩ := hplain
  have hpure : (node pos t absent absent).hasEffects = false := by
    simp only [List.cons_append, List.mem_cons, List.mem_append, not_or] at htext
    simp [hasEffects, htext]
  have heval : (node pos t absent absent).eval = Eval.leaf t := Eval.withKnown_eq hu _
  rw [fact, Eval.factOf, hpure, heval] at ha
  exact Eval.leaf_lookup hk (by rw [hnumber, hchar]; rfl) hs ha a rfl

theorem mirrors (e : Expr) (he : e.Each fun _ => Regular) : Eval.Mirrors e e.eval := by
  intro k hk s a hs ha
  cases e with
  | absent => cases hk
  | node pos t l r =>
    have hsome : t.variableKey.isSome = true := by rw [show t.variableKey = some k from hk]; rfl
    obtain rfl := eq_absent (he.1.leaf hsome).1
    obtain rfl := eq_absent (he.1.leaf hsome).2
    rw [fact_name hk (he.1.plain hsome) he.1.unknown hs ha]
    exact Sign.le_refl _

theorem meaning_rises (e : Expr) (he : e.Each fun _ => Regular) : e.meaning.Rises := by
  induction e with
  | absent =>
    have hnone : (pure none : Walk Fact).Rises := fun _ _ hs => .pure hs .none
    exact ⟨hnone, hnone, hnone, fun _ _ _ hs => .ok hs⟩
  | node pos t l r ihl ihr =>
    have hl := ihl he.2.1
    have hr := ihr he.2.2
    have hvalue : (node pos t l r).meaning.value.Rises := by
      show (Eval.withKnown t _).Rises
      rw [Eval.withKnown_eq he.1.unknown]
      refine Eval.visit_rises hl hr l.meaning_live r.meaning_live fun op hb hil hir s f hf => ?_
      have htracked := (he.1.compound (by rw [hb]; rfl) hil).resolve_left (by simp [hir])
      have := isSome_eval (he.2.2.mono fun _ _ _ _ h => h.unknown) hf
      rw [htracked] at this
      exact Option.not_isSome_iff_eq_none.mp (by simp [this])
    exact ⟨hvalue, hl.value, hr.value, fun truth s₁ s₂ hs => Eval.assumeNode_rises hvalue hl hr
      l.meaning_live r.meaning_live (l.mirrors he.2.1) (r.mirrors he.2.2) truth hs⟩

end Expr

namespace Code

variable {c : Code} {g : Graph} {s₁ s₂ : Store}

/-- Every expression in the graph's blocks is regular. -/
def Regular (c : Code) (g : Graph) : Prop :=
  ∀ b ∈ g.blocks, ∀ i ∈ c.roots b.tokens, (c.tree (some i)).Each fun _ => Expr.Regular

instance (c : Code) (g : Graph) : Decidable (c.Regular g) :=
  inferInstanceAs (Decidable (∀ b ∈ g.blocks, ∀ i ∈ c.roots b.tokens, _))

theorem statement_rises {i : Nat} (hi : (c.tree (some i)).Each fun _ => Expr.Regular) (hs : s₁ ≤ s₂) :
    (c.statement i s₁).Below (fun _ _ => True) (c.statement i s₂) := by
  refine .ite (fun _ => .pure hs trivial) fun _ => .ite (fun _ => ?_) fun _ => ?_
  · match (c.token i).variableKey with
    | some k => exact .change (Store.forget_mono hs)
    | none => exact .pure hs trivial
  · exact .bind (((c.tree (some i)).meaning_rises hi).value hs) fun _ _ _ _ hs => .pure hs trivial

theorem runBlock_rises {tokens : List Nat}
    (h : ∀ i ∈ c.roots tokens, (c.tree (some i)).Each fun _ => Expr.Regular) (hs : s₁ ≤ s₂) :
    (c.runBlock tokens s₁).Below (fun _ _ => True) (c.runBlock tokens s₂) := by
  have run : ∀ (roots : List Nat), (∀ i ∈ roots, (c.tree (some i)).Each fun _ => Expr.Regular) →
      ∀ {s₁ s₂ : Store}, s₁ ≤ s₂ →
      ((roots.forM c.statement : Walk Unit) s₁).Below (fun _ _ => True) (roots.forM c.statement s₂) := by
    intro roots
    induction roots with
    | nil => exact fun _ _ _ hs => .pure hs trivial
    | cons i rest ih =>
      intro hroots s₁ s₂ hs
      refine .bind (statement_rises (hroots i (by simp)) hs) fun _ _ _ _ hs => ?_
      exact ih (fun j hj => hroots j (by simp [hj])) hs
  unfold runBlock
  cases hs₁ : s₁.isReachable with
  | false =>
    intro _ _
    exact ⟨(), rfl, trivial, Store.eq_unreachable hs₁ ▸ Store.unreachable_le _⟩
  | true =>
    rw [Store.isReachable_mono hs hs₁]
    exact run _ h hs

theorem otherwise_rises {e : Expr} (he : e.Each fun _ => Expr.Regular) (cases : List Edge)
    (hs : s₁ ≤ s₂) :
    Fault.Below (fun s t => s ≤ t) (otherwise e cases s₁) (otherwise e cases s₂) := by
  unfold otherwise
  induction cases generalizing s₁ s₂ with
  | nil => exact .ok hs
  | cons edge rest ih =>
    rw [List.foldlM_cons, List.foldlM_cons]
    refine .bind (.bind_same fun value => ?_) fun s t _ hst => ih hst
    split
    · exact Eval.compareWith_rises (e.meaning_rises he).value hs
    · exact .ok hs

theorem along_rises (h : c.Regular g) (e : Edge) (hs : s₁ ≤ s₂) :
    Fault.Below (fun s t => s ≤ t) (c.along g e s₁) (c.along g e s₂) := by
  cases hs₁ : s₁.isReachable with
  | false =>
    intro s' _
    refine ⟨s₁, ?_, Store.eq_unreachable hs₁ ▸ Store.unreachable_le s'⟩
    rw [along, if_pos (by simp [hs₁])]
    rfl
  | true =>
    unfold along
    simp only [hs₁, Store.isReachable_mono hs hs₁, Bool.not_true, Bool.false_eq_true, if_false]
    cases hroot : c.conditionRoot (g.block e.src).tokens with
    | none => exact .ok hs
    | some root =>
      have hreg := h _ (block_mem_of_root (conditionRoot_mem hroot)) root (conditionRoot_mem hroot)
      have hm := (c.tree (some root)).meaning_rises hreg
      dsimp only
      split
      · exact hm.assume true hs
      · exact hm.assume false hs
      · refine .bind_same fun value => ?_
        split
        · exact Eval.compareWith_rises hm.value hs
        · exact .ok hs
      · exact otherwise_rises hreg _ hs
      · exact .ok hs

theorem transfer_rises (h : c.Regular g) {b : Block} (hb : b ∈ g.blocks) (hs : s₁ ≤ s₂) :
    Fault.Below (fun s t => s ≤ t) (c.transfer b s₁) (c.transfer b s₂) := by
  intro t ht
  obtain ⟨u, hu, rfl⟩ := transfer_ok ht
  obtain ⟨v, hv, -, hle⟩ := runBlock_rises (h b hb) hs hu
  refine ⟨_, ?_, hle⟩
  show (c.runBlock b.tokens s₁).value.map _ = _
  rw [hv]
  rfl

/-- In a graph of regular expressions a smaller store before a block gives a smaller store after it, and a
smaller store before an edge a smaller one behind it. Only a text that cannot be read keeps them from an
answer. -/
theorem transfers_monotone (h : c.Regular g) (hs : s₁ ≤ s₂) :
    (∀ b ∈ g.blocks, (∃ f, c.Faulty g f ∧ c.transfer b s₂ = .error f) ∨
      ∃ t₁ t₂, c.transfer b s₁ = .ok t₁ ∧ c.transfer b s₂ = .ok t₂ ∧ t₁ ≤ t₂) ∧
    ∀ e ∈ g.edges, (∃ f, c.Faulty g f ∧ c.along g e s₂ = .error f) ∨
      ∃ t₁ t₂, c.along g e s₁ = .ok t₁ ∧ c.along g e s₂ = .ok t₂ ∧ t₁ ≤ t₂ := by
  constructor
  · intro b hb
    refine (transfer_rises h hb hs).fails_or (.map ?_ _)
    exact runBlock_only (fun i hi f hf => .inl ⟨b, hb, i, hi, hf⟩) s₂
  · intro e he
    exact (along_rises h e hs).fails_or (along_only he s₂)

/-- The tokens of `u < x` and `y = x ? 1 : (d *= x)`, where `u` is unsigned, `y` is a character and `d` has
a fraction. -/
def mixed : Code := ⟨#[
  { text := "u", parent := some 1, variableKey := some (.id 1), type := some { base := .int, unsigned := true } },
  { text := "<", left := some 0, right := some 2, type := some { base := .bool } },
  { text := "x", parent := some 1, variableKey := some (.id 2), type := some { base := .int } },
  { text := "y", parent := some 4, variableKey := some (.id 3), type := some { base := .char } },
  { text := "=", left := some 3, right := some 6, type := some { base := .char } },
  { text := "x", parent := some 6, variableKey := some (.id 2), type := some { base := .int } },
  { text := "?", left := some 5, right := some 8, parent := some 4, type := some { base := .int } },
  { text := "1", parent := some 8, isNumber := true, type := some { base := .int } },
  { text := ":", left := some 7, right := some 10, parent := some 6 },
  { text := "d", parent := some 10, variableKey := some (.id 4), type := some { base := .double } },
  { text := "*=", left := some 9, right := some 11, parent := some 8, type := some { base := .double } },
  { text := "x", parent := some 10, variableKey := some (.id 2), type := some { base := .int } }]⟩

def mixedGraph : Graph where
  blocks := [⟨.entry, []⟩, ⟨.exit, []⟩, ⟨.ifCond, [0, 1, 2]⟩, ⟨.ifTrue, [3, 4, 5, 6, 7, 8, 9, 10, 11]⟩]
  edges := [⟨0, 2, .fallThrough, none⟩, ⟨2, 3, .branchTrue, none⟩, ⟨2, 1, .branchFalse, none⟩,
    ⟨3, 1, .fallThrough, none⟩]

/-- The smaller store compares where the larger one cannot, and one of its arms is dead. -/
theorem transfers_monotone_mixed :
    mixed.Regular mixedGraph ∧ Store.empty.bind (.id 2) .zero ≤ Store.empty ∧
    (∃ t₁ t₂, mixed.transfer (mixedGraph.block 3) (Store.empty.bind (.id 2) .zero) = .ok t₁ ∧
      mixed.transfer (mixedGraph.block 3) .empty = .ok t₂ ∧ t₁ ≤ t₂) ∧
    ∃ t₁ t₂, mixed.along mixedGraph ⟨2, 3, .branchTrue, none⟩ (Store.empty.bind (.id 2) .zero) = .ok t₁ ∧
      mixed.along mixedGraph ⟨2, 3, .branchTrue, none⟩ .empty = .ok t₂ ∧ t₁ ≤ t₂ := by
  have hregular : mixed.Regular mixedGraph := by decide
  have hle : Store.empty.bind (.id 2) .zero ≤ Store.empty := by decide
  obtain ⟨hblocks, hedges⟩ := transfers_monotone hregular hle
  have hok : (mixed.transfer (mixedGraph.block 3) .empty).isOk = true := by decide
  have hok' : (mixed.along mixedGraph ⟨2, 3, .branchTrue, none⟩ .empty).isOk = true := by decide
  refine ⟨hregular, hle, (hblocks (mixedGraph.block 3) (by decide)).resolve_left ?_,
    (hedges ⟨2, 3, .branchTrue, none⟩ (by decide)).resolve_left ?_⟩
  · rintro ⟨f, -, hf⟩
    rw [hf] at hok
    cases hok
  · rintro ⟨f, -, hf⟩
    rw [hf] at hok'
    cases hok'

/-- The tokens of `y = c ? (x *= (T)z) : 0`, where nothing is known of the type `T`. -/
def untyped : Code := ⟨#[
  { text := "y", isName := true, parent := some 1, variableKey := some (.id 2), type := some { base := .int } },
  { text := "=", left := some 0, right := some 3, type := some { base := .int } },
  { text := "c", isName := true, parent := some 3, variableKey := some (.id 1), type := some { base := .int } },
  { text := "?", left := some 2, right := some 11, parent := some 1, type := some { base := .int } },
  { text := "(" },
  { text := "x", isName := true, parent := some 6, variableKey := some (.id 3), type := some { base := .int } },
  { text := "*=", left := some 5, right := some 7, parent := some 11, type := some { base := .int } },
  { text := "(", left := some 9, parent := some 6, isCast := true },
  { text := ")" },
  { text := "z", isName := true, parent := some 7, variableKey := some (.id 4), type := some { base := .int } },
  { text := ")" },
  { text := ":", left := some 6, right := some 12, parent := some 3 },
  { text := "0", parent := some 11, isNumber := true, type := some { base := .int } }]⟩

/-- With `c` zero nothing gets to the assignment to `x`, yet its value may be any. No value is known for
certain, the variables are leaves with names, and no operand of the assignment has a fraction. -/
theorem transfer_not_monotone :
    let b : Block := ⟨.body, [0, 1, 2, 3, 5, 6, 7, 9, 11, 12]⟩
    let small := (Store.empty.bind (.id 1) .zero).bind (.id 3) .zero
    let large := Store.empty.bind (.id 3) .zero
    (∀ i ∈ untyped.roots b.tokens, (untyped.tree (some i)).Each fun _ t l r =>
      Expr.Tame t l r ∧ (t.variableKey.isSome = true → t.isName = true) ∧
        ((Expr.binaryOf? t l r).any Binary.isCompound = true → l.isIntegral = true → r.isFloating = false)) ∧
    (untyped.tree (some 5)).isIntegral = true ∧ (untyped.tree (some 7)).isFloating = false ∧
    small ≤ large ∧ ∃ t₁ t₂, untyped.transfer b small = .ok t₁ ∧ untyped.transfer b large = .ok t₂ ∧
      ¬t₁ ≤ t₂ :=
  ⟨by decide, rfl, rfl, by decide, _, _, rfl, rfl, by decide⟩

end Code

end SignFlow

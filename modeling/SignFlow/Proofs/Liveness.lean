import SignFlow.Proofs.Outline
import SignFlow.Proofs.Refinement
import SignFlow.Proofs.Worklist

/-! Where control can arrive, it goes on.

On a store that can be reached no expression has the impossible sign, evaluation leaves a store that can be
reached, and a condition has at least one outcome that can. -/

namespace SignFlow

theorem Sign.ofNumber_ne_bottom (n : Number) : ofNumber n ≠ bottom := by
  cases n with
  | int n =>
    simp only [ofNumber, ofInt]
    split <;> (try split) <;> decide
  | real x =>
    simp only [ofNumber, ofReal]
    split <;> (try split) <;> decide

theorem Sign.negate_ne_bottom {a : Sign} : a ≠ bottom → a.negate ≠ bottom := by cases a <;> decide

theorem Sign.convert_ne_bottom {a : Sign} (h : a ≠ bottom) (src dst : ValueType) :
    a.convert src dst ≠ bottom := by
  unfold convert convertIntegral
  repeat' split
  all_goals first | exact h | decide

theorem Operator.apply_ne_bottom (op : Operator) {a b : Sign} :
    a ≠ .bottom → b ≠ .bottom → op.apply a b ≠ .bottom := by
  cases op <;> cases a <;> cases b <;> decide

namespace Literal

theorem unsigned_ne_bottom {cs : List Char} {v : Sign} (h : unsigned cs = .ok v) : v ≠ .bottom := by
  unfold unsigned at h
  split at h
  · cases h
    split <;> decide
  · cases hn : number? cs with
    | error e => rw [hn] at h; cases h
    | ok n =>
      rw [hn] at h
      cases h
      cases n with
      | none => decide
      | some n => exact Sign.ofNumber_ne_bottom n

theorem sign_ne_bottom {text : String} {v : Sign} (h : sign text = .ok v) : v ≠ .bottom := by
  unfold sign at h
  split at h
  · rename_i rest _
    cases hu : unsigned rest with
    | error e => rw [hu] at h; cases h
    | ok w =>
      rw [hu] at h
      cases h
      exact Sign.negate_ne_bottom (unsigned_ne_bottom hu)
  · exact unsigned_ne_bottom h

end Literal

/-- The fact is possible: it is not the impossible sign. -/
def Fact.Possible (f : Fact) : Prop := f ≠ some .bottom

namespace Fact.Possible

variable {f : Fact}

theorem none : Fact.Possible none := nofun

theorem some {a : Sign} (h : a ≠ .bottom) : Fact.Possible (some a) := fun he => h (Option.some.inj he)

theorem unknown (t : Token) : Fact.Possible t.unknown := by
  unfold Token.unknown
  split
  · exact some (by decide)
  · exact none

theorem sign {a : Sign} (h : Fact.Possible (.some a)) : a ≠ .bottom := fun he => h (congrArg _ he)

theorem convert (h : f.Possible) (src dst : Option ValueType) : (f.convert src dst).Possible := by
  unfold Fact.convert
  split
  · exact some (Sign.convert_ne_bottom h.sign _ _)
  · exact h

theorem fit (h : f.Possible) (type : Option ValueType) : (f.fit type).Possible := by
  unfold Fact.fit
  split
  · split
    · exact some (by decide)
    · exact h
  · split
    · exact some (by decide)
    · exact h
  · exact h

theorem narrow (h : f.Possible) (type : Option ValueType) : (f.narrow type).Possible := by
  unfold Fact.narrow
  split
  case h_4 =>
    split
    · exact some (by decide)
    · exact h.fit type
  all_goals exact h.fit type

end Fact.Possible

namespace Walk

/-- From a store that can be reached the step goes to one that can, with a possible fact. -/
def Live (x : Walk Fact) : Prop :=
  ∀ s, s.isReachable = true → x.Ends s fun f s' _ => s'.isReachable = true ∧ f.Possible

theorem Live.ite {c : Prop} [Decidable c] {x y : Walk Fact} (hx : x.Live) (hy : y.Live) :
    (if c then x else y).Live := fun s hs => .ite (fun _ => hx s hs) fun _ => hy s hs

theorem assignTo_live {target : Expr} {f : Fact} (hf : f.Possible) {s : Store}
    (hs : s.isReachable = true) : (assignTo target f).Ends s fun _ s' _ => s'.isReachable = true := by
  unfold assignTo
  split
  · exact .pure hs
  · split
    · split
      · exact .change ((Store.isReachable_bind hf.sign).trans hs)
      · exact .change (Store.isReachable_forget.trans hs)
    · exact .change (Store.isReachable_forget.trans hs)

theorem forgetTarget_live {target : Expr} {s : Store} (hs : s.isReachable = true) :
    (forgetTarget target).Ends s fun _ s' _ => s'.isReachable = true := by
  unfold forgetTarget
  split
  · exact .pure hs
  · exact .change (Store.isReachable_forget.trans hs)

end Walk

namespace Eval

open Walk

variable {pos : Nat} {t : Token} {op : Operator} {l r : Expr} {left right : Walk Fact}

theorem leaf_live : (leaf t).Live := by
  intro s hs
  refine .ite (fun _ => .pure ⟨hs, .none⟩) fun _ => .bind (.store (.ite (fun h => ?_) fun _ => ?_))
  · simp [hs] at h
  refine .ite (fun _ => .bind (.lift fun v hv => .pure ⟨hs, .some (Literal.sign_ne_bottom hv)⟩)) fun _ => ?_
  split
  · refine .bind (.store (.pure ⟨hs, .some fun hb => ?_⟩))
    rw [Store.lookup_eq_bottom.mp hb] at hs
    cases hs
  · exact .pure ⟨hs, .some (by decide)⟩

theorem assign_live (hl : left.Live) (hr : right.Live) : (assign l r left right).Live := by
  intro s hs
  refine .bind ((hr s hs).mono fun v s₁ _ ⟨hs₁, hv⟩ => ?_)
  have last : ∀ {s₂ : Store}, s₂.isReachable = true → Walk.Ends (do
      assignTo l (v.convert r.type? l.type?)
      pure (if l.isNumeric then v.convert r.type? l.type? else none)) s₂ fun f s' _ =>
        s'.isReachable = true ∧ f.Possible := by
    intro s₂ hs₂
    refine .bind ((assignTo_live (hv.convert _ _) hs₂).mono fun _ s₃ _ hs₃ => .pure ⟨hs₃, ?_⟩)
    split
    · exact hv.convert _ _
    · exact .none
  exact .ite (fun _ => .bind ((hl s₁ hs₁).mono fun _ s₂ _ hw => last hw.1)) fun _ => last hs₁

theorem arithmetic_live (hl : left.Live) (hr : right.Live) :
    (arithmetic pos t op l r left right).Live := by
  intro s hs
  refine .bind ((hl s hs).mono fun v s₁ _ ⟨hs₁, hv⟩ => .bind ((hr s₁ hs₁).mono fun w s₂ _ ⟨hs₂, hw⟩ => ?_))
  dsimp only
  split
  · rename_i a b ha hb
    have hcomputed : op.apply a b ≠ .bottom :=
      op.apply_ne_bottom (ha ▸ hv.convert l.type? t.type).sign (hb ▸ hw.convert r.type? t.type).sign
    have hresult : Fact.Possible (Fact.fit
        (some (if cancels op l r && op.apply a b != .bottom then .zero else op.apply a b)) t.type) := by
      refine .fit (.some ?_) _
      split
      · decide
      · exact hcomputed
    exact .ite (fun _ => .bind (.note (.pure ⟨hs₂, hresult⟩))) fun _ => .pure ⟨hs₂, hresult⟩
  · exact .pure ⟨hs₂, .unknown t⟩

/-- What a compound assignment stores is possible if its operands are. -/
theorem stored_possible {a b : Sign} (ha : a ≠ .bottom) (hb : b ≠ .bottom) :
    (Fact.narrow (some (if l.isIntegral && !r.isIntegral && op.apply a b != .zero
      then .top else op.apply a b)) l.type?).Possible := by
  refine .narrow (.some ?_) _
  split
  · decide
  · exact op.apply_ne_bottom ha hb

theorem compound_live (hl : left.Live) (hr : right.Live) :
    (compound pos t op l r left right).Live := by
  intro s hs
  refine .bind ((hr s hs).mono fun w s₁ _ ⟨hs₁, hw⟩ => .bind ((hl s₁ hs₁).mono fun v s₂ _ ⟨hs₂, hv⟩ => ?_))
  have hunknown : Walk.Ends (do assignTo l none; pure t.unknown) s₂ fun f s' _ =>
      s'.isReachable = true ∧ f.Possible :=
    .bind ((assignTo_live .none hs₂).mono fun _ s₃ _ hs₃ => .pure ⟨hs₃, .unknown t⟩)
  rcases v with _ | a
  case none => exact hunknown
  rcases w with _ | b
  case none => exact hunknown
  dsimp only
  generalize hresult : Fact.narrow (some (if l.isIntegral && !r.isIntegral && op.apply a b != .zero
    then .top else op.apply a b)) l.type? = result
  have hpossible : result.Possible := hresult ▸ stored_possible hv.sign hw.sign
  have last : Walk.Ends (do assignTo l result; pure result) s₂ fun f s' _ =>
      s'.isReachable = true ∧ f.Possible :=
    .bind ((assignTo_live hpossible hs₂).mono fun _ s₃ _ hs₃ => .pure ⟨hs₃, hpossible⟩)
  exact .ite (fun _ => .bind (.note last)) fun _ => last

theorem comparison_live (hl : left.Live) (hr : right.Live) : (comparison left right).Live := by
  intro s hs
  refine .bind ((hl s hs).mono fun v s₁ _ ⟨hs₁, hv⟩ => .bind ((hr s₁ hs₁).mono fun w s₂ _ ⟨hs₂, hw⟩ => ?_))
  have known : ∀ {f : Fact}, f.Possible → f.getD .top ≠ .bottom := by
    intro f hf
    cases f with
    | none => decide
    | some a => exact hf.sign
  refine .pure ⟨hs₂, .some ?_⟩
  rw [Comparison.value, if_neg (not_or.mpr ⟨known hv, known hw⟩)]
  decide

theorem step_live {operand : Expr} {value : Walk Fact} (h : value.Live) :
    (step op operand value).Live := by
  intro s hs
  refine .bind ((h s hs).mono fun v s₁ _ ⟨hs₁, hv⟩ => ?_)
  have hnone : Walk.Ends (do assignTo operand none; pure none) s₁ fun f s' _ =>
      s'.isReachable = true ∧ Fact.Possible f :=
    .bind ((assignTo_live .none hs₁).mono fun _ s₂ _ hs₂ => .pure ⟨hs₂, .none⟩)
  rcases v with _ | old
  case none => exact hnone
  refine .ite (fun _ => ?_) fun _ => hnone
  have hnew : (Fact.narrow (some (op.apply old .pos)) operand.type?).Possible :=
    .narrow (.some (op.apply_ne_bottom hv.sign (by decide))) _
  refine .bind ((assignTo_live hnew hs₁).mono fun _ s₂ _ hs₂ => .pure ⟨hs₂, ?_⟩)
  generalize Fact.narrow (some (op.apply old .pos)) operand.type? = new
  cases new with
  | none => exact .none
  | some b => exact .some fun hb => hv.sign (Sign.join_eq_bottom.mp hb).1

theorem unary_live {operand : Expr} {value : Walk Fact} (h : value.Live) :
    (unary t operand value).Live := by
  intro s hs
  refine .bind ((h s hs).mono fun v s₁ _ ⟨hs₁, hv⟩ => ?_)
  split
  · refine .pure ⟨hs₁, ?_⟩
    cases v with
    | none => exact .none
    | some a => exact .fit (.some (Sign.negate_ne_bottom hv.sign)) _
  · exact .pure ⟨hs₁, hv⟩
  · exact .bind ((forgetTarget_live hs₁).mono fun _ s₂ _ hs₂ => .pure ⟨hs₂, .none⟩)
  · rw [if_neg hv]
    exact .pure ⟨hs₁, .some (by decide)⟩
  · exact .pure ⟨hs₁, .unknown t⟩

theorem other_live (hl : left.Live) (hr : right.Live) : (other t l left right).Live := by
  intro s hs
  have last : ∀ {s₁ : Store}, s₁.isReachable = true → Walk.Ends (do
      let _ ← right
      if Expr.assignments.contains t.text then assignTo l (some .top)
      pure t.unknown) s₁ fun f s' _ => s'.isReachable = true ∧ f.Possible := by
    intro s₁ hs₁
    refine .bind ((hr s₁ hs₁).mono fun _ s₂ _ ⟨hs₂, _⟩ => .ite (fun _ => ?_) fun _ => ?_)
    · exact .bind ((assignTo_live (.some (by decide)) hs₂).mono fun _ s₃ _ hs₃ => .pure ⟨hs₃, .unknown t⟩)
    · exact .pure ⟨hs₂, .unknown t⟩
  exact .ite (fun _ => .bind ((hl s hs).mono fun _ s₁ _ h => last h.1)) fun _ => last hs

end Eval

/-- The evaluations are live, and of a condition's two outcomes one can be reached. -/
structure Meaning.Live (m : Meaning) : Prop where
  value : m.value.Live
  left : m.left.Live
  right : m.right.Live
  assume : ∀ {s : Store}, s.isReachable = true → ∀ (truth : Bool) {yes no : Store},
    m.assume truth s = .ok yes → m.assume (!truth) s = .ok no →
    yes.isReachable = true ∨ no.isReachable = true

namespace Eval

open Walk

variable {pos : Nat} {t : Token} {l r : Expr} {ml mr : Meaning}

theorem shortCircuit_live {goesOn : Bool} (hl : ml.Live) : (shortCircuit goesOn ml mr).Live := by
  intro s hs
  refine .bind ((hl.value s hs).mono fun _ s₁ _ ⟨hs₁, _⟩ => .bind (.store (.bind (.lift fun taken _ => ?_))))
  refine .bind (.aside fun w _ => .bind (.change (.bind (.store (.pure ?_)))))
  have hafter : (s₁.absorb (mr.value taken).store).isReachable = true := by
    rw [Store.absorb_eq_join hs₁, Store.isReachable_join, hs₁]
    rfl
  rw [if_pos hafter]
  exact ⟨hafter, .some (by decide)⟩

theorem conditional_live {hasArms : Bool} (hl : ml.Live) (hr : mr.Live) :
    (conditional t hasArms ml mr).Live := by
  intro s hs
  refine .bind ((hl.value s hs).mono fun _ s₁ _ ⟨hs₁, _⟩ => .ite (fun _ => ?_) fun _ => ?_)
  · exact .bind ((hr.value s₁ hs₁).mono fun _ s₂ _ ⟨hs₂, _⟩ => .pure ⟨hs₂, .unknown t⟩)
  refine .bind (.store (.bind (.lift fun yesStore hyes => .bind (.aside fun y hy => ?_))))
  refine .bind (.store (.bind (.lift fun noStore hno => .bind (.aside fun n hn => .bind (.change ?_)))))
  -- one of the arms can be reached, and is evaluated on a store that can
  have harm : ((mr.left yesStore).store.isReachable = true ∧ y.Possible) ∨
      ((mr.right noStore).store.isReachable = true ∧ n.Possible) :=
    (hl.assume hs₁ true hyes hno).imp (fun h => hr.left yesStore h hy) fun h => hr.right noStore h hn
  have hends : ((mr.left yesStore).store.join (mr.right noStore).store).isReachable = true := by
    rw [Store.isReachable_join, Bool.or_eq_true]
    exact harm.imp And.left And.left
  rw [Store.adopt_eq hs₁ hends]
  rcases y with _ | a
  case none => exact .pure ⟨hends, .unknown t⟩
  rcases n with _ | b
  case none => exact .pure ⟨hends, .unknown t⟩
  refine .pure ⟨hends, .some fun hb => ?_⟩
  obtain ⟨ha, hb⟩ := Sign.join_eq_bottom.mp hb
  exact harm.elim (fun h => h.2.sign ha) fun h => h.2.sign hb

theorem visit_live (hl : ml.Live) (hr : mr.Live) : (visit pos t l r ml mr).Live := by
  refine leaf_live.ite ((assign_live hl.value hr.value).ite ?_)
  split
  · exact arithmetic_live hl.value hr.value
  · exact compound_live hl.value hr.value
  · exact comparison_live hl.value hr.value
  refine ((step_live hr.value).ite (step_live hl.value)).ite ((shortCircuit_live hl).ite ?_)
  refine (conditional_live hl hr).ite (.ite (fun s hs => ?_) (.ite (fun s hs => ?_) ?_))
  · exact .bind ((hl.value s hs).mono fun _ s₁ _ h => .pure ⟨h.1, .unknown t⟩)
  · exact .bind ((hl.value s hs).mono fun v s₁ _ h => .pure ⟨h.1, h.2.convert _ _⟩)
  refine (unary_live hl.value).ite (.ite (fun s hs => ?_) (other_live hl.value hr.value))
  exact .bind ((hl.value s hs).mono fun _ s₁ _ h => hr.value s₁ h.1)

theorem withKnown_live {visited : Walk Fact} (h : visited.Live) : (withKnown t visited).Live := by
  intro s hs
  refine .bind ((h s hs).mono fun f s₁ _ hf => .bind (.lift fun known _ => ?_))
  cases known with
  | none => exact .pure hf
  | some n =>
    refine .bind (.store (.ite (fun _ => .pure ⟨hf.1, ?_⟩) fun _ => .pure hf))
    exact .some (Sign.ofNumber_ne_bottom n)

theorem factOf_possible {e : Expr} {value : Walk Fact} (h : value.Live) {s : Store}
    (hs : s.isReachable = true) {f : Fact} (hf : factOf e value s = .ok f) : f.Possible := by
  unfold factOf at hf
  split at hf
  · cases hf
    split
    · exact .some (by decide)
    · exact .none
  · exact (h s hs hf).2

/-- Both outcomes of a comparison are refined by the same signs, or not at all. -/
theorem compare_both {left right : Walk Fact} {s : Store} {c : Comparison} {yes no : Store}
    (hyes : compare c l r left right s = .ok yes) (hno : compare c.negate l r left right s = .ok no) :
    yes = s ∧ no = s ∨ ∃ a b, factOf l left s = .ok (some a) ∧ factOf r right s = .ok (some b) ∧
      yes = (s.refine c l.key? (some a) r.key? (some b)).1 ∧
      no = (s.refine c.negate l.key? (some a) r.key? (some b)).1 := by
  obtain ⟨lf, hlf, hyes⟩ := (Returning.except Fault).of_bind hyes
  obtain ⟨rf, hrf, hyes⟩ := (Returning.except Fault).of_bind hyes
  obtain ⟨lf', hlf', hno⟩ := (Returning.except Fault).of_bind hno
  obtain ⟨rf', hrf', hno⟩ := (Returning.except Fault).of_bind hno
  cases hlf.symm.trans hlf'
  cases hrf.symm.trans hrf'
  rcases lf with _ | a
  case none =>
    cases hyes
    cases hno
    exact .inl ⟨rfl, rfl⟩
  rcases rf with _ | b
  case none =>
    cases hyes
    cases hno
    exact .inl ⟨rfl, rfl⟩
  dsimp only at hyes hno
  split at hyes
  · rw [if_pos ‹_›] at hno
    cases hyes
    cases hno
    exact .inr ⟨a, b, hlf, hrf, rfl, rfl⟩
  · rw [if_neg ‹_›] at hno
    cases hyes
    cases hno
    exact .inl ⟨rfl, rfl⟩

theorem compareWith_both {e : Expr} {value : Walk Fact} {s : Store} {c : Comparison} {sign : Sign}
    {yes no : Store} (hyes : compareWith c e value sign s = .ok yes)
    (hno : compareWith c.negate e value sign s = .ok no) :
    yes = s ∧ no = s ∨ ∃ a, factOf e value s = .ok (some a) ∧
      yes = (s.refine c e.key? (some a) none (some sign)).1 ∧
      no = (s.refine c.negate e.key? (some a) none (some sign)).1 := by
  obtain ⟨f, hf, hyes⟩ := (Returning.except Fault).of_bind hyes
  obtain ⟨f', hf', hno⟩ := (Returning.except Fault).of_bind hno
  cases hf.symm.trans hf'
  rcases f with _ | a
  · cases hyes
    cases hno
    exact .inl ⟨rfl, rfl⟩
  · cases hyes
    cases hno
    exact .inr ⟨a, hf, rfl, rfl⟩

theorem compare_live {left right : Walk Fact} (hl : left.Live) (hr : right.Live) {s : Store}
    (hs : s.isReachable = true) {c : Comparison} {yes no : Store}
    (hyes : compare c l r left right s = .ok yes) (hno : compare c.negate l r left right s = .ok no) :
    yes.isReachable = true ∨ no.isReachable = true := by
  rcases compare_both hyes hno with ⟨rfl, -⟩ | ⟨a, b, ha, hb, rfl, rfl⟩
  · exact .inl hs
  · exact Store.refine_live hs (factOf_possible hl hs ha).sign (factOf_possible hr hs hb).sign c

theorem compareWith_live {e : Expr} {value : Walk Fact} (h : value.Live) {s : Store}
    (hs : s.isReachable = true) {c : Comparison} {sign : Sign} (hsign : sign ≠ .bottom) {yes no : Store}
    (hyes : compareWith c e value sign s = .ok yes)
    (hno : compareWith c.negate e value sign s = .ok no) :
    yes.isReachable = true ∨ no.isReachable = true := by
  rcases compareWith_both hyes hno with ⟨rfl, -⟩ | ⟨a, ha, rfl, rfl⟩
  · exact .inl hs
  · exact Store.refine_live hs (factOf_possible h hs ha).sign hsign c

/-- Where both operands decide, they are assumed one after the other; where one is enough, either the
first is assumed or, after its other outcome, the second. -/
theorem logical_cases {both truth : Bool} {s s' : Store}
    (h : (do
      let first ← ml.assume truth s
      if both == truth then mr.assume truth first
      else do
        let second ← mr.assume truth (← ml.assume (!truth) s)
        pure (first.join second)) = .ok s') :
    ∃ first, ml.assume truth s = .ok first ∧ (both = truth ∧ mr.assume truth first = .ok s' ∨
      both ≠ truth ∧ ∃ other second, ml.assume (!truth) s = .ok other ∧
        mr.assume truth other = .ok second ∧ s' = first.join second) := by
  obtain ⟨first, hfirst, h⟩ := (Returning.except Fault).of_bind h
  refine ⟨first, hfirst, ?_⟩
  split at h
  · exact .inl ⟨beq_iff_eq.mp ‹_›, h⟩
  · obtain ⟨other, hother, h⟩ := (Returning.except Fault).of_bind h
    obtain ⟨second, hsecond, h⟩ := (Returning.except Fault).of_bind h
    exact .inr ⟨fun he => absurd (beq_iff_eq.mpr he) ‹_›, other, second, hother, hsecond,
      (Except.ok.inj h).symm⟩

/-- A relation between a store and the two outcomes of a condition that does not depend on which of them is
which, and that is passed on where a second condition is assumed after one outcome of the first. -/
structure Pairing (R : Store → Store → Store → Prop) : Prop where
  same : ∀ s, R s s s
  swap : ∀ {s yes no}, R s yes no → R s no yes
  both : ∀ {s first other yes second}, R s first other → R first yes second → R s yes (other.join second)

/-- What holds of the outcomes of every comparison, and of the outcomes of the operands, holds of those of
a condition. -/
theorem assumeNode_pair {R : Store → Store → Store → Prop} (hR : Pairing R) {e : Expr} {value : Walk Fact}
    {s : Store}
    (hcompare : s.isReachable = true → ∀ {c : Comparison} {yes no : Store},
      compare c l r ml.value mr.value s = .ok yes → compare c.negate l r ml.value mr.value s = .ok no →
      R s yes no)
    (hwith : s.isReachable = true → ∀ {yes no : Store},
      compareWith .ne e value .zero s = .ok yes → compareWith .eq e value .zero s = .ok no → R s yes no)
    (hl : ∀ {s yes no : Store} {truth : Bool}, ml.assume truth s = .ok yes →
      ml.assume (!truth) s = .ok no → R s yes no)
    (hr : ∀ {s yes no : Store} {truth : Bool}, mr.assume truth s = .ok yes →
      mr.assume (!truth) s = .ok no → R s yes no)
    {truth : Bool} {yes no : Store} (hyes : assumeNode e t l r value ml mr truth s = .ok yes)
    (hno : assumeNode e t l r value ml mr (!truth) s = .ok no) : R s yes no := by
  unfold assumeNode at hyes hno
  cases hs : s.isReachable with
  | false =>
    rw [if_pos (by simp [hs])] at hyes hno
    cases hyes
    cases hno
    exact hR.same s
  | true =>
  simp only [hs, Bool.not_true, Bool.false_eq_true, if_false] at hyes hno
  by_cases hnot : (t.text == "!" && r.isAbsent && !l.isAbsent) = true
  · rw [if_pos hnot] at hyes hno
    exact hl hyes hno
  rw [if_neg hnot] at hyes hno
  by_cases hlogical : ((t.text == "&&" || t.text == "||") && !l.isAbsent && !r.isAbsent) = true
  · rw [if_pos hlogical] at hyes hno
    obtain ⟨first, hfirst, hyes⟩ := logical_cases hyes
    obtain ⟨other, hother, hno⟩ := logical_cases hno
    -- of the two outcomes, one needs both operands and the other only one of them
    rcases hyes with ⟨htruth, hyes⟩ | ⟨htruth, o, second, ho, hsecond, rfl⟩
    · obtain ⟨-, o, second, ho, hsecond, rfl⟩ :=
        hno.resolve_left fun h => Bool.eq_not_iff.mp h.1 htruth
      rw [Bool.not_not] at ho
      cases hfirst.symm.trans ho
      exact hR.both (hl hfirst hother) (hr hyes hsecond)
    · obtain ⟨-, hno⟩ := hno.resolve_right fun h => h.1 (Bool.eq_not_iff.mpr htruth)
      cases hother.symm.trans ho
      rw [← Bool.not_not truth] at hfirst hsecond
      exact hR.swap (hR.both (hl hother hfirst) (hr hno hsecond))
  rw [if_neg hlogical] at hyes hno
  match hb : Expr.binaryOf? t l r with
  | some (.comparison c) =>
    rw [hb] at hyes hno
    cases truth
    · exact hR.swap (hcompare hs hno hyes)
    · exact hcompare hs hyes hno
  | some (.arithmetic op) | some (.compound op) | none =>
    rw [hb] at hyes hno
    dsimp only at hyes hno
    split at hyes
    · rw [if_pos ‹_›] at hno
      cases truth
      · exact hR.swap (hwith hs hno hyes)
      · exact hwith hs hyes hno
    · rw [if_neg ‹_›] at hno
      cases hyes
      cases hno
      exact hR.same s

/-- Where control arrives, it goes on to one of the two. -/
theorem live_pairing :
    Pairing fun s yes no => s.isReachable = true → yes.isReachable = true ∨ no.isReachable = true where
  same s hs := .inl hs
  swap h hs := (h hs).symm
  both h h' hs := by
    rw [Store.isReachable_join, Bool.or_eq_true]
    rcases h hs with hfirst | hother
    · exact (h' hfirst).imp_right .inr
    · exact .inr (.inl hother)

end Eval

theorem Expr.meaning_live (e : Expr) : e.meaning.Live := by
  induction e with
  | absent =>
    have hnone : (pure none : Walk Fact).Live := fun _ hs => .pure ⟨hs, .none⟩
    refine ⟨hnone, hnone, hnone, fun hs truth yes no hyes _ => ?_⟩
    cases hyes
    exact .inl hs
  | node pos t l r ihl ihr =>
    have hvalue : (node pos t l r).meaning.value.Live :=
      Eval.withKnown_live (Eval.visit_live ihl ihr)
    refine ⟨hvalue, ihl.value, ihr.value, fun hs truth yes no hyes hno => ?_⟩
    apply Eval.assumeNode_pair Eval.live_pairing _ _ _ _ hyes hno hs
    · exact fun hs _ _ _ hyes hno _ => Eval.compare_live ihl.value ihr.value hs hyes hno
    · exact fun hs _ _ hyes hno _ => Eval.compareWith_live hvalue hs (c := .ne) (by decide) hyes hno
    · exact fun hyes hno hs => ihl.assume hs _ hyes hno
    · exact fun hyes hno hs => ihr.assume hs _ hyes hno

end SignFlow

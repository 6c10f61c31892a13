import SignFlow.Proofs.Evaluation
import SignFlow.Proofs.Liveness

/-! What evaluation leaves alone.

An evaluation changes what is known of the variables that its expression mentions, and of no others. Arms of
conditions and right operands that may not run have stores of their own, which are put together again: of a
variable that none of them mentions they all say the same, and one of them can be reached. -/

namespace SignFlow

namespace Store

variable {k j : Key} {s s' s'' : Store} {v : Sign}

theorem lookup_bind_ne (h : k ≠ j) (hv : s.isReachable = true → v ≠ .bottom) :
    (s.bind j v).lookup k = s.lookup k := by
  cases s with
  | unreachable => rfl
  | reachable f => rw [lookup_bind (hv rfl), if_neg h]

theorem lookup_forget_ne (h : k ≠ j) : (s.forget j).lookup k = s.lookup k := by
  cases s with
  | unreachable => rfl
  | reachable f => rw [lookup_forget, if_neg h]

theorem isReachable_of_lookup (h : s'.lookup k = s.lookup k) : s'.isReachable = s.isReachable := by
  cases s with
  | unreachable => rw [lookup_eq_bottom.mp h]
  | reachable f =>
    cases s' with
    | unreachable => cases lookup_eq_bottom.mp h.symm
    | reachable g => rfl

/-- The second store says of the key what the first one does, if it can be reached. -/
def SameAt (k : Key) (s s' : Store) : Prop := s'.isReachable = true → s'.lookup k = s.lookup k

namespace SameAt

theorem refl (s : Store) : SameAt k s s := fun _ => rfl

theorem trans (h : SameAt k s s') (h' : SameAt k s' s'') : SameAt k s s'' := by
  intro hlive
  have hlookup := h' hlive
  rw [hlookup, h ((isReachable_of_lookup hlookup).symm.trans hlive)]

theorem join (h : SameAt k s s') (h' : SameAt k s s'') : SameAt k s (s'.join s'') := by
  intro hlive
  cases hs' : s'.isReachable with
  | false =>
    rw [eq_unreachable hs'] at hlive ⊢
    exact h' hlive
  | true =>
    cases hs'' : s''.isReachable with
    | false =>
      rw [eq_unreachable hs'', join_comm]
      exact h hs'
    | true => rw [lookup_join, h hs', h' hs'', Sign.join_self]

end SameAt

end Store

namespace Walk

variable {α β : Type} {k : Key} {s : Store}

/-- The step leaves what is known of the key as it is, also where it fails. -/
def Keeps (k : Key) (x : Walk α) (s : Store) : Prop := (x s).store.lookup k = s.lookup k

theorem Live.possible {x : Walk Fact} (hlive : x.Live) (h : x.Keeps k s) {f : Fact}
    (hf : (x s).value = .ok f) (hs : (x s).store.isReachable = true) : f.Possible :=
  (hlive s ((Store.isReachable_of_lookup h).symm.trans hs) hf).2

namespace Keeps

theorem pure (a : α) : (Pure.pure a : Walk α).Keeps k s := rfl

theorem note (site : Site) : (Walk.note site).Keeps k s := rfl

theorem bind {x : Walk α} {f : α → Walk β} (hx : x.Keeps k s)
    (hf : ∀ a, (x s).value = .ok a → (f a).Keeps k (x s).store) : (x >>= f).Keeps k s := by
  unfold Keeps
  cases hv : (x s).value with
  | ok a =>
    rw [bind_of_ok hv]
    exact (hf a hv).trans hx
  | error e =>
    rw [bind_of_error hv]
    exact hx

theorem bind_store {f : Store → Walk β} (hf : (f s).Keeps k s) : (Walk.store >>= f).Keeps k s := hf

theorem bind_lift {x : Except Fault α} {f : α → Walk β} (hf : ∀ a, x = .ok a → (f a).Keeps k s) :
    (Walk.lift x >>= f).Keeps k s := bind rfl hf

theorem bind_aside {x : Walk α} {other : Store} {f : α × Store → Walk β}
    (hf : ∀ a, (x other).value = .ok a → (f (a, (x other).store)).Keeps k s) :
    (Walk.aside other x >>= f).Keeps k s := by
  refine bind rfl fun p hp => ?_
  obtain ⟨a, ha, rfl⟩ : ∃ a, (x other).value = .ok a ∧ (a, (x other).store) = p := by
    have hp : (x other).value.map (fun a => (a, (x other).store)) = .ok p := hp
    cases hv : (x other).value with
    | ok a =>
      rw [hv] at hp
      exact ⟨a, rfl, Except.ok.inj hp⟩
    | error e =>
      rw [hv] at hp
      cases hp
  exact hf a ha

theorem ite {c : Prop} [Decidable c] {x y : Walk α} (hx : x.Keeps k s) (hy : y.Keeps k s) :
    (if c then x else y).Keeps k s := by
  split
  · exact hx
  · exact hy

theorem assignTo {target : Expr} {f : Fact} (ht : k ∉ target.key?)
    (hf : s.isReachable = true → f.Possible) : (Walk.assignTo target f).Keeps k s := by
  unfold Walk.assignTo
  split
  · exact pure ()
  · rename_i j hj
    have hne : k ≠ j := fun h => ht (h ▸ hj)
    split
    · exact ite (Store.lookup_bind_ne hne fun hs => (hf hs).sign) (Store.lookup_forget_ne hne)
    · exact Store.lookup_forget_ne hne

theorem forgetTarget {target : Expr} (ht : k ∉ target.key?) : (Walk.forgetTarget target).Keeps k s := by
  unfold Walk.forgetTarget
  split
  · exact pure ()
  · rename_i j hj
    exact Store.lookup_forget_ne fun h => ht (h ▸ hj)

end Keeps

end Walk

namespace Eval

open Walk

variable {k : Key} {pos : Nat} {t : Token} {op : Operator} {l r : Expr} {left right : Walk Fact}

theorem leaf_keeps (s : Store) : (leaf t).Keeps k s := by
  unfold leaf
  refine .ite (.pure _) (.bind_store (.ite (.pure _) (.ite (.bind_lift fun _ _ => .pure _) ?_)))
  split
  · exact .bind_store (.pure _)
  · exact .pure _

theorem assign_keeps (hk : k ∉ l.key?) (hl : ∀ s, left.Keeps k s) (hr : ∀ s, right.Keeps k s)
    (hlive : right.Live) (s : Store) : (assign l r left right).Keeps k s := by
  refine .bind (hr s) fun v hv => ?_
  have last : ∀ {s₂ : Store}, s₂.isReachable = (right s).store.isReachable → Walk.Keeps k (do
      assignTo l (v.convert r.type? l.type?)
      pure (if l.isNumeric then v.convert r.type? l.type? else none)) s₂ := by
    intro s₂ hs₂
    refine .bind (.assignTo hk fun hs => ?_) fun _ _ => .pure _
    exact (hlive.possible (hr s) hv (hs₂.symm.trans hs)).convert _ _
  exact .ite (.bind (hl _) fun _ _ => last (Store.isReachable_of_lookup (hl _))) (last rfl)

theorem arithmetic_keeps (hl : ∀ s, left.Keeps k s) (hr : ∀ s, right.Keeps k s) (s : Store) :
    (arithmetic pos t op l r left right).Keeps k s := by
  refine .bind (hl s) fun a _ => .bind (hr _) fun b _ => ?_
  dsimp only
  split
  · exact .ite (.bind (.note _) fun _ _ => .pure _) (.pure _)
  · exact .pure _

theorem compound_keeps (hk : k ∉ l.key?) (hl : ∀ s, left.Keeps k s) (hr : ∀ s, right.Keeps k s)
    (hleft : left.Live) (hright : right.Live) (s : Store) :
    (compound pos t op l r left right).Keeps k s := by
  refine .bind (hr s) fun w hw => .bind (hl _) fun v hv => ?_
  have hunknown : Walk.Keeps k (do assignTo l none; pure t.unknown) (left (right s).store).store :=
    .bind (.assignTo hk fun _ => .none) fun _ _ => .pure _
  rcases v with _ | a
  case none => exact hunknown
  rcases w with _ | b
  case none => exact hunknown
  have hpossible : (left (right s).store).store.isReachable = true → a ≠ .bottom ∧ b ≠ .bottom := by
    intro hs
    have hs₁ : (right s).store.isReachable = true :=
      (Store.isReachable_of_lookup (hl _)).symm.trans hs
    exact ⟨(hleft.possible (hl _) hv hs).sign, (hright.possible (hr s) hw hs₁).sign⟩
  refine .ite (.bind (.note _) fun _ _ => ?_) ?_
  all_goals
    refine .bind (.assignTo hk fun hs => ?_) fun _ _ => .pure _
    exact stored_possible (hpossible hs).1 (hpossible hs).2

theorem comparison_keeps (hl : ∀ s, left.Keeps k s) (hr : ∀ s, right.Keeps k s) (s : Store) :
    (comparison left right).Keeps k s :=
  .bind (hl s) fun _ _ => .bind (hr _) fun _ _ => .pure _

theorem step_keeps {operand : Expr} {value : Walk Fact} (hk : k ∉ operand.key?)
    (h : ∀ s, value.Keeps k s) (hlive : value.Live) (s : Store) : (step op operand value).Keeps k s := by
  refine .bind (h s) fun v hv => ?_
  have hnone : Walk.Keeps k (do assignTo operand none; pure (none : Fact)) (value s).store :=
    .bind (.assignTo hk fun _ => .none) fun _ _ => .pure _
  rcases v with _ | old
  case none => exact hnone
  refine .ite (.bind (.assignTo hk fun hs => ?_) fun _ _ => .pure _) hnone
  exact .narrow (.some (op.apply_ne_bottom (hlive.possible (h s) hv hs).sign (by decide))) _

theorem unary_keeps {operand : Expr} {value : Walk Fact} (hk : k ∉ operand.key?)
    (h : ∀ s, value.Keeps k s) (s : Store) : (unary t operand value).Keeps k s := by
  refine .bind (h s) fun v _ => ?_
  split
  · exact .pure _
  · exact .pure _
  · exact .bind (.forgetTarget hk) fun _ _ => .pure _
  · exact .pure _
  · exact .pure _

theorem other_keeps (hk : k ∉ l.key?) (hl : ∀ s, left.Keeps k s) (hr : ∀ s, right.Keeps k s) (s : Store) :
    (other t l left right).Keeps k s := by
  have last : ∀ s, Walk.Keeps k (do
      let _ ← right
      if Expr.assignments.contains t.text then assignTo l (some .top)
      pure t.unknown) s := by
    intro s
    refine .bind (hr s) fun _ _ => .ite (.bind (.assignTo hk fun _ => ?_) fun _ _ => .pure _) (.pure _)
    exact .some (by decide)
  exact .ite (.bind (hl s) fun _ _ => last _) (last s)

end Eval

/-- The evaluations keep what is known of the key, and so does each outcome that can be reached. -/
structure Meaning.Keeps (k : Key) (m : Meaning) : Prop where
  value : ∀ s, m.value.Keeps k s
  left : ∀ s, m.left.Keeps k s
  right : ∀ s, m.right.Keeps k s
  assume : ∀ {truth : Bool} {s s' : Store}, m.assume truth s = .ok s' → s.SameAt k s'

namespace Eval

open Walk

variable {k : Key} {pos : Nat} {t : Token} {l r : Expr} {ml mr : Meaning}

theorem shortCircuit_keeps {goesOn : Bool} (hl : ml.Keeps k) (hr : mr.Keeps k) (s : Store) :
    (shortCircuit goesOn ml mr).Keeps k s := by
  refine .bind (hl.value s) fun _ _ => .bind_store (.bind_lift fun taken htaken => ?_)
  refine .bind_aside fun w _ => .bind ?_ fun _ _ => .bind_store (.pure _)
  generalize (ml.value s).store = s₁ at htaken
  show (s₁.absorb (mr.value taken).store).lookup k = s₁.lookup k
  cases hs₁ : s₁.isReachable with
  | false => rw [Store.eq_unreachable hs₁, Store.absorb_unreachable]
  | true =>
    have hbranch : s₁.SameAt k (mr.value taken).store :=
      (hl.assume htaken).trans fun _ => hr.value taken
    rw [Store.absorb_eq_join hs₁]
    refine (Store.SameAt.refl s₁).join hbranch ?_
    rw [Store.isReachable_join, hs₁, Bool.true_or]

theorem conditional_keeps {hasArms : Bool} (hl : ml.Keeps k) (hr : mr.Keeps k) (hlive : ml.Live)
    (s : Store) : (conditional t hasArms ml mr).Keeps k s := by
  refine .bind (hl.value s) fun _ _ => .ite (.bind (hr.value _) fun _ _ => .pure _) ?_
  refine .bind_store (.bind_lift fun yesStore hyes => .bind_aside fun yes _ => ?_)
  refine .bind_store (.bind_lift fun noStore hno => .bind_aside fun no _ => .bind ?_ fun _ _ => ?_)
  · generalize (ml.value s).store = s₁ at hyes hno
    show (s₁.adopt ((mr.left yesStore).store.join (mr.right noStore).store)).lookup k = s₁.lookup k
    cases hs₁ : s₁.isReachable with
    | false => rw [Store.eq_unreachable hs₁, Store.adopt_unreachable]
    | true =>
      -- one outcome can be reached, and then so can the end of its arm
      have hends : ((mr.left yesStore).store.join (mr.right noStore).store).isReachable = true := by
        rw [Store.isReachable_join, Store.isReachable_of_lookup (hr.left yesStore),
          Store.isReachable_of_lookup (hr.right noStore), Bool.or_eq_true]
        exact hlive.assume hs₁ true hyes hno
      have hyesEnd : s₁.SameAt k (mr.left yesStore).store :=
        (hl.assume hyes).trans fun _ => hr.left yesStore
      have hnoEnd : s₁.SameAt k (mr.right noStore).store :=
        (hl.assume hno).trans fun _ => hr.right noStore
      rw [Store.adopt_eq hs₁ hends]
      exact hyesEnd.join hnoEnd hends
  · split
    · exact .pure _
    · exact .pure _

theorem visit_keeps (hkl : k ∉ l.key?) (hkr : k ∉ r.key?) (hl : ml.Keeps k) (hr : mr.Keeps k)
    (hleft : ml.Live) (hright : mr.Live) (s : Store) : (visit pos t l r ml mr).Keeps k s := by
  refine .ite (leaf_keeps s) (.ite (assign_keeps hkl hl.value hr.value hright.value s) ?_)
  split
  · exact arithmetic_keeps hl.value hr.value s
  · exact compound_keeps hkl hl.value hr.value hleft.value hright.value s
  · exact comparison_keeps hl.value hr.value s
  refine .ite (.ite (step_keeps hkr hr.value hright.value s) (step_keeps hkl hl.value hleft.value s)) ?_
  refine .ite (shortCircuit_keeps hl hr s) (.ite (conditional_keeps hl hr hleft s) ?_)
  refine .ite (.bind (hl.value s) fun _ _ => .pure _) (.ite (.bind (hl.value s) fun _ _ => .pure _) ?_)
  refine .ite (unary_keeps hkl hl.value s) (.ite ?_ (other_keeps hkl hl.value hr.value s))
  exact .bind (hl.value s) fun _ _ => hr.value _

theorem withKnown_keeps {visited : Walk Fact} (h : ∀ s, visited.Keeps k s) (s : Store) :
    (withKnown t visited).Keeps k s := by
  refine .bind (h s) fun f _ => .bind_lift fun known _ => ?_
  cases known with
  | none => exact .pure _
  | some n => exact .bind_store (.ite (.pure _) (.pure _))

theorem compare_sameAt {c : Comparison} {left right : Walk Fact} {s s' : Store} (hkl : k ∉ l.key?)
    (hkr : k ∉ r.key?) (h : compare c l r left right s = .ok s') : s.SameAt k s' := by
  rcases compare_cases h with rfl | ⟨a, b, -, -, rfl⟩
  · exact .refl _
  · exact Store.lookup_refine hkl hkr

theorem compareWith_sameAt {c : Comparison} {e : Expr} {value : Walk Fact} {sign : Sign} {s s' : Store}
    (hk : k ∉ e.key?) (h : compareWith c e value sign s = .ok s') : s.SameAt k s' := by
  rcases compareWith_cases h with rfl | ⟨a, -, rfl⟩
  · exact .refl _
  · exact Store.lookup_refine hk (Option.not_mem_none k)

theorem assumeNode_sameAt {e : Expr} {value : Walk Fact} {truth : Bool} {s s' : Store}
    (hk : k ∉ e.key?) (hkl : k ∉ l.key?) (hkr : k ∉ r.key?) (hl : ml.Keeps k) (hr : mr.Keeps k)
    (h : assumeNode e t l r value ml mr truth s = .ok s') : s.SameAt k s' := by
  unfold assumeNode at h
  split at h
  · cases h
    exact .refl _
  split at h
  · exact hl.assume h
  split at h
  · obtain ⟨first, hfirst, h⟩ := logical_cases h
    rcases h with ⟨-, hsecond⟩ | ⟨-, other, second, hother, hsecond, rfl⟩
    · exact (hl.assume hfirst).trans (hr.assume hsecond)
    · exact (hl.assume hfirst).join ((hl.assume hother).trans (hr.assume hsecond))
  split at h
  · exact compare_sameAt hkl hkr h
  split at h
  · exact compareWith_sameAt hk h
  · cases h
    exact .refl _

end Eval

namespace Expr

variable {k : Key}

/-- The variables an expression mentions. -/
def keys : Expr → List Key
  | absent => []
  | node _ t l r => t.variableKey.toList ++ (l.keys ++ r.keys)

theorem notMem_keys_node {pos : Nat} {t : Token} {l r : Expr} :
    k ∉ (node pos t l r).keys ↔ k ∉ t.variableKey ∧ k ∉ l.keys ∧ k ∉ r.keys := by
  simp [keys]

theorem notMem_key? {e : Expr} (h : k ∉ e.keys) : k ∉ e.key? := by
  cases e with
  | absent => exact Option.not_mem_none k
  | node pos t l r => exact (notMem_keys_node.mp h).1

theorem meaning_keeps {e : Expr} (h : k ∉ e.keys) : e.meaning.Keeps k := by
  induction e with
  | absent =>
    refine ⟨fun _ => .pure _, fun _ => .pure _, fun _ => .pure _, fun hs => ?_⟩
    cases hs
    exact .refl _
  | node pos t l r ihl ihr =>
    obtain ⟨ht, hl, hr⟩ := notMem_keys_node.mp h
    have hvisit : ∀ s, (Eval.visit pos t l r l.meaning r.meaning).Keeps k s :=
      Eval.visit_keeps (notMem_key? hl) (notMem_key? hr) (ihl hl) (ihr hr) l.meaning_live r.meaning_live
    exact ⟨Eval.withKnown_keeps hvisit, (ihl hl).value, (ihr hr).value,
      Eval.assumeNode_sameAt ht (notMem_key? hl) (notMem_key? hr) (ihl hl) (ihr hr)⟩

end Expr

namespace Code

variable {k : Key} {c : Code} {root : Nat}

theorem notMem_variableKey (h : k ∉ (c.tree (some root)).keys) : k ∉ (c.token root).variableKey := by
  unfold tree at h
  cases hsize : c.size with
  | zero =>
    have hempty : c.tokens = #[] := Array.eq_empty_of_size_eq_zero hsize
    rw [token, hempty]
    exact Option.not_mem_none k
  | succ n =>
    rw [hsize] at h
    exact (Expr.notMem_keys_node.mp h).1

theorem statement_keeps (h : k ∉ (c.tree (some root)).keys) (s : Store) : (c.statement root).Keeps k s := by
  unfold statement
  refine .ite (.pure _) (.ite ?_ (.bind ((Expr.meaning_keeps h).value s) fun _ _ => .pure _))
  split
  · rename_i j hj
    exact Store.lookup_forget_ne fun hkj => notMem_variableKey h (hkj ▸ hj)
  · exact .pure _

end Code

namespace Expr

/-- A variable that an expression does not mention is left alone. Evaluating the expression, by itself or as a
statement, leaves what is known of the variable as it is, also where evaluation fails. Assuming an outcome of
the expression fails only where a literal or a known value of it cannot be read. Otherwise the outcome cannot
be reached, or there too the same is known of the variable. -/
theorem unmentioned_kept (e : Expr) {k : Key} (hk : k ∉ e.keys) (s : Store) :
    (e.eval s).store.lookup k = s.lookup k ∧
    (∀ (c : Code) (root : Nat), c.tree (some root) = e →
      (c.statement root s).store.lookup k = s.lookup k) ∧
    ∀ truth, (∃ f, e.Faulty f ∧ e.assume truth s = .error f) ∨
      ∃ s', e.assume truth s = .ok s' ∧ (s'.isReachable = false ∨ s'.lookup k = s.lookup k) := by
  refine ⟨(meaning_keeps hk).value s, ?_, fun truth => ?_⟩
  · rintro c root rfl
    exact Code.statement_keeps hk s
  · cases hassume : e.assume truth s with
    | error f => exact .inl ⟨f, (e.meaning_failsOnly fun _ hf => hf).assume truth s hassume, rfl⟩
    | ok s' =>
      refine .inr ⟨s', rfl, ?_⟩
      cases hs' : s'.isReachable with
      | false => exact .inl rfl
      | true => exact .inr ((meaning_keeps hk).assume hassume hs')

/-- The tokens of `x ? z = 1 : y--;`. -/
def chosen : Code := ⟨#[
  { text := "x", parent := some 1, variableKey := some (.id 1), type := some { base := .int } },
  { text := "?", left := some 0, right := some 5, type := some { base := .int } },
  { text := "z", parent := some 3, variableKey := some (.id 3), type := some { base := .int } },
  { text := "=", left := some 2, right := some 4, parent := some 5, type := some { base := .int } },
  { text := "1", parent := some 3, isNumber := true, type := some { base := .int } },
  { text := ":", left := some 3, right := some 7, parent := some 1 },
  { text := "y", parent := some 7, variableKey := some (.id 2), type := some { base := .int } },
  { text := "--", left := some 6, parent := some 5, type := some { base := .int } },
  { text := ";" }]⟩

/-- The condition is false, and the step down may lead anywhere. The last variable is not mentioned. -/
def chosenStore : Store :=
  (((Store.empty.bind (.id 1) .zero).bind (.id 2) .pos).bind (.id 3) .neg).bind (.id 4) .neg

/-- Only one arm can be reached, and it changes only what it mentions. -/
theorem unmentioned_kept_chosen :
    Key.id 4 ∉ (chosen.tree (some 1)).keys ∧
    ((chosen.tree (some 1)).eval chosenStore).store.entries =
      [(.id 1, .zero), (.id 3, .neg), (.id 4, .neg)] ∧
    ((chosen.tree (some 1)).eval chosenStore).store.lookup (.id 4) = chosenStore.lookup (.id 4) ∧
    (chosen.statement 1 chosenStore).store.lookup (.id 4) = chosenStore.lookup (.id 4) ∧
    (chosen.tree (some 0)).assume true chosenStore = .ok .unreachable ∧
    ∃ s', (chosen.tree (some 0)).assume false chosenStore = .ok s' ∧
      (s'.isReachable = false ∨ s'.lookup (.id 4) = chosenStore.lookup (.id 4)) := by
  have hkey : Key.id 4 ∉ (chosen.tree (some 1)).keys := by decide
  obtain ⟨heval, hstatement, -⟩ := unmentioned_kept (chosen.tree (some 1)) hkey chosenStore
  refine ⟨hkey, rfl, heval, hstatement chosen 1 rfl, rfl, ?_⟩
  have hcondition : Key.id 4 ∉ (chosen.tree (some 0)).keys := by decide
  refine ((unmentioned_kept (chosen.tree (some 0)) hcondition chosenStore).2.2 false).resolve_left ?_
  rintro ⟨f, -, hf⟩
  cases hf

end Expr

end SignFlow

import SignFlow.Proofs.DeadCode
import SignFlow.Proofs.Liveness

/-! Merging stores in place.

A store takes in another, or takes over what two arms of a condition leave, by going through the keys of
both and binding each in turn. On the way a key is dropped when it is bound to anything, and all would be
lost if one were bound to the impossible sign. The order of the keys does not matter, and the store ends as
the join. For the arms of a condition this needs that one of them can be reached. -/

namespace SignFlow

namespace Store

/-- `absorb`, with the keys in a given order. -/
def absorbAlong (s : Store) (keys : List Key) (t : Store) : Store :=
  if t.isReachable then keys.foldl (fun r k => r.bind k ((r.lookup k).join (t.lookup k))) s else s

def adoptAlong (s : Store) (keys : List Key) (t : Store) : Store :=
  keys.foldl (fun r k => r.bind k (t.lookup k)) s

variable {s t : Store} {keys : List Key}

theorem absorbAlong_eq_join (hs : s.isReachable = true) (hkeys : s.keys ⊆ keys) :
    s.absorbAlong keys t = s.join t := by
  cases s with
  | unreachable => cases hs
  | reachable f =>
    cases t with
    | unreachable => rfl
    | reachable g =>
      refine ext_lookup fun k => ?_
      rw [lookup_join]
      exact lookup_foldl_absorb g hkeys k

theorem adoptAlong_eq (hs : s.isReachable = true) (ht : t.isReachable = true)
    (hkeys : s.keys ++ t.keys ⊆ keys) : s.adoptAlong keys t = t := by
  cases s with
  | unreachable => cases hs
  | reachable f =>
    cases t with
    | unreachable => cases ht
    | reachable g => exact ext_lookup (lookup_foldl_adopt hkeys)

end Store

namespace Walk

theorem store_bind_of_ok {α β : Type} {x : Walk α} {f : α → Walk β} {s : Store} {a : α}
    (h : (x s).value = .ok a) : ((x >>= f) s).store = (f a (x s).store).store := by
  rw [bind_of_ok h]

end Walk

namespace Expr

/-- The arms of a condition end with these stores: the condition is evaluated, and then each arm on the
store where the condition has come out its way. -/
def ArmsEnd (cond yes no : Expr) (s yesEnd noEnd : Store) : Prop :=
  ∃ c v w taken other, (cond.eval s).value = .ok c ∧
    (cond.assume true (cond.eval s).store = .ok taken ∧ (yes.eval taken).value = .ok v) ∧
    (cond.assume false (cond.eval s).store = .ok other ∧ (no.eval other).value = .ok w) ∧
    yesEnd = (yes.eval taken).store ∧ noEnd = (no.eval other).store

variable {cond yes no : Expr} {s y n : Store}

theorem ArmsEnd.live (h : ArmsEnd cond yes no s y n) (hs : s.isReachable = true) :
    (cond.eval s).store.isReachable = true ∧ (y.join n).isReachable = true := by
  obtain ⟨c, v, w, taken, other, hc, ⟨htaken, hv⟩, ⟨hother, hw⟩, rfl, rfl⟩ := h
  have hafter : (cond.eval s).store.isReachable = true := (cond.meaning_live.value s hs hc).1
  rw [Store.isReachable_join, Bool.or_eq_true]
  exact ⟨hafter, (cond.meaning_live.assume hafter true htaken hother).imp
    (fun h => (yes.meaning_live.value taken h hv).1) fun h => (no.meaning_live.value other h hw).1⟩

end Expr

namespace Eval

open Walk

variable {pos q : Nat} {t colon : Token} {cond yes no : Expr} {s y n : Store}

theorem withKnown_store (visited : Walk Fact) : (withKnown t visited s).store = (visited s).store := by
  cases hv : (visited s).value with
  | error e => rw [withKnown, bind_of_error hv]
  | ok f =>
    rw [withKnown, store_bind_of_ok hv]
    cases hk : t.known? with
    | error e => rfl
    | ok known =>
      rw [store_bind_of_ok (x := lift (.ok known)) rfl]
      cases known with
      | none => rfl
      | some m =>
        rw [store_bind_of_ok (x := Walk.store) rfl]
        split <;> rfl

theorem visit_arms (ht : t.text = "?") (hcolon : colon.text = ":") {ml mr : Meaning} :
    visit pos t cond (.node q colon yes no) ml mr = conditional t true ml mr := by
  cases hcond : cond.isAbsent with
  | false => exact visit_conditional ht hcolon hcond
  | true =>
    have hb : Expr.binaryOf? t cond (.node q colon yes no) = none := by simp [Expr.binaryOf?, hcond]
    unfold visit
    rw [hb, hcond, ht, show (Expr.node q colon yes no).text = ":" from hcolon]
    rfl

theorem aside_of_ok {α : Type} {x : Walk α} {other s : Store} {a : α} (h : (x other).value = .ok a) :
    (aside other x s).value = .ok (a, (x other).store) := by
  simp only [aside, h, Except.map]

theorem conditional_store {ml mr : Meaning} {c v w : Fact} {taken other : Store}
    (hc : (ml.value s).value = .ok c) (htaken : ml.assume true (ml.value s).store = .ok taken)
    (hv : (mr.left taken).value = .ok v) (hother : ml.assume false (ml.value s).store = .ok other)
    (hw : (mr.right other).value = .ok w) :
    (conditional t true ml mr s).store =
      (ml.value s).store.adopt ((mr.left taken).store.join (mr.right other).store) := by
  refine (store_bind_of_ok hc).trans ?_
  refine (store_bind_of_ok (x := Walk.store) rfl).trans ((store_bind_of_ok (x := lift _) htaken).trans ?_)
  refine (store_bind_of_ok (aside_of_ok hv)).trans ((store_bind_of_ok (x := Walk.store) rfl).trans ?_)
  refine (store_bind_of_ok (x := lift _) hother).trans ((store_bind_of_ok (aside_of_ok hw)).trans ?_)
  refine (store_bind_of_ok (x := change _) rfl).trans ?_
  cases v <;> cases w <;> rfl

/-- A condition that gives a value has arms that end. -/
theorem conditional_ends :
    (conditional t true cond.meaning (Expr.node q colon yes no).meaning).Ends s fun _ _ _ =>
      ∃ y n, Expr.ArmsEnd cond yes no s y n := by
  refine .bind fun c hc => .bind (.store (.bind (.lift fun taken htaken => .bind (.aside fun v hv => ?_))))
  refine .bind (.store (.bind (.lift fun other hother => .bind (.aside fun w hw => fun _ _ => ?_))))
  exact ⟨_, _, c, v, w, taken, other, hc, ⟨htaken, hv⟩, ⟨hother, hw⟩, rfl, rfl⟩

end Eval

namespace Expr

variable {cond yes no : Expr} {s y n : Store}

theorem ArmsEnd.store (h : ArmsEnd cond yes no s y n) {q : Nat} {t colon : Token} :
    (Eval.conditional t true cond.meaning (node q colon yes no).meaning s).store =
      (cond.eval s).store.adopt (y.join n) := by
  obtain ⟨c, v, w, taken, other, hc, ⟨htaken, hv⟩, ⟨hother, hw⟩, rfl, rfl⟩ := h
  exact Eval.conditional_store hc htaken hv hother hw

theorem eval_arms {pos q : Nat} {t colon : Token} (ht : t.text = "?") (hcolon : colon.text = ":") :
    (node pos t cond (node q colon yes no)).eval =
      Eval.withKnown t (Eval.conditional t true cond.meaning (node q colon yes no).meaning) :=
  congrArg (Eval.withKnown t) (Eval.visit_arms ht hcolon)

/-- Where control arrives, merging in place is joining. A store that takes in another is their join after it,
in whatever order their keys come. A condition with two arms leaves the join of the stores that the arms
leave, again in whatever order the keys are written back. The arms do end, unless a token cannot be read and
the evaluation fails for that. -/
theorem merges_are_joins :
    (∀ s t : Store, s.isReachable = true → s.absorb t = s.join t ∧
      ∀ keys, (∀ k, k ∈ keys ↔ k ∈ s.keys ∨ k ∈ t.keys) → s.absorbAlong keys t = s.join t) ∧
    ∀ (pos q : Nat) (t colon : Token) (cond yes no : Expr) (s : Store),
      t.text = "?" → colon.text = ":" → s.isReachable = true →
      (∀ y n, ArmsEnd cond yes no s y n →
        ((node pos t cond (node q colon yes no)).eval s).store = y.join n ∧
        ∀ keys, (∀ k, k ∈ keys ↔ k ∈ (cond.eval s).store.keys ∨ k ∈ (y.join n).keys) →
          (cond.eval s).store.adoptAlong keys (y.join n) = y.join n) ∧
      ((∃ y n, ArmsEnd cond yes no s y n) ∨
        ∃ f, (node pos t cond (node q colon yes no)).Faulty f ∧
          ((node pos t cond (node q colon yes no)).eval s).value = .error f) := by
  constructor
  · intro s t hs
    refine ⟨Store.absorb_eq_join hs, fun keys hkeys => Store.absorbAlong_eq_join hs fun k hk => ?_⟩
    exact (hkeys k).mpr (.inl hk)
  · intro pos q t colon cond yes no s ht hcolon hs
    constructor
    · intro y n hends
      obtain ⟨hafter, hjoin⟩ := hends.live hs
      constructor
      · rw [eval_arms ht hcolon, Eval.withKnown_store, hends.store, Store.adopt_eq hafter hjoin]
      · intro keys hkeys
        refine Store.adoptAlong_eq hafter hjoin fun k hk => ?_
        exact (hkeys k).mpr (List.mem_append.mp hk)
    · cases hv : (Eval.conditional t true cond.meaning (node q colon yes no).meaning s).value with
      | ok v => exact .inl (Eval.conditional_ends hv)
      | error f =>
        have hvalue : ((node pos t cond (node q colon yes no)).eval s).value = .error f := by
          rw [eval_arms ht hcolon, Eval.withKnown, Walk.bind_of_error hv]
        exact .inr ⟨f, (meaning_failsOnly _ fun f hf => hf).value s hvalue, hvalue⟩

def setTo (pos : Nat) (k : Key) (text : String) : Expr :=
  .node pos { text := "=", type := intType } (named (pos - 1) k) (integer (pos + 1) text)

-- of the divisor `d` nothing is known before `d != 0 ? (x = 1) : (d = 5)`
def beforeArms : Store := (Store.empty.bind (.id 2) .zero).bind (.id 3) .pos

/-- A key is gained, one is lost and one is kept. -/
theorem merges_are_joins_guarded :
    beforeArms.isReachable = true ∧
    ∃ y n, ArmsEnd divisorTest (setTo 5 (.id 2) "1") (setTo 22 divisor "5") beforeArms y n ∧
      y.entries = [(divisor, .nonzero), (.id 2, .pos), (.id 3, .pos)] ∧
      n.entries = [(divisor, .pos), (.id 2, .zero), (.id 3, .pos)] ∧
      ((guardedBy (setTo 5 (.id 2) "1") (setTo 22 divisor "5")).eval beforeArms).store = y.join n ∧
      (y.join n).entries = [(divisor, .nonzero), (.id 3, .pos)] := by
  have hends : ArmsEnd divisorTest (setTo 5 (.id 2) "1") (setTo 22 divisor "5") beforeArms _ _ :=
    ⟨_, _, _, _, _, rfl, ⟨rfl, rfl⟩, ⟨rfl, rfl⟩, rfl, rfl⟩
  refine ⟨rfl, _, _, hends, by decide, by decide, ?_, by decide⟩
  exact ((merges_are_joins.2 3 20 _ _ divisorTest _ _ beforeArms rfl rfl rfl).1 _ _ hends).1

end Expr

end SignFlow

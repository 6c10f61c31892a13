import SignFlow.Proofs.Monotonicity

/-! The two outcomes of a condition.

Assuming a condition true and assuming it false divide a store: neither tells anything that is not so, and
together they allow all that was possible before. The argument is about comparisons, since logical operators
only pass it on. A comparison binds the names of variables, and what it compares there is what the store says
of them. -/

namespace SignFlow

namespace Expr

/-- What stands for a variable is a leaf. It is no number and no character, it does not read as a call, an
assignment or a step, and no value of it is known for certain. -/
def NamesPlainly (t : Token) (l r : Expr) : Prop :=
  t.variableKey.isSome = true → (l.isAbsent = true ∧ r.isAbsent = true) ∧
    (t.isNumber = false ∧ t.isChar = false ∧ t.text ∉ "(" :: assignments ++ steps) ∧ t.Unknown

instance (t : Token) (l r : Expr) : Decidable (NamesPlainly t l r) :=
  inferInstanceAs (Decidable (_ → _ ∧ _ ∧ ∀ v ∈ t.values, v.known = false))

theorem lookup_of_fact {e : Expr} (he : e.Each fun _ => NamesPlainly) {s : Store}
    (hs : s.isReachable = true) {a : Sign} (ha : e.fact s = .ok (some a)) :
    ∀ k ∈ e.key?, s.lookup k = a := by
  intro k hk
  cases e with
  | absent => cases hk
  | node pos t l r =>
    have hsome : t.variableKey.isSome = true := by rw [show t.variableKey = some k from hk]; rfl
    obtain ⟨hleaf, hplain, hu⟩ := he.1 hsome
    obtain rfl := eq_absent hleaf.1
    obtain rfl := eq_absent hleaf.2
    exact (fact_name hk hplain hu hs ha).symm

end Expr

namespace Eval

theorem join_pairing : Pairing fun s yes no => yes.join no = s where
  same s := s.join_self
  swap h := (Store.join_comm _ _).trans h
  both {s first other yes second} h h' :=
    calc yes.join (other.join second)
      _ = (yes.join second).join other := by rw [other.join_comm second, Store.join_assoc]
      _ = first.join other := by rw [h']
      _ = s := h

end Eval

namespace Expr

theorem compare_join {l r : Expr} (hl : l.Each fun _ => NamesPlainly) (hr : r.Each fun _ => NamesPlainly)
    {s : Store} (hs : s.isReachable = true) {c : Comparison} {yes no : Store}
    (hyes : Eval.compare c l r l.eval r.eval s = .ok yes)
    (hno : Eval.compare c.negate l r l.eval r.eval s = .ok no) : yes.join no = s := by
  rcases Eval.compare_both hyes hno with ⟨rfl, rfl⟩ | ⟨a, b, ha, hb, rfl, rfl⟩
  · exact Store.join_self _
  · apply Store.refine_join hs
    · exact (Eval.factOf_possible l.meaning_live.value hs ha).sign
    · exact (Eval.factOf_possible r.meaning_live.value hs hb).sign
    · exact lookup_of_fact hl hs ha
    · exact lookup_of_fact hr hs hb

theorem compareWith_join {e : Expr} (he : e.Each fun _ => NamesPlainly) {s : Store}
    (hs : s.isReachable = true) {yes no : Store} (hyes : e.compareWith .ne .zero s = .ok yes)
    (hno : e.compareWith .eq .zero s = .ok no) : yes.join no = s := by
  rcases Eval.compareWith_both (c := .ne) hyes hno with ⟨rfl, rfl⟩ | ⟨a, ha, rfl, rfl⟩
  · exact Store.join_self _
  · apply Store.refine_join hs
    · exact (Eval.factOf_possible e.meaning_live.value hs ha).sign
    · decide
    · exact lookup_of_fact he hs ha
    · exact fun k hk => absurd hk (Option.not_mem_none k)

theorem assume_join {e : Expr} (he : e.Each fun _ => NamesPlainly) {s yes no : Store} {truth : Bool}
    (hyes : e.assume truth s = .ok yes) (hno : e.assume (!truth) s = .ok no) : yes.join no = s := by
  induction e generalizing s yes no truth with
  | absent =>
    cases hyes
    cases hno
    exact Store.join_self s
  | node pos t l r ihl ihr =>
    apply Eval.assumeNode_pair Eval.join_pairing _ _ _ _ hyes hno
    · exact fun hs _ _ _ hyes hno => compare_join he.2.1 he.2.2 hs hyes hno
    · exact fun hs _ _ hyes hno => compareWith_join he hs hyes hno
    · exact fun hyes hno => ihl he.2.1 hyes hno
    · exact fun hyes hno => ihr he.2.2 hyes hno

/-- Where a condition can be read, it has both outcomes. They lose nothing, as together they are the store
again, and they invent nothing, as each of them is below it. One of them can be reached. -/
theorem outcomes_make_up_store (e : Expr) (he : e.Each fun _ => NamesPlainly) {s : Store}
    (hs : s.isReachable = true) :
    (∃ f, e.Faulty f ∧ (e.assume true s = .error f ∨ e.assume false s = .error f)) ∨
    ∃ yes no, e.assume true s = .ok yes ∧ e.assume false s = .ok no ∧ yes.join no = s ∧
      (yes ≤ s ∧ no ≤ s) ∧ (yes.isReachable = true ∨ no.isReachable = true) := by
  have hfails := e.meaning_failsOnly fun f hf => hf
  cases hyes : e.assume true s with
  | error f => exact .inl ⟨f, hfails.assume true s hyes, .inl rfl⟩
  | ok yes =>
    cases hno : e.assume false s with
    | error f => exact .inl ⟨f, hfails.assume false s hno, .inr rfl⟩
    | ok no =>
      have hjoin : yes.join no = s := assume_join he hyes hno
      have hlive : yes.isReachable = true ∨ no.isReachable = true := by
        rw [← hjoin, Store.isReachable_join, Bool.or_eq_true] at hs
        exact hs
      refine .inr ⟨yes, no, rfl, rfl, hjoin, ⟨?_, ?_⟩, hlive⟩
      · exact hjoin ▸ Store.le_join_left yes no
      · exact hjoin ▸ Store.le_join_right yes no

def guarded : Expr :=
  -- the tree of `!(u < x) && (x || (y = 0))`, where `u` is unsigned
  .node 6 { text := "&&", type := some { base := .bool } }
    (.node 0 { text := "!", type := some { base := .bool } }
      (.node 3 { text := "<", type := some { base := .bool } }
        (.node 2 { text := "u", variableKey := some (.id 1), type := some { base := .int, unsigned := true } }
          .absent .absent)
        (.node 4 { text := "x", variableKey := some (.id 2), type := some { base := .int } } .absent .absent))
      .absent)
    (.node 9 { text := "||", type := some { base := .bool } }
      (.node 8 { text := "x", variableKey := some (.id 2), type := some { base := .int } } .absent .absent)
      (.node 12 { text := "=", type := some { base := .int } }
        (.node 11 { text := "y", variableKey := some (.id 3), type := some { base := .int } } .absent .absent)
        (.node 13 { text := "0", isNumber := true, type := some { base := .int } } .absent .absent)))

/-- With `x` positive, the unsigned side is compared too, and the two outcomes differ in it. -/
theorem outcomes_make_up_store_guarded :
    ((guarded.Each fun _ => NamesPlainly) ∧ (Store.empty.bind (.id 2) .pos).isReachable = true) ∧
    ∃ yes no, guarded.assume true (Store.empty.bind (.id 2) .pos) = .ok yes ∧
      guarded.assume false (Store.empty.bind (.id 2) .pos) = .ok no ∧
      yes.join no = Store.empty.bind (.id 2) .pos ∧ yes.entries = [(.id 1, .pos), (.id 2, .pos)] := by
  have he : guarded.Each fun _ => NamesPlainly := by decide
  have hyes : guarded.assume true (Store.empty.bind (.id 2) .pos) =
      .ok ((Store.empty.bind (.id 1) .pos).bind (.id 2) .pos) := by rfl
  have hno : guarded.assume false (Store.empty.bind (.id 2) .pos) =
      .ok (Store.empty.bind (.id 2) .pos) := by rfl
  refine ⟨⟨he, rfl⟩, ?_⟩
  rcases outcomes_make_up_store guarded he (s := Store.empty.bind (.id 2) .pos) rfl with
    ⟨f, -, hf | hf⟩ | ⟨yes, no, hy, hn, hjoin, -⟩
  · cases hyes.symm.trans hf
  · cases hno.symm.trans hf
  · refine ⟨yes, no, hy, hn, hjoin, ?_⟩
    cases hyes.symm.trans hy
    rfl

end Expr

end SignFlow

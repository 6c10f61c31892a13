import SignFlow.Analysis.Function

/-! Where faults come from.

Evaluating an expression fails only where one of its tokens cannot be read: its text as a literal, or
its known values. So do blocks, edges and whole analyses. -/

namespace SignFlow

/-- Every fault of the result has the property. -/
def Fault.Only {α : Type} (P : Fault → Prop) (x : Except Fault α) : Prop := ∀ ⦃f⦄, x = .error f → P f

namespace Fault.Only

variable {α β : Type} {P : Fault → Prop}

theorem ok (a : α) : Fault.Only P (.ok a) := fun _ h => nomatch h

theorem bind {x : Except Fault α} {f : α → Except Fault β} (hx : Fault.Only P x)
    (hf : ∀ a, Fault.Only P (f a)) : Fault.Only P (x >>= f) := by
  intro e h
  cases x with
  | ok a => exact hf a h
  | error e' =>
    cases h
    exact hx rfl

theorem map {x : Except Fault α} (hx : Fault.Only P x) (f : α → β) : Fault.Only P (x.map f) := by
  intro e h
  cases x with
  | ok a => cases h
  | error e' =>
    cases h
    exact hx rfl

theorem foldlM {f : β → α → Except Fault β} {l : List α} (hf : ∀ a ∈ l, ∀ b, Fault.Only P (f b a))
    (b : β) : Fault.Only P (l.foldlM f b) := by
  induction l generalizing b with
  | nil => exact ok b
  | cons a l ih =>
    rw [List.foldlM_cons]
    exact bind (hf a (by simp) b) fun b' => ih (fun x hx => hf x (by simp [hx])) b'

end Fault.Only

namespace Walk

variable {α β : Type} {P : Fault → Prop}

theorem bind_of_ok {x : Walk α} {f : α → Walk β} {s : Store} {a : α} (h : (x s).value = .ok a) :
    (x >>= f) s =
      { f a (x s).store with sites := (x s).sites ++ (f a (x s).store).sites } := by
  show Walk.bind x f s = _
  simp only [Walk.bind, h]

theorem bind_of_error {x : Walk α} {f : α → Walk β} {s : Store} {e : Fault}
    (h : (x s).value = .error e) :
    (x >>= f) s = { value := .error e, store := (x s).store, sites := (x s).sites } := by
  show Walk.bind x f s = _
  simp only [Walk.bind, h]

theorem bind_pure (x : Walk α) : (x >>= fun a => pure a) = x := by
  funext s
  cases hv : (x s).value with
  | ok a =>
    rw [bind_of_ok hv]
    show (⟨.ok a, (x s).store, (x s).sites ++ []⟩ : Outcome α) = x s
    rw [List.append_nil, ← hv]
  | error e => rw [bind_of_error hv, ← hv]

/-- Every fault of the step has the property. -/
def FailsOnly (P : Fault → Prop) (x : Walk α) : Prop := ∀ s, Fault.Only P (x s).value

namespace FailsOnly

theorem pure (a : α) : FailsOnly P (Pure.pure a : Walk α) := fun _ => .ok _

theorem store : FailsOnly P Walk.store := fun _ => .ok _

theorem change (g : Store → Store) : FailsOnly P (Walk.change g) := fun _ => .ok _

theorem note (site : Site) : FailsOnly P (Walk.note site) := fun _ => .ok _

theorem lift {x : Except Fault α} (h : Fault.Only P x) : FailsOnly P (Walk.lift x) := fun _ => h

theorem bind {x : Walk α} {f : α → Walk β} (hx : FailsOnly P x) (hf : ∀ a, FailsOnly P (f a)) :
    FailsOnly P (x >>= f) := by
  intro s e h
  cases hv : (x s).value with
  | ok a =>
    rw [bind_of_ok hv] at h
    exact hf a _ h
  | error e' =>
    rw [bind_of_error hv] at h
    cases h
    exact hx s hv

theorem aside {x : Walk α} (hx : FailsOnly P x) (other : Store) : FailsOnly P (Walk.aside other x) :=
  fun _ => (hx other).map _

theorem ite {c : Prop} [Decidable c] {x y : Walk α} (hx : FailsOnly P x) (hy : FailsOnly P y) :
    FailsOnly P (if c then x else y) := by
  split
  · exact hx
  · exact hy

theorem assignTo (target : Expr) (value : Fact) : FailsOnly P (Walk.assignTo target value) := by
  unfold Walk.assignTo
  split
  · exact pure ()
  · split
    · exact ite (change _) (change _)
    · exact change _

theorem forgetTarget (target : Expr) : FailsOnly P (Walk.forgetTarget target) := by
  unfold Walk.forgetTarget
  split
  · exact pure ()
  · exact change _

end FailsOnly

end Walk

namespace Eval

open Walk

variable {P : Fault → Prop}

/-- The token is read as a literal. -/
def isLiteral (t : Token) : Bool := t.isNumeric && (t.isNumber || t.isChar)

theorem leaf_failsOnly {t : Token} (h : isLiteral t = true → Fault.Only P (Literal.sign t.text)) :
    FailsOnly P (leaf t) := by
  unfold leaf
  split
  · exact .pure _
  · rename_i hn
    refine .bind .store fun s => .ite (.pure _) ?_
    split
    · rename_i hl
      exact .bind (.lift (h (by simpa [isLiteral, hl] using hn))) fun _ => .pure _
    · split
      · exact .bind .store fun _ => .pure _
      · exact .pure _

theorem assign_failsOnly {l r : Expr} {left right : Walk Fact} (hl : FailsOnly P left)
    (hr : FailsOnly P right) : FailsOnly P (assign l r left right) := by
  unfold assign
  refine .bind hr fun v => ?_
  dsimp only
  refine .ite (.bind hl fun _ => ?_) ?_
  all_goals exact .bind (.assignTo _ _) fun _ => .pure _

theorem arithmetic_failsOnly {pos : Nat} {t : Token} {op : Operator} {l r : Expr}
    {left right : Walk Fact} (hl : FailsOnly P left) (hr : FailsOnly P right) :
    FailsOnly P (arithmetic pos t op l r left right) := by
  unfold arithmetic
  refine .bind hl fun a => .bind hr fun b => ?_
  dsimp only
  split
  · exact .ite (.bind (.note _) fun _ => .pure _) (.pure _)
  · exact .pure _

theorem compound_failsOnly {pos : Nat} {t : Token} {op : Operator} {l r : Expr}
    {left right : Walk Fact} (hl : FailsOnly P left) (hr : FailsOnly P right) :
    FailsOnly P (compound pos t op l r left right) := by
  unfold compound
  refine .bind hr fun b => .bind hl fun a => ?_
  dsimp only
  split
  · refine .ite (.bind (.note _) fun _ => ?_) ?_
    all_goals exact .bind (.assignTo _ _) fun _ => .pure _
  · exact .bind (.assignTo _ _) fun _ => .pure _

theorem comparison_failsOnly {left right : Walk Fact} (hl : FailsOnly P left)
    (hr : FailsOnly P right) : FailsOnly P (comparison left right) := by
  unfold comparison
  exact .bind hl fun _ => .bind hr fun _ => .pure _

theorem step_failsOnly {op : Operator} {operand : Expr} {value : Walk Fact}
    (h : FailsOnly P value) : FailsOnly P (step op operand value) := by
  unfold step
  refine .bind h fun v => ?_
  split
  · exact .ite (.bind (.assignTo _ _) fun _ => .pure _) (.bind (.assignTo _ _) fun _ => .pure _)
  · exact .bind (.assignTo _ _) fun _ => .pure _

theorem unary_failsOnly {t : Token} {operand : Expr} {value : Walk Fact} (h : FailsOnly P value) :
    FailsOnly P (unary t operand value) := by
  unfold unary
  refine .bind h fun v => ?_
  split
  · exact .pure _
  · exact .pure _
  · exact .bind (.forgetTarget _) fun _ => .pure _
  · exact .pure _
  · exact .pure _

theorem other_failsOnly {t : Token} {l : Expr} {left right : Walk Fact} (hl : FailsOnly P left)
    (hr : FailsOnly P right) : FailsOnly P (other t l left right) := by
  have last : FailsOnly P (do
      if Expr.assignments.contains t.text then assignTo l (some .top)
      pure t.unknown : Walk Fact) :=
    .ite (.bind (.assignTo _ _) fun _ => .pure _) (.pure _)
  unfold other
  refine .ite (.bind hl fun _ => ?_) ?_
  all_goals exact .bind hr fun _ => last

end Eval

/-- Every fault an expression's meaning can have has the property. -/
structure Meaning.FailsOnly (P : Fault → Prop) (m : Meaning) : Prop where
  value : m.value.FailsOnly P
  left : m.left.FailsOnly P
  right : m.right.FailsOnly P
  assume : ∀ truth s, Fault.Only P (m.assume truth s)

namespace Eval

open Walk

variable {P : Fault → Prop}

theorem shortCircuit_failsOnly {goesOn : Bool} {left right : Meaning} (hl : left.FailsOnly P)
    (hr : right.FailsOnly P) : FailsOnly P (shortCircuit goesOn left right) := by
  unfold shortCircuit
  refine .bind hl.value fun _ => .bind .store fun s => .bind (.lift (hl.assume _ _)) fun taken => ?_
  refine .bind (.aside hr.value taken) fun branch => .bind (.change _) fun _ => ?_
  exact .bind .store fun _ => .pure _

theorem conditional_failsOnly {t : Token} {hasArms : Bool} {cond arms : Meaning}
    (hc : cond.FailsOnly P) (ha : arms.FailsOnly P) :
    FailsOnly P (conditional t hasArms cond arms) := by
  unfold conditional
  refine .bind hc.value fun _ => .ite (.bind ha.value fun _ => .pure _) ?_
  refine .bind .store fun s => .bind (.lift (hc.assume true s)) fun yesStore => ?_
  refine .bind (.aside ha.left yesStore) fun yes => .bind .store fun s => ?_
  refine .bind (.lift (hc.assume false s)) fun noStore => .bind (.aside ha.right noStore) fun no => ?_
  refine .bind (.change _) fun _ => ?_
  split
  · exact .pure _
  · exact .pure _

theorem visit_failsOnly {pos : Nat} {t : Token} {l r : Expr} {ml mr : Meaning}
    (ht : (l.isAbsent && r.isAbsent && isLiteral t) = true → Fault.Only P (Literal.sign t.text))
    (hl : ml.FailsOnly P) (hr : mr.FailsOnly P) : FailsOnly P (visit pos t l r ml mr) := by
  unfold visit
  split
  · rename_i habsent
    exact leaf_failsOnly fun h => ht (by rw [habsent, h]; rfl)
  refine .ite (assign_failsOnly hl.value hr.value) ?_
  split
  · exact arithmetic_failsOnly hl.value hr.value
  · exact compound_failsOnly hl.value hr.value
  · exact comparison_failsOnly hl.value hr.value
  · refine .ite (.ite (step_failsOnly hr.value) (step_failsOnly hl.value)) ?_
    refine .ite (shortCircuit_failsOnly hl hr) (.ite (conditional_failsOnly hl hr) ?_)
    refine .ite (.bind hl.value fun _ => .pure _) (.ite (.bind hl.value fun _ => .pure _) ?_)
    refine .ite (unary_failsOnly hl.value) (.ite ?_ (other_failsOnly hl.value hr.value))
    exact .bind hl.value fun _ => hr.value

theorem withKnown_failsOnly {t : Token} {visited : Walk Fact} (ht : Fault.Only P t.known?)
    (h : FailsOnly P visited) : FailsOnly P (withKnown t visited) := by
  unfold withKnown
  refine .bind h fun computed => .bind (.lift ht) fun known => ?_
  split
  · exact .bind .store fun _ => .ite (.pure _) (.pure _)
  · exact .pure _

theorem factOf_only {e : Expr} {value : Walk Fact} (h : FailsOnly P value) (s : Store) :
    Fault.Only P (factOf e value s) := by
  unfold factOf
  split
  · exact .ok _
  · exact h s

theorem compareWith_only {c : Comparison} {e : Expr} {value : Walk Fact} {sign : Sign}
    (h : FailsOnly P value) (s : Store) : Fault.Only P (compareWith c e value sign s) := by
  unfold compareWith
  refine .bind (factOf_only h s) fun f => ?_
  split
  · exact .ok _
  · exact .ok _

theorem compare_only {c : Comparison} {l r : Expr} {left right : Walk Fact} (hl : FailsOnly P left)
    (hr : FailsOnly P right) (s : Store) : Fault.Only P (compare c l r left right s) := by
  unfold compare
  refine .bind (factOf_only hl s) fun f => .bind (factOf_only hr s) fun g => ?_
  split
  · split
    · exact .ok _
    · exact .ok _
  · exact .ok _

theorem assumeNode_only {e : Expr} {t : Token} {l r : Expr} {value : Walk Fact} {ml mr : Meaning}
    (hv : FailsOnly P value) (hl : ml.FailsOnly P) (hr : mr.FailsOnly P) (truth : Bool) (s : Store) :
    Fault.Only P (assumeNode e t l r value ml mr truth s) := by
  unfold assumeNode
  split
  · exact .ok _
  split
  · exact hl.assume _ _
  split
  · refine .bind (hl.assume _ _) fun first => ?_
    split
    · exact hr.assume _ _
    · exact .bind (hl.assume _ _) fun _ => .bind (hr.assume _ _) fun _ => .ok _
  split
  · exact compare_only hl.value hr.value s
  · split
    · exact compareWith_only hv s
    · exact .ok _

end Eval

namespace Expr

/-- One of the expression's literals or known values cannot be read, and this is why. -/
def Faulty : Expr → Fault → Prop
  | absent, _ => False
  | node _ t l r, f =>
    (l.isAbsent && r.isAbsent && Eval.isLiteral t) = true ∧ Literal.sign t.text = .error f ∨
      t.known? = .error f ∨ l.Faulty f ∨ r.Faulty f

theorem meaning_failsOnly (e : Expr) {P : Fault → Prop} (h : ∀ f, e.Faulty f → P f) :
    e.meaning.FailsOnly P := by
  induction e with
  | absent => exact ⟨.pure _, .pure _, .pure _, fun _ s => .ok s⟩
  | node pos t l r ihl ihr =>
    have hl := ihl fun f hf => h f (.inr (.inr (.inl hf)))
    have hr := ihr fun f hf => h f (.inr (.inr (.inr hf)))
    have hv : (node pos t l r).meaning.value.FailsOnly P :=
      Eval.withKnown_failsOnly (fun f hf => h f (.inr (.inl hf)))
        (Eval.visit_failsOnly (fun hlit f hf => h f (.inl ⟨hlit, hf⟩)) hl hr)
    exact ⟨hv, hl.value, hr.value, Eval.assumeNode_only hv hl hr⟩

end Expr

namespace Problem

variable {α : Type} {P : Fault → Prop} {p : Problem (Except Fault) α}

theorem incoming_only (ha : ∀ e ∈ p.graph.edges, ∀ a, Fault.Only P (p.along e a)) (outputs : List α)
    (n : Nat) : Fault.Only P (p.incoming outputs n) := by
  refine .foldlM (fun e he acc => ?_) _
  dsimp only
  split
  · exact .ok _
  · exact .bind (ha e (List.mem_filter.mp he).1 _) fun _ => .ok _

theorem nextVisit_only (ha : ∀ e ∈ p.graph.edges, ∀ a, Fault.Only P (p.along e a)) (s : Progress α)
    (w : List Nat) : Fault.Only P (p.nextVisit s w) := by
  induction w with
  | nil => exact .ok _
  | cons n rest ih =>
    refine .bind (incoming_only ha _ _) fun merged => ?_
    split
    · exact ih
    · exact .ok _

theorem run_only (ht : ∀ n a, Fault.Only P (p.transfer n a))
    (ha : ∀ e ∈ p.graph.edges, ∀ a, Fault.Only P (p.along e a)) (strategy : Strategy) (limit : Nat)
    (s : Progress α) : Fault.Only P (p.run strategy limit s) := by
  induction limit generalizing s with
  | zero => exact .ok _
  | succ limit ih =>
    refine .bind (nextVisit_only ha _ _) fun next => ?_
    split
    · exact .ok _
    · exact .bind (ht _ _) fun out => ih _

/-- Solving fails only where a transfer does. -/
theorem solve_only (ht : ∀ n a, Fault.Only P (p.transfer n a))
    (ha : ∀ e ∈ p.graph.edges, ∀ a, Fault.Only P (p.along e a)) (strategy : Strategy) (limit : Int) :
    Fault.Only P (p.solve strategy limit) :=
  .bind (run_only ht ha _ _ _) fun _ => .ok _

end Problem

namespace Code

variable {c : Code} {g : Graph} {P : Fault → Prop}

/-- A token in one of the graph's blocks or a case label cannot be read, and this is why. -/
def Faulty (c : Code) (g : Graph) (f : Fault) : Prop :=
  (∃ b ∈ g.blocks, ∃ i ∈ c.roots b.tokens, (c.tree (some i)).Faulty f) ∨
    ∃ e ∈ g.edges, e.kind = .switchCase ∧ Literal.sign (e.label.getD "") = .error f

theorem runBlock_only {tokens : List Nat}
    (h : ∀ i ∈ c.roots tokens, ∀ f, (c.tree (some i)).Faulty f → P f) (s : Store) :
    Fault.Only P (c.runBlock tokens s).value := by
  have run : ∀ roots : List Nat, (∀ i ∈ roots, ∀ f, (c.tree (some i)).Faulty f → P f) →
      Walk.FailsOnly P (roots.forM c.statement) := by
    intro roots
    induction roots with
    | nil => exact fun _ => .pure _
    | cons i rest ih =>
      intro hroots
      rw [List.forM]
      refine .bind ?_ fun _ => ih fun j hj => hroots j (by simp [hj])
      unfold statement
      refine .ite (.pure _) (.ite ?_ (.bind ?_ fun _ => .pure _))
      · split
        · exact .change _
        · exact .pure _
      · exact ((c.tree (some i)).meaning_failsOnly (hroots i (by simp))).value
  unfold runBlock
  split
  · exact run _ h s
  · exact .ok _

theorem conditionRoot_mem {tokens : List Nat} {i : Nat} (h : c.conditionRoot tokens = some i) :
    i ∈ c.roots tokens := by
  unfold conditionRoot Option.orElse at h
  dsimp only at h
  split at h
  · rename_i hf
    cases h
    exact (List.mem_filter.mp (List.mem_of_find?_eq_some hf)).1
  · exact (List.mem_filter.mp (List.mem_of_find?_eq_some h)).1

/-- A block with a root is one of the graph's blocks. -/
theorem block_mem_of_root {n i : Nat} (hi : i ∈ c.roots (g.block n).tokens) : g.block n ∈ g.blocks := by
  by_cases hn : n < g.blocks.length
  · have hb : g.block n = g.blocks[n] := by simp [Graph.block, hn]
    exact hb ▸ List.getElem_mem hn
  · have hb : (g.block n).tokens = [] := by simp [Graph.block, List.getElem?_eq_none (Nat.not_lt.mp hn)]
    rw [hb] at hi
    simp [roots] at hi

theorem faulty_of_root {n i : Nat} (hi : i ∈ c.roots (g.block n).tokens) {f : Fault}
    (hf : (c.tree (some i)).Faulty f) : c.Faulty g f :=
  .inl ⟨g.block n, block_mem_of_root hi, i, hi, hf⟩

theorem transfer_ok {b : Block} {s s' : Store} (h : c.transfer b s = .ok s') :
    ∃ u, (c.runBlock b.tokens s).value = .ok u ∧ (c.runBlock b.tokens s).store = s' := by
  have h : (c.runBlock b.tokens s).value.map (fun _ => (c.runBlock b.tokens s).store) = .ok s' := h
  cases hv : (c.runBlock b.tokens s).value with
  | error e => rw [hv] at h; cases h
  | ok u => rw [hv] at h; cases h; exact ⟨u, rfl, rfl⟩

theorem along_only {e : Edge} (he : e ∈ g.edges) (s : Store) :
    Fault.Only (c.Faulty g) (c.along g e s) := by
  have label : ∀ e ∈ g.edges, e.kind = .switchCase →
      Fault.Only (c.Faulty g) (Literal.sign (e.label.getD "")) :=
    fun e he hk f hf => .inr ⟨e, he, hk, hf⟩
  unfold along
  split
  · exact .ok _
  split
  · exact .ok _
  · rename_i root hroot
    have hm := (c.tree (some root)).meaning_failsOnly fun f hf =>
      faulty_of_root (conditionRoot_mem hroot) hf
    dsimp only
    split
    · exact hm.assume true s
    · exact hm.assume false s
    · rename_i hk
      refine .bind (label e he hk) fun value => ?_
      split
      · exact Eval.compareWith_only hm.value s
      · exact .ok _
    · refine .foldlM (fun e' he' s => ?_) s
      obtain ⟨hmem, hk⟩ := List.mem_filter.mp he'
      refine .bind (label e' (List.mem_filter.mp hmem).1 (by simpa using hk)) fun value => ?_
      split
      · exact Eval.compareWith_only hm.value s
      · exact .ok _
    · exact .ok _

end Code

/-- An analysis fails only where the code cannot be read. -/
theorem Analysis.ofGraph_only (c : Code) (g : Graph) (strategy : Strategy) (limit : Int) :
    Fault.Only (c.Faulty g) (ofGraph c strategy limit g) := by
  refine .bind (Problem.solve_only (fun n s => ?_) (fun e he s => Code.along_only he s) _ _) fun _ => .ok _
  exact (Code.runBlock_only (fun i hi f hf => Code.faulty_of_root hi hf) s).map _

end SignFlow

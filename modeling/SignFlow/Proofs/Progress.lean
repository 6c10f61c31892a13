import SignFlow.Proofs.Evaluation
import SignFlow.Proofs.Monotonicity
import SignFlow.Proofs.Reach

/-! Control does not get stuck.

In code that can be read, a block that control arrives at is left again. The store after its statements can be
reached. Of the two branches of a condition one can be taken, and so can one of the ways out of a switch with a
default. There each case that reads as zero is excluded in turn, and the selector is read again each time: it
has to say what was learned of it before. -/

namespace SignFlow

theorem Fault.Only.returns {α : Type} {P : Fault → Prop} {x : Except Fault α} (h : Fault.Only P x)
    (hP : ∀ f, ¬P f) : ∃ a, x = .ok a := by
  cases x with
  | ok a => exact ⟨a, rfl⟩
  | error f => exact absurd (h rfl) (hP f)

namespace Sign

variable {a : Sign}

theorem refine_eq_zero : a.Covers 0 →
    Comparison.eq.refine a .zero ≠ .bottom ∧ Comparison.eq.flip.refine .zero a ≠ .bottom := by
  cases a <;> decide

theorem refine_ne_zero : a ≠ .bottom → ¬a.Covers 0 →
    Comparison.ne.refine a .zero = a ∧ Comparison.ne.flip.refine .zero a = .zero := by
  cases a <;> decide

end Sign

namespace Eval

open Walk

variable {t : Token} {s s' : Store} {a : Sign}

theorem leaf_value (hs : s.isReachable = true) :
    (leaf t s).value =
      if t.isNumeric then
        if t.isNumber || t.isChar then (Literal.sign t.text).map some
        else .ok (some (t.variableKey.elim .top s.lookup))
      else .ok none := by
  unfold leaf
  cases t.isNumeric with
  | false => rfl
  | true =>
    simp only [Bool.not_true, Bool.false_eq_true, if_false, if_true]
    rw [bind_of_ok (x := Walk.store) rfl]
    show Outcome.value ((if (!s.isReachable) = true then _ else _ : Walk Fact) s) = _
    rw [hs]
    cases t.isNumber || t.isChar with
    | true =>
      simp only [Bool.not_true, Bool.false_eq_true, if_false, if_true]
      cases Literal.sign t.text with
      | ok v => rw [bind_of_ok (x := Walk.lift _) rfl]; rfl
      | error e => rw [bind_of_error (x := Walk.lift _) rfl]; rfl
    | false => cases t.variableKey <;> rfl

theorem leaf_again (hs : s.isReachable = true) (ha : (leaf t s).value = .ok (some a))
    (hs' : s'.isReachable = true) (hk : ∀ k ∈ t.variableKey, s'.lookup k = a) :
    (leaf t s').value = .ok (some a) := by
  rw [leaf_value hs] at ha
  rw [leaf_value hs']
  split at ha
  · rw [if_pos ‹_›]
    split at ha
    · rw [if_pos ‹_›]
      exact ha
    · rw [if_neg ‹_›]
      cases hvar : t.variableKey with
      | none => rwa [hvar] at ha
      | some k => rw [← hk k hvar]; rfl
  · cases ha

theorem withKnown_leaf {n : Number} (hn : t.known? = .ok (some n)) (hs : s.isReachable = true) :
    (withKnown t (leaf t)).Ends s fun f _ _ => f = if t.isNumeric then some (.ofNumber n) else none := by
  refine .bind ((leaf_ends s).mono fun f s₁ _ ⟨hf, hs₁⟩ => .bind (.lift fun known hknown => ?_))
  subst hs₁
  cases hn.symm.trans hknown
  refine .bind (.store (.ite (fun h => ?_) fun h => ?_))
  · rw [Bool.and_eq_true] at h
    exact .pure (if_pos h.1).symm
  · rw [hs, Bool.and_true] at h
    rw [if_neg h]
    exact .pure (Option.not_isSome_iff_eq_none.mp (hf ▸ h))

end Eval

namespace Expr

def isLeaf : Expr → Bool
  | absent => false
  | node _ _ l r => l.isAbsent && r.isAbsent

/-- The token can be read: a literal has a sign, and the values known for certain are numbers. -/
def Legible (t : Token) (l r : Expr) : Prop :=
  ((l.isAbsent && r.isAbsent && Eval.isLiteral t) = true → (Literal.sign t.text).isOk = true) ∧
    t.known?.isOk = true

instance (t : Token) (l r : Expr) : Decidable (Legible t l r) :=
  inferInstanceAs (Decidable ((_ → _) ∧ _))

theorem not_faulty {e : Expr} (he : e.Each fun _ => Legible) (f : Fault) : ¬e.Faulty f := by
  induction e with
  | absent => exact id
  | node pos t l r ihl ihr =>
    rintro (⟨hliteral, hf⟩ | hf | hf | hf)
    · cases hf ▸ he.1.1 hliteral
    · cases hf ▸ he.1.2
    · exact ihl he.2.1 hf
    · exact ihr he.2.2 hf

theorem eval_returns {e : Expr} (he : e.Each fun _ => Legible) (s : Store) :
    ∃ f, (e.eval s).value = .ok f :=
  ((e.meaning_failsOnly fun _ hf => hf).value s).returns (not_faulty he)

theorem eval_leaf_again {pos : Nat} {t : Token} {l r : Expr} (hleaf : (l.isAbsent && r.isAbsent) = true)
    (he : (node pos t l r).Each fun _ => Legible) {s s' : Store} {a : Sign} (hs : s.isReachable = true)
    (ha : ((node pos t l r).eval s).value = .ok (some a)) (hs' : s'.isReachable = true)
    (hk : ∀ k ∈ t.variableKey, s'.lookup k = a) : ((node pos t l r).eval s').value = .ok (some a) := by
  have heval : (node pos t l r).eval = Eval.withKnown t (Eval.leaf t) :=
    congrArg (Eval.withKnown t) (if_pos hleaf)
  obtain ⟨f, hf⟩ := eval_returns he s'
  rw [heval] at ha hf ⊢
  cases hknown : t.known? with
  | error e => cases hknown ▸ he.1.2
  | ok known =>
    cases known with
    | none =>
      rw [Eval.withKnown_none hknown] at ha ⊢
      exact Eval.leaf_again hs ha hs' hk
    | some n => rw [hf, Eval.withKnown_leaf hknown hs ha, Eval.withKnown_leaf hknown hs' hf]

/-- What is learned of the expression it says again: it binds no variable, or it may have any value for the
sake of its effects, or it is a leaf and says what its variable has. -/
def Steady (e : Expr) : Prop :=
  e.key? = none ∨ e.hasEffects = true ∨ e.isLeaf = true

instance (e : Expr) : Decidable e.Steady := inferInstanceAs (Decidable (_ ∨ _ ∨ _))

theorem Steady.fact_again {e : Expr} (h : e.Steady) (he : e.Each fun _ => Legible) {s : Store}
    (hs : s.isReachable = true) {a : Sign} (ha : a ≠ .bottom) (hfact : e.fact s = .ok (some a)) :
    e.fact (s.bindAt e.key? a) = .ok (some a) := by
  rcases h with hkey | heffects | hleaf
  · rw [hkey]
    exact hfact
  · rw [fact, Eval.factOf, if_pos heffects] at hfact ⊢
    exact hfact
  · cases e with
    | absent => cases hleaf
    | node pos t l r =>
      unfold fact Eval.factOf at hfact ⊢
      split at hfact
      · rwa [if_pos ‹_›]
      · rw [if_neg ‹_›]
        refine eval_leaf_again hleaf he hs hfact ((Store.isReachable_bindAt ha).trans hs) fun k hk => ?_
        exact (Store.lookup_bindAt hs ha k).trans (if_pos hk)

/-- The expression has a sign on the store, which is possible and leaves no room for zero. -/
def NonZero (e : Expr) (s : Store) : Prop :=
  ∃ a, e.fact s = .ok (some a) ∧ a ≠ .bottom ∧ ¬a.Covers 0

theorem nonZero_of_dead {e : Expr} {s dead : Store} (hs : s.isReachable = true)
    (heq : e.compareWith .eq .zero s = .ok dead) (hdead : dead.isReachable = false) : e.NonZero s := by
  rcases Eval.compareWith_cases heq with rfl | ⟨a, ha, rfl⟩
  · cases hs.symm.trans hdead
  · have hpossible : a ≠ .bottom := (Eval.factOf_possible e.meaning_live.value hs ha).sign
    refine ⟨a, ha, hpossible, fun hzero => ?_⟩
    obtain ⟨hl, hr⟩ := Sign.refine_eq_zero hzero
    rw [Store.refine_fst hs, Store.isReachable_outcome hl hr] at hdead
    cases hs.symm.trans hdead

/-- Excluding zero once more, control goes on. A steady expression still cannot be zero then. -/
theorem NonZero.compareWith_ne {e : Expr} {s : Store} (h : e.NonZero s) (he : e.Each fun _ => Legible)
    (hs : s.isReachable = true) :
    ∃ t, e.compareWith .ne .zero s = .ok t ∧ t.isReachable = true ∧ (e.Steady → e.NonZero t) := by
  obtain ⟨a, hfact, ha, hzero⟩ := h
  obtain ⟨hl, hr⟩ := Sign.refine_ne_zero ha hzero
  have hne : e.compareWith .ne .zero s = .ok (s.bindAt e.key? a) := by
    rw [compareWith, Eval.compareWith, show Eval.factOf e e.eval s = .ok (some a) from hfact]
    show Except.ok (s.refine .ne e.key? (some a) none (some .zero)).1 = _
    rw [Store.refine_fst hs, hl, hr, Store.outcome, if_neg (not_or.mpr ⟨ha, by decide⟩)]
    rfl
  exact ⟨_, hne, (Store.isReachable_bindAt ha).trans hs,
    fun hsteady => ⟨a, hsteady.fact_again he hs ha hfact, ha, hzero⟩⟩

end Expr

def Edge.readsZero (e : Edge) : Bool := (Literal.sign (e.label.getD "")).toOption == some .zero

theorem Edge.sign_of_readsZero {e : Edge} (h : e.readsZero = true) :
    Literal.sign (e.label.getD "") = .ok .zero := by
  rw [readsZero] at h
  cases hv : Literal.sign (e.label.getD "") with
  | error f => rw [hv] at h; cases h
  | ok v =>
    rw [hv] at h
    exact congrArg _ (Option.some.inj (beq_iff_eq.mp h))

namespace Code

variable {c : Code} {g : Graph} {s t : Store} {e : Expr} {edge : Edge} {rest : List Edge}

theorem otherwise_zero (hzero : edge.readsZero = true) (hne : e.compareWith .ne .zero s = .ok t) :
    otherwise e (edge :: rest) s = otherwise e rest t := by
  rw [otherwise, List.foldlM_cons, edge.sign_of_readsZero hzero]
  show (e.compareWith .ne .zero s >>= _) = _
  rw [hne]
  rfl

theorem otherwise_skip (hzero : edge.readsZero = false)
    (hok : (Literal.sign (edge.label.getD "")).isOk = true) :
    otherwise e (edge :: rest) s = otherwise e rest s := by
  rw [Edge.readsZero] at hzero
  rw [otherwise, List.foldlM_cons]
  cases hv : Literal.sign (edge.label.getD "") with
  | error f => cases hv ▸ hok
  | ok v =>
    have hne : v ≠ .zero := fun h => by
      rw [hv, h] at hzero
      cases hzero
    show ((if v = .zero then _ else _) >>= _) = _
    rw [if_neg hne]
    rfl

/-- Nothing happens where no case is zero. Otherwise control goes on if the selector cannot be zero, provided
that it is steady or that zero is excluded only once. -/
theorem otherwise_live (he : e.Each fun _ => Expr.Legible) {cases : List Edge}
    (hlabels : ∀ edge ∈ cases, (Literal.sign (edge.label.getD "")).isOk = true) (hs : s.isReachable = true)
    (h : cases.countP Edge.readsZero = 0 ∨
      e.NonZero s ∧ (e.Steady ∨ cases.countP Edge.readsZero ≤ 1)) :
    ∃ t, otherwise e cases s = .ok t ∧ t.isReachable = true := by
  induction cases generalizing s with
  | nil => exact ⟨s, rfl, hs⟩
  | cons edge rest ih =>
    obtain ⟨hlabel, hlabels⟩ := List.forall_mem_cons.mp hlabels
    cases hzero : edge.readsZero with
    | true =>
      rw [List.countP_cons_of_pos hzero] at h
      obtain ⟨hnonzero, hmode⟩ := h.resolve_left (Nat.succ_ne_zero _)
      obtain ⟨t, hne, ht, hagain⟩ := hnonzero.compareWith_ne he hs
      rw [otherwise_zero hzero hne]
      refine ih hlabels ht ?_
      -- the other cases are tried on what this one has taught
      rcases hmode with hsteady | hle
      · exact .inr ⟨hagain hsteady, .inl hsteady⟩
      · exact .inl (Nat.le_zero.mp (Nat.le_of_succ_le_succ hle))
    | false =>
      rw [List.countP_cons_of_neg (Bool.eq_false_iff.mp hzero)] at h
      rw [otherwise_skip hzero hlabel]
      exact ih hlabels hs h

/-- All that the blocks of the graph evaluate can be read, and so can the labels of cases. -/
def Legible (c : Code) (g : Graph) : Prop :=
  (∀ b ∈ g.blocks, ∀ i ∈ c.roots b.tokens, (c.tree (some i)).Each fun _ => Expr.Legible) ∧
    ∀ e ∈ g.edges, e.kind = .switchCase → (Literal.sign (e.label.getD "")).isOk = true

instance (c : Code) (g : Graph) : Decidable (c.Legible g) :=
  inferInstanceAs (Decidable ((∀ b ∈ g.blocks, ∀ i ∈ c.roots b.tokens, _) ∧ ∀ e ∈ g.edges, _ → _))

theorem Legible.not_faulty (h : c.Legible g) (f : Fault) : ¬c.Faulty g f := by
  rintro (⟨b, hb, i, hi, hf⟩ | ⟨e, he, hk, hf⟩)
  · exact Expr.not_faulty (h.1 b hb i hi) f hf
  · cases hf ▸ h.2 e he hk

theorem Legible.along_returns (h : c.Legible g) {e : Edge} (he : e ∈ g.edges) (s : Store) :
    ∃ s', c.along g e s = .ok s' :=
  (along_only he s).returns h.not_faulty

theorem statement_live (root : Nat) (hs : s.isReachable = true) :
    (c.statement root).Ends s fun _ s' _ => s'.isReachable = true := by
  refine .ite (fun _ => .pure hs) fun _ => .ite (fun _ => ?_) fun _ => ?_
  · split
    · exact .change (Store.isReachable_forget.trans hs)
    · exact .pure hs
  · exact .bind (((c.tree (some root)).meaning_live.value s hs).mono fun _ _ _ h => .pure h.1)

theorem statements_live (roots : List Nat) (hs : s.isReachable = true) :
    (roots.forM c.statement).Ends s fun _ s' _ => s'.isReachable = true := by
  induction roots generalizing s with
  | nil => exact .pure hs
  | cons root rest ih => exact .bind ((statement_live root hs).mono fun _ _ _ h => ih h)

theorem Legible.transfer_live (h : c.Legible g) {b : Block} (hb : b ∈ g.blocks)
    (hs : s.isReachable = true) : ∃ s', c.transfer b s = .ok s' ∧ s'.isReachable = true := by
  have hfails : Fault.Only (c.Faulty g) (c.transfer b s) :=
    (runBlock_only (fun i hi f hf => .inl ⟨b, hb, i, hi, hf⟩) s).map _
  obtain ⟨s', hs'⟩ := hfails.returns h.not_faulty
  obtain ⟨u, hu, rfl⟩ := transfer_ok hs'
  refine ⟨_, hs', ?_⟩
  rw [runBlock, if_pos hs] at hu ⊢
  exact statements_live _ hs hu

theorem tree_none (c : Code) : c.tree none = .absent := by
  unfold tree
  cases c.size <;> rfl

def condition (c : Code) (g : Graph) (n : Nat) : Expr := c.tree (c.conditionRoot (g.block n).tokens)

theorem Legible.condition (h : c.Legible g) (n : Nat) : (c.condition g n).Each fun _ => Expr.Legible := by
  unfold Code.condition
  cases hroot : c.conditionRoot (g.block n).tokens with
  | none =>
    rw [tree_none]
    trivial
  | some i =>
    have hi : i ∈ c.roots (g.block n).tokens := conditionRoot_mem hroot
    exact h.1 _ (block_mem_of_root hi) i hi

theorem along_branch {e : Edge} (truth : Bool) (hs : s.isReachable = true)
    (hk : e.kind = if truth then .branchTrue else .branchFalse) :
    c.along g e s = (c.condition g e.src).assume truth s := by
  unfold along condition
  rw [hs]
  cases c.conditionRoot (g.block e.src).tokens with
  | none =>
    rw [tree_none]
    rfl
  | some root => cases truth <;> rw [hk] <;> rfl

/-- The edge can be taken: what it carries on from the store can be reached. -/
def CanTake (c : Code) (g : Graph) (s : Store) (e : Edge) : Prop :=
  ∃ s', c.along g e s = .ok s' ∧ s'.isReachable = true

theorem Legible.branch_live (h : c.Legible g) (hs : s.isReachable = true) {yes no : Edge}
    (hyes : yes ∈ g.edges) (hno : no ∈ g.edges) (hsrc : yes.src = no.src) (hky : yes.kind = .branchTrue)
    (hkn : no.kind = .branchFalse) : ∃ e ∈ [yes, no], c.CanTake g s e := by
  obtain ⟨t, ht⟩ := h.along_returns hyes s
  obtain ⟨u, hu⟩ := h.along_returns hno s
  have ht' := (along_branch true hs hky).symm.trans ht
  have hu' := (along_branch false hs hkn).symm.trans hu
  rw [← hsrc] at hu'
  rcases (c.condition g yes.src).meaning_live.assume hs true ht' hu' with hlive | hlive
  · exact ⟨yes, by simp, t, ht, hlive⟩
  · exact ⟨no, by simp, u, hu, hlive⟩

end Code

def Graph.cases (g : Graph) (n : Nat) : List Edge := (g.leaving n).filter fun e => e.kind == .switchCase

theorem Graph.mem_cases {g : Graph} {n : Nat} {e : Edge} :
    e ∈ g.cases n ↔ (e ∈ g.edges ∧ e.src = n) ∧ e.kind = .switchCase := by
  rw [cases, List.mem_filter, mem_leaving, beq_iff_eq]

namespace Code

variable {c : Code} {g : Graph} {s : Store}

theorem along_case {e : Edge} {root : Nat} (hs : s.isReachable = true)
    (hroot : c.conditionRoot (g.block e.src).tokens = some root) (hk : e.kind = .switchCase)
    (hzero : e.readsZero = true) : c.along g e s = (c.condition g e.src).compareWith .eq .zero s := by
  unfold along condition
  rw [hs, hroot, hk, e.sign_of_readsZero hzero]
  rfl

theorem along_default {e : Edge} {root : Nat} (hs : s.isReachable = true)
    (hroot : c.conditionRoot (g.block e.src).tokens = some root) (hk : e.kind = .switchDefault) :
    c.along g e s = otherwise (c.condition g e.src) (g.cases e.src) s := by
  unfold along condition
  rw [hs, hroot, hk]
  rfl

theorem Legible.switch_live (h : c.Legible g) (hs : s.isReachable = true) {other : Edge}
    (hk : other.kind = .switchDefault)
    (hmode : (c.condition g other.src).Steady ∨ (g.cases other.src).countP Edge.readsZero ≤ 1) :
    ∃ e ∈ other :: g.cases other.src, c.CanTake g s e := by
  cases hroot : c.conditionRoot (g.block other.src).tokens with
  | none =>
    have halong : c.along g other s = .ok s := by
      rw [along, hs, hroot]
      rfl
    exact ⟨other, List.mem_cons_self, s, halong, hs⟩
  | some root =>
    have hlabels : ∀ e ∈ g.cases other.src, (Literal.sign (e.label.getD "")).isOk = true := fun e he =>
      h.2 e (Graph.mem_cases.mp he).1.1 (Graph.mem_cases.mp he).2
    have hdefault : (g.cases other.src).countP Edge.readsZero = 0 ∨
          (c.condition g other.src).NonZero s ∧ ((c.condition g other.src).Steady ∨
            (g.cases other.src).countP Edge.readsZero ≤ 1) → c.CanTake g s other := by
      intro hmode
      rw [CanTake, along_default hs hroot hk]
      exact otherwise_live (h.condition other.src) hlabels hs hmode
    by_cases hzero : ∃ e ∈ g.cases other.src, e.readsZero = true
    · obtain ⟨e, he, hreads⟩ := hzero
      obtain ⟨⟨hmem, hsrc⟩, hcase⟩ := Graph.mem_cases.mp he
      obtain ⟨t, ht⟩ := h.along_returns hmem s
      cases hlive : t.isReachable with
      | true => exact ⟨e, List.mem_cons_of_mem _ he, t, ht, hlive⟩
      | false =>
        -- zero is impossible, so the default excludes nothing that is left
        rw [along_case hs (hsrc ▸ hroot) hcase hreads, hsrc] at ht
        exact ⟨other, List.mem_cons_self, hdefault (.inr ⟨Expr.nonZero_of_dead hs ht hlive, hmode⟩)⟩
    · refine ⟨other, List.mem_cons_self, hdefault (.inl (List.countP_eq_zero.mpr ?_))⟩
      exact fun e he hreads => hzero ⟨e, he, hreads⟩

/-- Control goes on from every place it can arrive at. Evaluating an expression leaves a store that can be
reached and gives no impossible sign, and so the store after a block can be reached. Where a block has both
branches of a condition, one of them can be taken. So can one of the cases of a switch or its default, unless
the selector is an operation without effects that has a variable of its own, and two cases or more are zero. -/
theorem control_goes_on (h : c.Legible g) (hs : s.isReachable = true) :
    (∀ e : Expr, (e.Each fun _ => Expr.Legible) →
      ∃ f, (e.eval s).value = .ok f ∧ f ≠ some .bottom ∧ (e.eval s).store.isReachable = true) ∧
    (∀ b ∈ g.blocks, ∃ s', c.transfer b s = .ok s' ∧ s'.isReachable = true) ∧
    (∀ yes ∈ g.edges, ∀ no ∈ g.edges, yes.src = no.src → yes.kind = .branchTrue →
      no.kind = .branchFalse → ∃ e ∈ [yes, no], c.CanTake g s e) ∧
    ∀ other ∈ g.edges, other.kind = .switchDefault →
      (c.condition g other.src).Steady ∨ (g.cases other.src).countP Edge.readsZero ≤ 1 →
      ∃ e ∈ other :: g.cases other.src, c.CanTake g s e := by
  refine ⟨fun e he => ?_, fun b hb => h.transfer_live hb hs, ?_, ?_⟩
  · obtain ⟨f, hf⟩ := Expr.eval_returns he s
    obtain ⟨hlive, hpossible⟩ := e.meaning_live.value s hs hf
    exact ⟨f, hf, hpossible, hlive⟩
  · exact fun yes hyes no hno hsrc hky hkn => h.branch_live hs hyes hno hsrc hky hkn
  · exact fun other _ hk hmode => h.switch_live hs hk hmode

def divided : Code := ⟨#[
  -- the tokens of the condition `k && (x = 1 / k)` and of the selector `k`
  { text := "k", parent := some 1, variableKey := some (.id 1), type := some { base := .int } },
  { text := "&&", left := some 0, right := some 3, type := some { base := .bool } },
  { text := "x", parent := some 3, variableKey := some (.id 2), type := some { base := .int } },
  { text := "=", left := some 2, right := some 5, parent := some 1, type := some { base := .int } },
  { text := "1", parent := some 5, isNumber := true, type := some { base := .int } },
  { text := "/", left := some 4, right := some 6, parent := some 3, type := some { base := .int } },
  { text := "k", parent := some 5, variableKey := some (.id 1), type := some { base := .int } },
  { text := "k", variableKey := some (.id 1), type := some { base := .int } }]⟩

def dividedGraph : Graph where
  blocks := [⟨.entry, []⟩, ⟨.exit, []⟩, ⟨.ifCond, [0, 1, 2, 3, 4, 5, 6]⟩, ⟨.dispatch, [7]⟩]
  edges := [⟨0, 2, .fallThrough, none⟩, ⟨2, 3, .branchTrue, none⟩, ⟨2, 1, .branchFalse, none⟩,
    ⟨3, 1, .switchCase, some "0"⟩, ⟨3, 1, .switchCase, some "00"⟩, ⟨3, 1, .switchDefault, none⟩]

def dividedStore : Store := Store.empty.bind (.id 1) .pos

/-- With `k` positive, both cases are dead and the default is taken. -/
theorem control_goes_on_divided :
    (divided.Legible dividedGraph ∧ dividedStore.isReachable = true ∧
      (divided.condition dividedGraph 3).Steady ∧ (dividedGraph.cases 3).countP Edge.readsZero = 2) ∧
    (∃ f, ((divided.tree (some 1)).eval dividedStore).value = .ok f ∧ f ≠ some .bottom ∧
      ((divided.tree (some 1)).eval dividedStore).store.isReachable = true) ∧
    (∃ s', divided.transfer (dividedGraph.block 2) dividedStore = .ok s' ∧ s'.isReachable = true) ∧
    (∃ e ∈ [⟨2, 3, .branchTrue, none⟩, ⟨2, 1, .branchFalse, none⟩],
      divided.CanTake dividedGraph dividedStore e) ∧
    (∀ e ∈ dividedGraph.cases 3, divided.along dividedGraph e dividedStore = .ok .unreachable) ∧
    divided.CanTake dividedGraph dividedStore ⟨3, 1, .switchDefault, none⟩ := by
  have hlegible : divided.Legible dividedGraph := by decide
  have hsteady : (divided.condition dividedGraph 3).Steady := by decide
  have hdead : ∀ e ∈ dividedGraph.cases 3, divided.along dividedGraph e dividedStore = .ok .unreachable := by
    intro e he
    rcases List.mem_cons.mp he with rfl | he
    · rfl
    · cases List.mem_singleton.mp he
      rfl
  obtain ⟨heval, htransfer, hbranch, hswitch⟩ := control_goes_on hlegible (s := dividedStore) rfl
  refine ⟨⟨hlegible, rfl, hsteady, by decide⟩, heval _ (by decide), htransfer _ (by decide),
    hbranch _ (by decide) _ (by decide) rfl rfl rfl, hdead, ?_⟩
  obtain ⟨e, he, s', hs', hlive⟩ := hswitch ⟨3, 1, .switchDefault, none⟩ (by decide) rfl (.inl hsteady)
  rcases List.mem_cons.mp he with rfl | he
  · exact ⟨s', hs', hlive⟩
  · cases (hdead e he).symm.trans hs'
    cases hlive

def selfNamed : Code := ⟨#[
  -- the tokens of the selector `k ? 0 : 1`, where the operator stands for `k` too
  { text := "k", parent := some 1, variableKey := some (.id 1), type := some { base := .int } },
  { text := "?", left := some 0, right := some 3, variableKey := some (.id 1), type := some { base := .int } },
  { text := "0", parent := some 3, isNumber := true, type := some { base := .int } },
  { text := ":", left := some 2, right := some 4, parent := some 1 },
  { text := "1", parent := some 3, isNumber := true, type := some { base := .int } }]⟩

def selfNamedGraph : Graph where
  blocks := [⟨.entry, []⟩, ⟨.exit, []⟩, ⟨.dispatch, [0, 1, 2, 3, 4]⟩]
  edges := [⟨0, 2, .fallThrough, none⟩, ⟨2, 1, .switchCase, some "0"⟩, ⟨2, 1, .switchCase, some "00"⟩,
    ⟨2, 1, .switchDefault, none⟩]

/-- With `k` zero the selector is one, so both cases are dead. That the selector is not zero makes `k` positive,
and then it is zero: the default is dead as well. -/
theorem switch_gets_stuck :
    selfNamed.Legible selfNamedGraph ∧ (Store.empty.bind (.id 1) .zero).isReachable = true ∧
    (selfNamedGraph.leaving 2).map Edge.kind = [.switchCase, .switchCase, .switchDefault] ∧
    (selfNamedGraph.leaving 2).map (selfNamed.along selfNamedGraph · (Store.empty.bind (.id 1) .zero)) =
      [.ok .unreachable, .ok .unreachable, .ok .unreachable] :=
  ⟨by decide, rfl, rfl, rfl⟩

end Code

end SignFlow

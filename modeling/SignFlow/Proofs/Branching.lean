import SignFlow.Proofs.Decisions
import SignFlow.Proofs.Soundness

/-! Branches after conditions that assign.

Evaluating a condition leaves a store that allows every environment where one of its tests was decided: a
logical operator takes in what its right side leaves and gives up nothing that was possible before. Where
the condition is stable, assuming its outcome on that store keeps the environment where it ended. Where it
is not, the analysis can rule out what happens. -/

namespace SignFlow

/-- The store that evaluating the expression leaves allows every environment where a run of the term had one
of its tests decided. -/
def Expr.DecidesFor (e : Expr) (t : Term) : Prop :=
  ∀ ⦃s : Store⦄ ⦃ρ : Env⦄, s.Covers ρ → ∀ ⦃f : Fact⦄ ⦃v : Int⦄ ⦃ρ' : Env⦄,
    (e.eval s).value = .ok f → t.run ρ (.value v ρ') → Decides (e.eval s).store t ρ v ρ'

/-- Evaluating the expression follows the runs of the term to where its tests are decided. -/
structure Follows (e : Expr) (t : Term) : Prop where
  accounts : e.AccountsFor t
  decides : e.DecidesFor t

namespace Follows

open Eval

variable {pos : Nat} {t : Token} {e l r : Expr} {u a b : Term}

theorem branches (h : Follows e u) (ha : e.Assumes u) : e.BranchesFor u := by
  intro s ρ hs f v ρ' s' hv hrun he
  have hcov : (e.eval s).store.Covers ρ' := ((h.accounts hs).value hv hrun).2
  exact ha (h.decides hs hv hrun) hcov (fun _ _ => rfl) he

theorem sound (h : Follows e u) (hr : Reads e u) : Sound e u :=
  ⟨h.accounts, fun hp => (hr.sound_of_isPure hp).assume hp⟩

theorem of_value (h : e.AccountsFor u) (hu : u.isValue = true) : Follows e u :=
  ⟨h, fun _ _ hs _ _ _ hv hrun => .value hu hrun ((h hs).value hv hrun).2⟩

theorem comparison {c : Comparison} (ht : t.IsOperator c.symbol) (rl : Reads l a) (rr : Reads r b)
    (hl : Follows l a) (hr : Follows r b) : Follows (.node pos t l r) (.comparison c a b) := by
  have haccounts : (Expr.node pos t l r).AccountsFor (.comparison c a b) :=
    (Sound.comparison ht rl rr (hl.sound rl) (hr.sound rr)).value
  exact ⟨haccounts, fun _ _ hs _ _ _ hv hrun => .comparison hrun ((haccounts hs).value hv hrun).2⟩

theorem not (ht : t.IsOperator "!") (rl : Reads l a) (hl : Follows l a) :
    Follows (.node pos t l .absent) (.not a) := by
  refine ⟨(Sound.not ht rl (hl.sound rl)).value, fun s ρ hs f v ρ' hv hrun => ?_⟩
  rw [Expr.eval_node ht.values, visit_unary rl.isAbsent (by simp [ht.text_eq])] at hv ⊢
  obtain ⟨x, ρ₁, hx, hlast⟩ := Run.bind_value.mp hrun
  obtain ⟨rfl, rfl⟩ := Run.pure_value.mp hlast
  have hend : (unary t l l.eval).Ends s fun _ s' _ => Decides s' a ρ x ρ' := by
    simp only [unary, ht.text_eq]
    exact .bind fun g hg => .pure (hl.decides hs hg hx)
  exact .not (hend hv)

/-- The store after a logical operator allows where the left side was decided, for it takes nothing away,
and where the right side was. -/
theorem shortCircuit_decides {conj : Bool} (hl : Follows l a) (hb : l.BranchesFor a) (hr : Follows r b)
    {s : Store} {ρ ρ' : Env} {v : Int} (hs : s.Covers ρ)
    (hrun : (Term.logical conj a b).run ρ (.value v ρ')) :
    (shortCircuit conj l.meaning r.meaning).Ends s fun _ s' _ =>
      Decides s' (.logical conj a b) ρ v ρ' := by
  obtain ⟨x, ρ₁, hx, hrest⟩ := Run.bind_value.mp hrun
  refine .bind fun f hf => .bind (.store (.bind (.lift fun taken htaken => .bind (.aside fun g hg => ?_))))
  refine .bind (.change (.bind (.store (.pure ?_))))
  have hs₁ : (l.eval s).store.Covers ρ₁ := ((hl.accounts hs).value hf hx).2
  have hleft := (hl.decides hs hf hx).mono fun τ hτ => hτ.absorb (r.eval taken).store
  by_cases hgo : decide (x ≠ 0) = conj
  · rw [if_pos hgo] at hrest
    obtain ⟨y, ρ₂, hy, hlast⟩ := Run.bind_value.mp hrest
    obtain ⟨rfl, rfl⟩ := Run.pure_value.mp hlast
    have htaken : taken.Covers ρ₁ := hb hs hf hx (hgo.symm ▸ htaken)
    exact .goesOn hleft hgo ((hr.decides htaken hg hy).mono fun τ hτ => hτ.absorbed hs₁)
  · rw [if_neg hgo] at hrest
    obtain ⟨rfl, rfl⟩ := Run.pure_value.mp hrest
    exact .stops hleft hgo

theorem logical {conj : Bool} (ht : t.IsOperator (if conj then "&&" else "||")) (rl : Reads l a)
    (rr : Reads r b) (ha : l.Assumes a) (hl : Follows l a) (hr : Follows r b) :
    Follows (.node pos t l r) (.logical conj a b) := by
  have hb : l.BranchesFor a := hl.branches ha
  have heval : (Expr.node pos t l r).eval = shortCircuit conj l.meaning r.meaning := by
    rw [Expr.eval_node ht.values, visit_logical ht.text_eq rl.isAbsent rr.isAbsent]
  constructor
  · intro s ρ hs
    rw [heval]
    exact Sound.logical_accounts hl.accounts hb hr.accounts hs
  · intro s ρ hs f v ρ' hv hrun
    rw [heval] at hv ⊢
    exact shortCircuit_decides hl hb hr hs hrun hv

theorem conditional {q : Nat} {colon : Token} {y n : Expr} {d : Term} (ht : t.IsOperator "?")
    (type : t.IsInt) (hc : colon.text = ":") (rl : Reads l u) (ha : l.Assumes u) (hl : Follows l u)
    (hy : Follows y b) (hn : Follows n d) :
    Follows (.node pos t l (.node q colon y n)) (.conditional u b d) := by
  refine of_value (fun s ρ hs => ?_) rfl
  rw [Expr.eval_node ht.values, visit_conditional ht.text_eq hc rl.isAbsent]
  exact Sound.conditional_accounts type hl.accounts (hl.branches ha) (fun hs => hy.accounts hs)
    (fun hs => hn.accounts hs) hs

end Follows

/-- Whatever a term tests, if all of it is stable and its targets are variables, evaluation follows it. -/
theorem Reads.follows {e : Expr} {t : Term} (h : Reads e t) (hst : t.testsStable = true)
    (hn : t.namesTargets = true) : Follows e t := by
  induction h with
  | literal ht => exact .of_value (Sound.literal ht).value rfl
  | var ht => exact .of_value (Sound.var ht).value rfl
  | arithmetic ht type hl hr ihl ihr =>
    rw [Term.testsStable, Bool.and_eq_true] at hst
    rw [Term.namesTargets, Bool.and_eq_true] at hn
    exact .of_value (Sound.arithmetic ht type hl hr ((ihl hst.1 hn.1).sound hl)
      ((ihr hst.2 hn.2).sound hr)).value rfl
  | assign ht type hl hr ihl ihr =>
    rw [Term.testsStable, Bool.and_eq_true] at hst
    rw [Term.namesTargets, Bool.and_eq_true] at hn
    exact .of_value (Sound.assign ht hl hn.1 hr ((ihr hst.2 hn.2).sound hr)).value rfl
  | compound ht type hl hr ihl ihr =>
    rw [Term.testsStable, Bool.and_eq_true] at hst
    rw [Term.namesTargets, Bool.and_eq_true] at hn
    exact .of_value (Sound.compound ht hl hn.1 hr ((ihr hst.2 hn.2).sound hr)).value rfl
  | stepBefore ht type hl => exact .of_value (Sound.stepBefore ht hl hn).value rfl
  | stepAfter ht type hr => exact .of_value (Sound.stepAfter ht hr hn).value rfl
  | minus ht type hl ihl => exact .of_value (Sound.minus ht type hl ((ihl hst hn).sound hl)).value rfl
  | plus ht type hl ihl => exact .of_value (Sound.plus ht type hl ((ihl hst hn).sound hl)).value rfl
  | not ht type hl ihl => exact .not ht hl (ihl hst hn)
  | comparison ht type hl hr ihl ihr =>
    rw [Term.testsStable, Bool.and_eq_true] at hst
    rw [Term.namesTargets, Bool.and_eq_true] at hn
    exact .comparison ht hl hr (ihl hst.1 hn.1) (ihr hst.2 hn.2)
  | logical ht type hl hr ihl ihr =>
    rw [Term.testsStable, Bool.and_eq_true, Bool.and_eq_true] at hst
    rw [Term.namesTargets, Bool.and_eq_true] at hn
    exact .logical ht hl hr (hl.assumes hst.1.1) (ihl hst.1.2 hn.1) (ihr hst.2 hn.2)
  | conditional ht type hc hv hl hy hno ihl ihy ihn =>
    simp only [Term.testsStable, Bool.and_eq_true] at hst
    simp only [Term.namesTargets, Bool.and_eq_true] at hn
    obtain ⟨⟨⟨hstable, htest⟩, hyes⟩, hother⟩ := hst
    exact .conditional ht type hc hl (hl.assumes hstable) (ihl htest hn.1.1) (ihy hyes hn.1.2)
      (ihn hother hn.2)
  | comma ht type hl hr ihl ihr =>
    rw [Term.testsStable, Bool.and_eq_true] at hst
    rw [Term.namesTargets, Bool.and_eq_true] at hn
    exact .of_value (Sound.comma ht type hl hr ((ihl hst.1 hn.1).sound hl)
      ((ihr hst.2 hn.2).sound hr)).value rfl

/-- A run that starts where the store allows, of a condition where no logical operator assigns on its right
what its left side tests and every target is a variable by its name: the branch of its outcome allows where
it ended. Only a literal of too many digits keeps the analysis from that branch. -/
theorem Reads.assume_covers_branch {e : Expr} {t : Term} (h : Reads e t) (hstable : t.isStable = true)
    (htests : t.testsStable = true) (hnames : t.namesTargets = true) {s : Store} {ρ ρ' : Env} {v : Int}
    (hs : s.Covers ρ) (hrun : t.run ρ (.value v ρ')) :
    (∃ digits ∈ t.literals, Fault.maxDigits < digits.length) ∨
      ∃ fact s', (e.eval s).value = .ok fact ∧
        e.assume (decide (v ≠ 0)) (e.eval s).store = .ok s' ∧ s'.Covers ρ' := by
  have hfails := e.meaning_failsOnly fun f hf => hf
  have long : ∀ {f : Fault}, e.Faulty f → ∃ digits ∈ t.literals, Fault.maxDigits < digits.length := by
    intro f hf
    obtain ⟨digits, hmem, hlong, -⟩ := h.faulty hf
    exact ⟨digits, hmem, hlong⟩
  cases hv : (e.eval s).value with
  | error f => exact .inl (long (hfails.value s hv))
  | ok fact =>
    cases he : e.assume (decide (v ≠ 0)) (e.eval s).store with
    | error f => exact .inl (long (hfails.assume _ _ he))
    | ok s' =>
      have hcov : s'.Covers ρ' := (h.follows htests hnames).branches (h.assumes hstable) hs hv hrun he
      exact .inr ⟨fact, s', rfl, rfl, hcov⟩

namespace Sample

def zeroToken : Token := { text := "0", isNumber := true, type := intType }

theorem zeroToken_decimal : zeroToken.IsDecimal ['0'] :=
  ⟨⟨rfl, rfl, rfl⟩, rfl, rfl, rfl, by simp, by simp [Char.isDigit]⟩

def tested : Expr :=
  -- the tree of `y > 0 && (x = y)`
  .node 3 (operatorToken "&&")
    (.node 1 (operatorToken ">") (.node 0 (variableToken y) .absent .absent)
      (.node 2 zeroToken .absent .absent))
    (.node 5 (operatorToken "=") (.node 4 (variableToken x) .absent .absent)
      (.node 6 (variableToken y) .absent .absent))

def testedTerm : Term :=
  .logical true (.comparison .gt (.var y) (.literal ['0'])) (.assign (.var x) (.var y))

theorem and_operator : (operatorToken "&&").IsOperator (if true then "&&" else "||") :=
  operatorToken_operator _

theorem reads_tested : Reads tested testedTerm := by
  refine .logical and_operator (.inl rfl) ?_ ?_
  · exact .comparison (operatorToken_operator _) (.inl rfl) (.var (variableToken_names y))
      (.literal zeroToken_decimal)
  · exact .assign (operatorToken_operator _) rfl (.var (variableToken_names x)) (.var (variableToken_names y))

theorem tested_runs : testedTerm.run env (.value 1 (Function.update env x 1)) := by
  simp [testedTerm, Term.run, Term.place, env, Comparison.holds, Nat.ofDigitChars]

def cleared : Expr :=
  -- the tree of `x && !(x = 0)`
  .node 1 (operatorToken "&&") (.node 0 (variableToken x) .absent .absent)
    (.node 2 (operatorToken "!")
      (.node 4 (operatorToken "=") (.node 3 (variableToken x) .absent .absent)
        (.node 5 zeroToken .absent .absent)) .absent)

def clearedTerm : Term := .logical true (.var x) (.not (.assign (.var x) (.literal ['0'])))

theorem reads_cleared : Reads cleared clearedTerm := by
  refine .logical and_operator (.inl rfl) (.var (variableToken_names x)) ?_
  refine .not (operatorToken_operator _) (.inl rfl) ?_
  exact .assign (operatorToken_operator _) rfl (.var (variableToken_names x)) (.literal zeroToken_decimal)

theorem cleared_runs : clearedTerm.run (fun _ => 1) (.value 1 (Function.update (fun _ => 1) x 0)) := by
  simp [clearedTerm, Term.run, Term.place, Nat.ofDigitChars]

end Sample

theorem Reads.assume_covers_branch_tested :
    (Reads Sample.tested Sample.testedTerm ∧ Sample.testedTerm.isStable = true ∧
      Sample.testedTerm.testsStable = true ∧ Sample.testedTerm.namesTargets = true ∧
      Sample.testedTerm.isPure = false ∧
      Sample.store.Covers Sample.env ∧
      Sample.testedTerm.run Sample.env (.value 1 (Function.update Sample.env Sample.x 1))) ∧
    ∃ s', Sample.tested.assume true (Sample.tested.eval Sample.store).store = .ok s' ∧
      s'.Covers (Function.update Sample.env Sample.x 1) := by
  refine ⟨⟨Sample.reads_tested, rfl, rfl, rfl, rfl, Sample.store_covers, Sample.tested_runs⟩, ?_⟩
  rcases Sample.reads_tested.assume_covers_branch rfl rfl rfl Sample.store_covers Sample.tested_runs with
    ⟨digits, hmem, hlong⟩ | ⟨fact, s', -, he, hcov⟩
  · obtain rfl : digits = ['0'] := by simpa [Sample.testedTerm, Term.literals] using hmem
    exact absurd hlong (by decide)
  · exact ⟨s', he, hcov⟩

/-- The variable was tested and then set to zero: the branch that is taken holds it for anything but zero. -/
theorem Reads.assume_misses_cleared :
    Reads Sample.cleared Sample.clearedTerm ∧ Store.empty.Covers (fun _ => 1) ∧
    Sample.clearedTerm.run (fun _ => 1) (.value 1 (Function.update (fun _ => 1) Sample.x 0)) ∧
    (Sample.cleared.eval .empty).value = .ok (some .top) ∧
    ∃ s', Sample.cleared.assume true (Sample.cleared.eval .empty).store = .ok s' ∧
      s'.entries = [(Sample.x, .nonzero)] ∧ ¬s'.Covers (Function.update (fun _ => 1) Sample.x 0) := by
  refine ⟨Sample.reads_cleared, Store.covers_empty _, Sample.cleared_runs, rfl, _, rfl, rfl, fun hcov => ?_⟩
  have hx := hcov Sample.x
  rw [Function.update_self] at hx
  exact absurd hx (by decide)

end SignFlow

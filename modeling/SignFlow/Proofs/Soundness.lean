import SignFlow.Proofs.Traps

/-! Soundness of evaluation.

Every integer expression has a run from every environment. An evaluation that starts with the environment
covered gives a sign that covers the values of the runs and leaves a store that covers where they end,
and it notes every division where one of them traps. -/

namespace SignFlow

theorem Sign.covers_of_mayBeZero {s : Sign} : s.mayBeZero = true → s.Covers 0 := by cases s <;> decide

namespace Run

variable {α β : Type}

/-- From every environment the step has a result. -/
def Total (x : Run α) : Prop := ∀ ρ, ∃ r, x ρ r

namespace Total

theorem pure (a : α) : Total (Pure.pure a : Run α) := fun ρ => ⟨.value a ρ, rfl⟩

theorem read (k : Key) : Total (Run.read k) := fun ρ => ⟨.value (ρ k) ρ, rfl⟩

theorem write (k : Key) (v : Int) : Total (Run.write k v) :=
  fun ρ => ⟨.value () (Function.update ρ k v), rfl⟩

theorem choose {P : α → Prop} {a : α} (ha : P a) : Total (Run.choose P) :=
  fun ρ => ⟨.value a ρ, a, ha, rfl⟩

theorem bind {x : Run α} {f : α → Run β} (hx : Total x) (hf : ∀ a, Total (f a)) :
    Total (x >>= f) := by
  intro ρ
  obtain ⟨r, hr⟩ := hx ρ
  cases r with
  | value a ρ' =>
    obtain ⟨q, hq⟩ := hf a ρ'
    exact ⟨q, .inl ⟨a, ρ', hr, hq⟩⟩
  | trap p => exact ⟨.trap p, .inr ⟨p, hr, rfl⟩⟩

theorem ite {c : Prop} [Decidable c] {x y : Run α} (hx : Total x) (hy : Total y) :
    Total (if c then x else y) := by
  split
  · exact hx
  · exact hy

theorem compute (pos : Nat) (op : Operator) (a b : Int) : Total (Run.compute pos op a b) := by
  unfold Run.compute
  split
  · exact fun _ => ⟨.trap pos, rfl⟩
  · rename_i hzero
    have hsign : (a.sign * b.sign).sign = a.sign * b.sign := by
      rw [Int.sign_mul, Int.sign_sign, Int.sign_sign]
    cases op with
    | plus | minus | times => exact choose rfl
    | divide | mod => exact choose ⟨fun hb => hzero ⟨rfl, hb⟩, hsign⟩

end Total

end Run

/-- A term whose targets are variables has a run from every environment. -/
theorem Term.run_total {t : Term} (hn : t.namesTargets = true) : t.run.Total := by
  induction t with
  | literal digits => exact .pure _
  | var k => exact .read k
  | arithmetic pos op l r ihl ihr =>
    rw [namesTargets, Bool.and_eq_true] at hn
    exact .bind (ihl hn.1) fun a => .bind (ihr hn.2) fun b => .compute pos op a b
  | assign target e _ ih =>
    rw [namesTargets, Bool.and_eq_true] at hn
    obtain ⟨k, rfl⟩ := eq_var_of_name hn.1
    rw [run_assign_var]
    exact .bind (ih hn.2) fun v => .bind (.write k v) fun _ => .pure v
  | compound pos op target e _ ih =>
    rw [namesTargets, Bool.and_eq_true] at hn
    obtain ⟨k, rfl⟩ := eq_var_of_name hn.1
    rw [run_compound_var]
    refine .bind (ih hn.2) fun b => .bind (.read k) fun a => .bind (.compute pos op a b) fun v => ?_
    exact .bind (.write k v) fun _ => .pure v
  | step up target =>
    obtain ⟨k, rfl⟩ := eq_var_of_name hn
    rw [run_step_var]
    exact .bind (.read k) fun old => .bind (.write k _) fun _ => .choose (a := old) (.inl rfl)
  | minus e ih | not e ih => exact .bind (ih hn) fun _ => .pure _
  | plus e ih => exact ih hn
  | comparison c l r ihl ihr =>
    rw [namesTargets, Bool.and_eq_true] at hn
    exact .bind (ihl hn.1) fun _ => .bind (ihr hn.2) fun _ => .pure _
  | logical conj l r ihl ihr =>
    rw [namesTargets, Bool.and_eq_true] at hn
    exact .bind (ihl hn.1) fun _ => .ite (.bind (ihr hn.2) fun _ => .pure _) (.pure _)
  | conditional test yes no iht ihy ihn =>
    rw [namesTargets, Bool.and_eq_true, Bool.and_eq_true] at hn
    exact .bind (iht hn.1.1) fun _ => .ite (ihy hn.1.2) (ihn hn.2)
  | comma first second ihf ihs =>
    rw [namesTargets, Bool.and_eq_true] at hn
    exact .bind (ihf hn.1) fun _ => ihs hn.2

/-- Runs that start where the store allows, of a term whose targets are variables by their names: one of them
has a result; evaluation covers the values and the environments of all that end, and notes the division where
one traps. Only a literal of too many digits keeps it from an answer. -/
theorem Reads.eval_covers {e : Expr} {t : Term} (h : Reads e t) (hp : t.testsPure = true)
    (hnames : t.namesTargets = true) {s : Store} {ρ : Env} (hs : s.Covers ρ) :
    (∃ r, t.run ρ r) ∧
    ((∃ digits ∈ t.literals, Fault.maxDigits < digits.length ∧
        (e.eval s).value = .error (.tooManyDigits digits.length)) ∨
      ∃ fact, (e.eval s).value = .ok fact ∧
        (∀ v ρ', t.run ρ (.value v ρ') → fact.Covers v ∧ (e.eval s).store.Covers ρ') ∧
        ∀ p, t.run ρ (.trap p) → ∃ site ∈ (e.eval s).sites,
          site.pos = p ∧ site.integral = true ∧ site.divisor.Covers 0) := by
  refine ⟨Term.run_total hnames ρ, ?_⟩
  have haccounts := (h.sound hp hnames).value hs
  cases hv : (e.eval s).value with
  | error f =>
    obtain ⟨digits, hmem, hlong, rfl⟩ := h.faulty ((e.meaning_failsOnly fun f hf => hf).value s hv)
    exact .inl ⟨digits, hmem, hlong, rfl⟩
  | ok fact =>
    refine .inr ⟨fact, rfl, fun v ρ' hrun => haccounts.value hv hrun, fun p htrap => ?_⟩
    obtain ⟨site, hmem, hsite⟩ := haccounts.trap hv htrap
    exact ⟨site, hmem, hsite.pos, hsite.integral, Sign.covers_of_mayBeZero hsite.mayBeZero⟩

namespace Sample

def x : Key := .id 1

def y : Key := .id 2

def variableToken (k : Key) : Token := { text := "v", variableKey := some k, type := intType }

def operatorToken (text : String) : Token := { text, type := intType }

/-- The tree of `x++, x > y ? y : 7 / (x - y)`. -/
def stepped : Expr :=
  let leaf (pos : Nat) (k : Key) : Expr := .node pos (variableToken k) .absent .absent
  let seven : Expr := .node 9 { text := "7", isNumber := true, type := intType } .absent .absent
  .node 2 (operatorToken ",") (.node 1 (operatorToken "++") (leaf 0 x) .absent)
    (.node 6 (operatorToken "?") (.node 4 (operatorToken ">") (leaf 3 x) (leaf 5 y))
      (.node 8 { text := ":" } (leaf 7 y)
        (.node 10 (operatorToken "/") seven
          (.node 12 (operatorToken "-") (leaf 11 x) (leaf 13 y)))))

def steppedTerm : Term :=
  .comma (.step true (.var x)) (.conditional (.comparison .gt (.var x) (.var y)) (.var y)
    (.arithmetic 10 .divide (.literal ['7']) (.arithmetic 12 .minus (.var x) (.var y))))

theorem variableToken_names (k : Key) : (variableToken k).Names k := ⟨rfl, rfl, rfl, rfl, rfl⟩

theorem operatorToken_operator (text : String) : (operatorToken text).IsOperator text :=
  ⟨⟨rfl, rfl, rfl⟩, rfl⟩

theorem reads_stepped : Reads stepped steppedTerm := by
  have hvar : ∀ pos k, Reads (.node pos (variableToken k) .absent .absent) (.var k) :=
    fun pos k => .var (variableToken_names k)
  refine .comma (operatorToken_operator _) rfl
    (.stepBefore (operatorToken_operator _) rfl (hvar 0 x)) ?_
  refine .conditional (operatorToken_operator _) rfl rfl rfl
    (.comparison (operatorToken_operator _) (.inl rfl) (hvar 3 x) (hvar 5 y)) (hvar 7 y) ?_
  refine .arithmetic (operatorToken_operator _) rfl (.literal ?_)
    (.arithmetic (operatorToken_operator _) rfl (hvar 11 x) (hvar 13 y))
  exact ⟨⟨rfl, rfl, rfl⟩, rfl, rfl, rfl, by simp, by simp [Char.isDigit]⟩

/-- One variable is zero and the other positive. -/
def store : Store := (Store.empty.bind x .zero).bind y .pos

def env : Env := Function.update (Function.update (fun _ => 0) x 0) y 1

theorem store_covers : store.Covers env :=
  ((Store.covers_empty _).bind (by decide)).bind (by decide)

/-- After the step both variables are one. -/
theorem stepped_traps : steppedTerm.run env (.trap 10) := by
  have hne : x ≠ y := by decide
  have hstep : (Term.step true (.var x)).run env (.value 0 (Function.update env x 1)) := by
    simp [Term.run, Term.place, env, hne]
  refine Run.bind_trap.mpr (.inl ⟨0, _, hstep, ?_⟩)
  simp [Term.run, env, hne.symm, Comparison.holds, Run.compute, Operator.isDivision,
    Operator.Gives, Run.trap]

end Sample

theorem Reads.eval_covers_stepped :
    (Reads Sample.stepped Sample.steppedTerm ∧ Sample.steppedTerm.testsPure = true ∧
      Sample.steppedTerm.namesTargets = true ∧ Sample.store.Covers Sample.env ∧
      Sample.steppedTerm.run Sample.env (.trap 10)) ∧
    ∃ site ∈ (Sample.stepped.eval Sample.store).sites,
      site.pos = 10 ∧ site.integral = true ∧ site.divisor.Covers 0 := by
  refine ⟨⟨Sample.reads_stepped, rfl, rfl, Sample.store_covers, Sample.stepped_traps⟩, ?_⟩
  obtain ⟨-, ⟨digits, hmem, hlong, -⟩ | ⟨fact, -, -, htraps⟩⟩ :=
    Sample.reads_stepped.eval_covers rfl rfl Sample.store_covers
  · obtain rfl : digits = ['7'] := by simpa [Sample.steppedTerm, Term.literals] using hmem
    exact absurd hlong (by decide)
  · exact htraps 10 Sample.stepped_traps

namespace Sample

def fiveToken : Token := { text := "5", isNumber := true, type := intType }

theorem reads_five (pos : Nat) : Reads (.node pos fiveToken .absent .absent) (.literal ['5']) :=
  .literal ⟨⟨rfl, rfl, rfl⟩, rfl, rfl, rfl, by simp, by simp [Char.isDigit]⟩

/-- The tree of `(x = 5) -= 5`. -/
def reassigned : Expr :=
  .node 3 (operatorToken "-=")
    (.node 1 (operatorToken "=") (.node 0 (variableToken x) .absent .absent)
      (.node 2 fiveToken .absent .absent))
    (.node 4 fiveToken .absent .absent)

def reassignedTerm : Term := .compound 3 .minus (.assign (.var x) (.literal ['5'])) (.literal ['5'])

theorem reads_reassigned : Reads reassigned reassignedTerm :=
  .compound (operatorToken_operator _) rfl
    (.assign (operatorToken_operator _) rfl (.var (variableToken_names x)) (reads_five 2)) (reads_five 4)

theorem reassigned_runs (ρ : Env) : reassignedTerm.run ρ (.value 0 (Function.update ρ x 0)) := by
  simp [reassignedTerm, Term.run, Term.place, Run.compute, Operator.isDivision, Operator.Gives,
    Nat.ofDigitChars]

end Sample

/-- The difference is written through an assignment, so the write is dropped: every run ends with the
variable zero, and the store holds it for positive. -/
theorem Reads.eval_misses_reassigned :
    Reads Sample.reassigned Sample.reassignedTerm ∧ Sample.reassignedTerm.testsPure = true ∧
    (Sample.reassigned.eval .empty).value = .ok (some .top) ∧
    (Sample.reassigned.eval .empty).store.entries = [(Sample.x, .pos)] ∧
    ∀ ρ : Env, Store.empty.Covers ρ ∧
      Sample.reassignedTerm.run ρ (.value 0 (Function.update ρ Sample.x 0)) ∧
      ¬(Sample.reassigned.eval .empty).store.Covers (Function.update ρ Sample.x 0) := by
  have hstore : (Sample.reassigned.eval .empty).store = Store.empty.bind Sample.x .pos :=
    Sample.reads_reassigned.write_dropped rfl rfl .empty
  refine ⟨Sample.reads_reassigned, rfl, rfl, by rw [hstore]; rfl, fun ρ => ?_⟩
  refine ⟨Store.covers_empty ρ, Sample.reassigned_runs ρ, fun hcov => ?_⟩
  rw [hstore] at hcov
  have hx := hcov Sample.x
  rw [Function.update_self] at hx
  exact absurd hx (by decide)

end SignFlow

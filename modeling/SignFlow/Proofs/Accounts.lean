import SignFlow.Proofs.Decimal
import SignFlow.Proofs.Faults
import SignFlow.Proofs.Term

/-! Evaluation on signs accounts for every run.

An evaluation accounts for a run if its sign and its store cover what the run ends with, or, where the
run traps, if it notes the division as one whose divisor may be zero. -/

namespace SignFlow

/-- The site is a division of integers at the position, by something that may be zero. -/
structure Site.Flags (site : Site) (p : Nat) : Prop where
  pos : site.pos = p
  integral : site.integral = true
  mayBeZero : site.divisor.mayBeZero = true

def Fact.Covers (f : Fact) (v : Int) : Prop := ∃ a, f = some a ∧ a.Covers v

theorem Fact.Covers.sign {a : Sign} {v : Int} (h : Fact.Covers (some a) v) : a.Covers v := by
  obtain ⟨_, heq, ha⟩ := h
  cases heq
  exact ha

/-- What a step leaves behind accounts for the results of a run. -/
structure Outcome.Accounts {α β : Type} (o : Outcome α) (rel : α → β → Prop) (R : Result β → Prop) :
    Prop where
  value : ∀ {a b ρ}, o.value = .ok a → R (.value b ρ) → rel a b ∧ o.store.Covers ρ
  trap : ∀ {a p}, o.value = .ok a → R (.trap p) → ∃ site ∈ o.sites, site.Flags p

namespace Outcome.Accounts

variable {α β γ δ : Type} {rel : α → β → Prop} {rel' : γ → δ → Prop}

theorem of_error {o : Outcome α} {e : Fault} (h : o.value = .error e) {R : Result β → Prop} :
    o.Accounts rel R := by
  have ok : ∀ a, o.value ≠ .ok a := by simp [h]
  exact ⟨fun ha _ => absurd ha (ok _), fun ha _ => absurd ha (ok _)⟩

theorem pure {a : α} {b : β} {s : Store} {ρ : Env} (h : rel a b) (hs : s.Covers ρ) :
    ((Pure.pure a : Walk α) s).Accounts rel ((Pure.pure b : Run β) ρ) := by
  constructor
  · intro a' b' ρ' ha hb
    cases ha
    obtain ⟨rfl, rfl⟩ := Run.pure_value.mp hb
    exact ⟨h, hs⟩
  · intro a' p _ hp
    exact absurd hp Run.pure_trap

theorem bind_at {x : Walk α} {f : α → Walk γ} {y : Run β} {g : β → Run δ} {s : Store} {ρ : Env}
    (hx : (x s).Accounts rel (y ρ))
    (hf : ∀ a b ρ', (x s).value = .ok a → rel a b → (x s).store.Covers ρ' → y ρ (.value b ρ') →
      (f a (x s).store).Accounts rel' (g b ρ')) :
    ((x >>= f) s).Accounts rel' ((y >>= g) ρ) := by
  cases hv : (x s).value with
  | error e => exact of_error (congrArg Outcome.value (Walk.bind_of_error hv))
  | ok a =>
    rw [Walk.bind_of_ok hv]
    constructor
    · intro c d ρ' hc hd
      obtain ⟨b, ρ₁, hb, hd⟩ := Run.bind_value.mp hd
      obtain ⟨hab, hs⟩ := hx.value hv hb
      exact (hf a b ρ₁ hv hab hs hb).value hc hd
    · intro c p hc hp
      rcases Run.bind_trap.mp hp with ⟨b, ρ₁, hb, hp⟩ | hp
      · obtain ⟨hab, hs⟩ := hx.value hv hb
        obtain ⟨site, hmem, hsite⟩ := (hf a b ρ₁ hv hab hs hb).trap hc hp
        exact ⟨site, List.mem_append_right _ hmem, hsite⟩
      · obtain ⟨site, hmem, hsite⟩ := hx.trap hv hp
        exact ⟨site, List.mem_append_left _ hmem, hsite⟩

theorem bind {x : Walk α} {f : α → Walk γ} {y : Run β} {g : β → Run δ} {s : Store} {ρ : Env}
    (hx : (x s).Accounts rel (y ρ))
    (hf : ∀ a b s' ρ', rel a b → s'.Covers ρ' → y ρ (.value b ρ') →
      (f a s').Accounts rel' (g b ρ')) :
    ((x >>= f) s).Accounts rel' ((y >>= g) ρ) :=
  hx.bind_at fun a b ρ' _ hab hs hb => hf a b _ ρ' hab hs hb

/-- A step that no run takes changes nothing but the store. -/
theorem after {x : Walk α} {f : α → Walk γ} {s : Store} {R : Result δ → Prop}
    (hf : ∀ a, (x s).value = .ok a → (f a (x s).store).Accounts rel' R) :
    ((x >>= f) s).Accounts rel' R := by
  cases hv : (x s).value with
  | error e => exact of_error (congrArg Outcome.value (Walk.bind_of_error hv))
  | ok a =>
    rw [Walk.bind_of_ok hv]
    constructor
    · exact fun hc hd => (hf a hv).value hc hd
    · intro c p hc hp
      obtain ⟨site, hmem, hsite⟩ := (hf a hv).trap hc hp
      exact ⟨site, List.mem_append_right _ hmem, hsite⟩

/-- A run may take a step that happens aside, on a store of its own. -/
theorem aside {x : Walk α} {f : α × Store → Walk γ} {y : Run β} {g : β → Run δ} {s other : Store}
    {ρ : Env} (hx : (x other).Accounts rel (y ρ))
    (hf : ∀ a b ρ', rel a b → (x other).store.Covers ρ' →
      (f (a, (x other).store) s).Accounts rel' (g b ρ')) :
    ((Walk.aside other x >>= f) s).Accounts rel' ((y >>= g) ρ) := by
  cases hv : (x other).value with
  | error e =>
    have hv' : (Walk.aside other x s).value = .error e := congrArg (Except.map _) hv
    exact of_error (congrArg Outcome.value (Walk.bind_of_error hv'))
  | ok a =>
    have hv' : (Walk.aside other x s).value = .ok (a, (x other).store) := congrArg (Except.map _) hv
    rw [Walk.bind_of_ok hv']
    constructor
    · intro c d ρ' hc hd
      obtain ⟨b, ρ₁, hb, hg⟩ := Run.bind_value.mp hd
      obtain ⟨hab, hs⟩ := hx.value hv hb
      exact (hf a b ρ₁ hab hs).value hc hg
    · intro c p hc hp
      rcases Run.bind_trap.mp hp with ⟨b, ρ₁, hb, hg⟩ | hp
      · obtain ⟨hab, hs⟩ := hx.value hv hb
        obtain ⟨site, hmem, hsite⟩ := (hf a b ρ₁ hab hs).trap hc hg
        exact ⟨site, List.mem_append_right _ hmem, hsite⟩
      · obtain ⟨site, hmem, hsite⟩ := hx.trap hv hp
        exact ⟨site, List.mem_append_left _ hmem, hsite⟩

theorem choose {a : α} {P : β → Prop} {s : Store} {ρ : Env} (h : ∀ b, P b → rel a b)
    (hs : s.Covers ρ) : ((Pure.pure a : Walk α) s).Accounts rel (Run.choose P ρ) := by
  constructor
  · intro a' b' ρ' ha hb
    cases ha
    obtain ⟨hP, rfl⟩ := Run.choose_value.mp hb
    exact ⟨h b' hP, hs⟩
  · intro a' p _ hp
    exact absurd hp Run.choose_trap

theorem write {k : Key} {v : Sign} {x : Int} {s : Store} {ρ : Env} (hv : v.Covers x)
    (hs : s.Covers ρ) :
    (Walk.change (·.bind k v) s).Accounts (fun _ _ => True) (Run.write k x ρ) := by
  constructor
  · intro _ _ ρ' _ h
    rw [Run.write_value.mp h]
    exact ⟨trivial, hs.bind hv⟩
  · intro _ p _ h
    exact absurd h Run.write_trap

/-- A computation that notes its divisions first accounts for the traps of the computation. -/
theorem compute {op : Operator} {pos : Nat} {x y : Int} {site : Site} {rest : Walk γ}
    {g : Int → Run δ} {s : Store} {ρ : Env} (hsite : y = 0 → site.Flags pos)
    (hrest : ∀ v, op.Gives x y v → (rest s).Accounts rel' (g v ρ)) :
    ((if op.isDivision then (do Walk.note site; rest) else rest) s).Accounts rel'
      ((Run.compute pos op x y >>= g) ρ) := by
  by_cases hdiv : op.isDivision = true
  · rw [if_pos hdiv, Walk.bind_of_ok (x := Walk.note site) rfl]
    constructor
    · intro c d ρ' hc hd
      obtain ⟨v, hv, hg⟩ := Run.compute_bind_value hd
      exact (hrest v hv).value hc hg
    · intro c p hc hp
      rcases Run.compute_bind_trap hp with ⟨v, hv, hg⟩ | ⟨rfl, _, hy⟩
      · obtain ⟨found, hmem, hfound⟩ := (hrest v hv).trap hc hg
        exact ⟨found, List.mem_append_right _ hmem, hfound⟩
      · exact ⟨site, List.mem_append_left _ List.mem_cons_self, hsite hy⟩
  · rw [if_neg hdiv]
    constructor
    · intro c d ρ' hc hd
      obtain ⟨v, hv, hg⟩ := Run.compute_bind_value hd
      exact (hrest v hv).value hc hg
    · intro c p hc hp
      rcases Run.compute_bind_trap hp with ⟨v, hv, hg⟩ | ⟨_, h, _⟩
      · exact (hrest v hv).trap hc hg
      · exact absurd h hdiv

end Outcome.Accounts

def Expr.AccountsFor (e : Expr) (t : Term) : Prop :=
  ∀ ⦃s : Store⦄ ⦃ρ : Env⦄, s.Covers ρ → (e.eval s).Accounts Fact.Covers (t.run ρ)

/-- Assuming, after evaluating the expression, the outcome that a run of the term had keeps the environment
where the run ended. -/
def Expr.BranchesFor (e : Expr) (t : Term) : Prop :=
  ∀ ⦃s : Store⦄ ⦃ρ : Env⦄, s.Covers ρ → ∀ ⦃f : Fact⦄ ⦃v : Int⦄ ⦃ρ' : Env⦄ ⦃s' : Store⦄,
    (e.eval s).value = .ok f → t.run ρ (.value v ρ') →
    e.assume (decide (v ≠ 0)) (e.eval s).store = .ok s' → s'.Covers ρ'

/-- Evaluating accounts for all runs, and assuming the outcome of a pure term for those that had it. -/
structure Sound (e : Expr) (t : Term) : Prop where
  value : e.AccountsFor t
  assume : t.isPure = true → ∀ {s s' ρ ρ' v}, s.Covers ρ → t.run ρ (.value v ρ') →
    e.assume (decide (v ≠ 0)) s = .ok s' → s'.Covers ρ

theorem Sound.branches {e : Expr} {t : Term} (h : Sound e t) (hp : t.isPure = true) : e.BranchesFor t := by
  intro s ρ hs f v ρ' s' hv hrun he
  have hcov : (e.eval s).store.Covers ρ' := ((h.value hs).value hv hrun).2
  obtain rfl := Term.run_still hp hrun
  exact h.assume hp hcov hrun he

namespace Reads

variable {e : Expr} {t : Term}

theorem isIntegral (h : Reads e t) : e.isIntegral = true := by
  obtain ⟨base, u, ht, hb⟩ := h.type
  cases e with
  | absent => cases ht
  | node pos tok l r =>
    have ht : tok.type = some { base, unsigned := u } := ht
    rcases hb with ⟨rfl, rfl⟩ | rfl <;> simp [Expr.isIntegral, Token.isIntegral, ht] <;> rfl

theorem isNumeric (h : Reads e t) : e.isNumeric = true := by
  rw [Expr.isNumeric, h.isIntegral]
  rfl

theorem staysUnsigned (h : Reads e t) : e.staysUnsigned = false := by
  obtain ⟨base, u, ht, hb⟩ := h.type
  rw [Expr.staysUnsigned, ht]
  rcases hb with ⟨rfl, rfl⟩ | rfl
  · rfl
  · cases u <;> rfl

theorem convert (h : Reads e t) (f : Fact) : f.convert e.type? (some { base := .int }) = f := by
  obtain ⟨base, u, ht, hb⟩ := h.type
  rw [ht]
  cases f with
  | none => rfl
  | some s => rcases hb with ⟨rfl, rfl⟩ | rfl <;> cases s <;> first | rfl | (cases u <;> rfl)

theorem fit (h : Reads e t) (f : Fact) : f.fit e.type? = f := by
  have hu : e.type?.any ValueType.staysUnsigned = false := h.staysUnsigned
  rcases f with _ | s
  · rfl
  · cases s <;> simp [Fact.fit, hu]

end Reads

theorem Fact.fit_int (f : Fact) : f.fit (some { base := .int }) = f := by
  rcases f with _ | s
  · rfl
  · cases s <;> rfl

theorem Fact.narrow_int (f : Fact) : f.narrow (some { base := .int }) = f := by
  rcases f with _ | s
  · rfl
  · cases s <;> rfl

end SignFlow

import SignFlow.Proofs.Evaluation
import SignFlow.Proofs.Liveness

/-! Conditions that assign.

A condition is assumed on the store that its evaluation left, so everything it tested is read again, after
all of its assignments. The signs read are still right: the store after a logical operator allows all that
was possible before its right side ran. What goes wrong is binding them. A variable tested on the left of a
logical operator and assigned on its right has a new value, and what the test told of the old one does not
hold of it. A condition where this does not happen is stable, and assuming it is sound. -/

namespace SignFlow

namespace Run

variable {α β : Type} {k : Key}

def Keeps (k : Key) (x : Run α) : Prop := ∀ ⦃ρ : Env⦄ ⦃a : α⦄ ⦃ρ' : Env⦄, x ρ (.value a ρ') → ρ' k = ρ k

namespace Keeps

theorem of_still {x : Run α} (h : x.Still) : Keeps k x := fun _ _ _ hx => congrFun (h hx) k

theorem pure (a : α) : Keeps k (Pure.pure a : Run α) := of_still (.pure a)

theorem read (l : Key) : Keeps k (Run.read l) := of_still fun _ _ _ h => (read_value.mp h).2

theorem choose (P : α → Prop) : Keeps k (Run.choose P) := of_still fun _ _ _ h => (choose_value.mp h).2

theorem compute (pos : Nat) (op : Operator) (a b : Int) : Keeps k (Run.compute pos op a b) :=
  of_still fun _ _ _ h => (compute_value h).2

theorem write {l : Key} (hl : k ≠ l) (v : Int) : Keeps k (Run.write l v) := by
  intro ρ _ ρ' h
  rw [write_value.mp h]
  exact Function.update_of_ne hl _ _

theorem bind {x : Run α} {f : α → Run β} (hx : Keeps k x) (hf : ∀ a, Keeps k (f a)) :
    Keeps k (x >>= f) := by
  intro ρ b ρ' h
  obtain ⟨a, ρ₁, ha, hb⟩ := bind_value.mp h
  exact (hf a hb).trans (hx ha)

/-- What follows may rely on the place that was found. -/
theorem at_place {x : Run Key} {f : Key → Run β} (hx : Keeps k x)
    (hne : ∀ {ρ l ρ'}, x ρ (.value l ρ') → k ≠ l) (hf : ∀ l, k ≠ l → Keeps k (f l)) :
    Keeps k (x >>= f) := by
  intro ρ b ρ' h
  obtain ⟨l, ρ₁, hl, hb⟩ := bind_value.mp h
  exact (hf l (hne hl) hb).trans (hx hl)

theorem never : Keeps k (Run.never : Run α) := fun _ _ _ h => h.elim

theorem ite {c : Prop} [Decidable c] {x y : Run α} (hx : Keeps k x) (hy : Keeps k y) :
    Keeps k (if c then x else y) := by
  split
  · exact hx
  · exact hy

end Keeps

end Run

namespace Term

/-- The variables the term may stand for where it is assigned or stepped. -/
def places : Term → List Key
  | var k => [k]
  | assign target _ | compound _ _ target _ | step _ target => target.places
  | conditional _ yes no => yes.places ++ no.places
  | comma _ second => second.places
  | _ => []

def assigns : Term → List Key
  | literal _ | var _ => []
  | step _ target => target.places ++ target.assigns
  | assign target e | compound _ _ target e => target.places ++ (target.assigns ++ e.assigns)
  | minus e | plus e | not e => e.assigns
  | arithmetic _ _ l r | comparison _ l r | logical _ l r | comma l r => l.assigns ++ r.assigns
  | conditional test yes no => test.assigns ++ (yes.assigns ++ no.assigns)

/-- The variables that an outcome of the term tells something of. A comparison tells nothing if one of its
sides assigns. -/
def tells : Term → List Key
  | var k => [k]
  | not e => e.tells
  | comparison _ l r => if l.isPure && r.isPure then l.name?.toList ++ r.name?.toList else []
  | logical _ l r => l.tells ++ r.tells
  | _ => []

/-- No logical operator of the test assigns on its right what its left side tells something of. -/
def isStable : Term → Bool
  | not e => e.isStable
  | logical _ l r => l.isStable && r.isStable && l.tells.all fun k => !r.assigns.contains k
  | _ => true

def testsStable : Term → Bool
  | literal _ | var _ => true
  | step _ e | minus e | plus e | not e => e.testsStable
  | assign l r | compound _ _ l r | arithmetic _ _ l r | comparison _ l r | comma l r =>
    l.testsStable && r.testsStable
  | logical _ l r => l.isStable && l.testsStable && r.testsStable
  | conditional test yes no => test.isStable && test.testsStable && yes.testsStable && no.testsStable

theorem place_mem {t : Term} {ρ ρ' : Env} {k : Key} (h : t.place ρ (.value k ρ')) : k ∈ t.places := by
  induction t generalizing ρ ρ' with
  | var l => exact List.mem_singleton.mpr (Run.pure_value.mp h).1
  | assign target e iht _ =>
    obtain ⟨v, ρ₁, -, h⟩ := Run.bind_value.mp h
    obtain ⟨l, ρ₂, hl, h⟩ := Run.bind_value.mp h
    obtain ⟨-, ρ₃, -, h⟩ := Run.bind_value.mp h
    obtain ⟨rfl, -⟩ := Run.pure_value.mp h
    exact iht hl
  | compound pos op target e iht _ =>
    obtain ⟨b, ρ₁, -, h⟩ := Run.bind_value.mp h
    obtain ⟨l, ρ₂, hl, h⟩ := Run.bind_value.mp h
    obtain ⟨a, ρ₃, -, h⟩ := Run.bind_value.mp h
    obtain ⟨v, ρ₄, -, h⟩ := Run.bind_value.mp h
    obtain ⟨-, ρ₅, -, h⟩ := Run.bind_value.mp h
    obtain ⟨rfl, -⟩ := Run.pure_value.mp h
    exact iht hl
  | step up target iht =>
    obtain ⟨l, ρ₁, hl, h⟩ := Run.bind_value.mp h
    obtain ⟨a, ρ₂, -, h⟩ := Run.bind_value.mp h
    obtain ⟨-, ρ₃, -, h⟩ := Run.bind_value.mp h
    obtain ⟨rfl, -⟩ := Run.pure_value.mp h
    exact iht hl
  | conditional test yes no _ ihy ihn =>
    obtain ⟨a, ρ₁, -, h⟩ := Run.bind_value.mp h
    split at h
    · exact List.mem_append_left _ (ihy h)
    · exact List.mem_append_right _ (ihn h)
  | comma first second _ ihs =>
    obtain ⟨a, ρ₁, -, h⟩ := Run.bind_value.mp h
    exact ihs h
  | literal | arithmetic | minus | plus | not | comparison | logical => exact h.elim

/-- A run changes only what the term may assign, also where the term is a target. -/
theorem keeps {t : Term} {k : Key} (hk : k ∉ t.assigns) : t.run.Keeps k ∧ t.place.Keeps k := by
  induction t with
  | literal digits => exact ⟨.pure _, .never⟩
  | var l => exact ⟨.read l, .pure l⟩
  | arithmetic pos op l r ihl ihr =>
    obtain ⟨hl, hr⟩ := not_or.mp (mt List.mem_append.mpr hk)
    exact ⟨.bind (ihl hl).1 fun a => .bind (ihr hr).1 fun b => .compute pos op a b, .never⟩
  | assign target e iht ih =>
    obtain ⟨hp, hrest⟩ := not_or.mp (mt List.mem_append.mpr hk)
    obtain ⟨ht, he⟩ := not_or.mp (mt List.mem_append.mpr hrest)
    have hwrite {α : Type} {v : Int} {last : Key → Run α} (hlast : ∀ l, (last l).Keeps k) :
        (target.place >>= fun l => .write l v >>= fun _ => last l).Keeps k :=
      .at_place (iht ht).2 (fun h hl => hp (hl ▸ place_mem h)) fun l hl =>
        .bind (.write hl v) fun _ => hlast l
    exact ⟨.bind (ih he).1 fun v => hwrite fun _ => .pure v, .bind (ih he).1 fun v => hwrite fun l => .pure l⟩
  | compound pos op target e iht ih =>
    obtain ⟨hp, hrest⟩ := not_or.mp (mt List.mem_append.mpr hk)
    obtain ⟨ht, he⟩ := not_or.mp (mt List.mem_append.mpr hrest)
    have hwrite {α : Type} {b : Int} {last : Key → Int → Run α} (hlast : ∀ l v, (last l v).Keeps k) :
        (target.place >>= fun l => .read l >>= fun a => .compute pos op a b >>= fun v =>
          .write l v >>= fun _ => last l v).Keeps k :=
      .at_place (iht ht).2 (fun h hl => hp (hl ▸ place_mem h)) fun l hl =>
        .bind (.read l) fun a => .bind (.compute pos op a b) fun v => .bind (.write hl v) fun _ => hlast l v
    exact ⟨.bind (ih he).1 fun b => hwrite fun _ v => .pure v,
      .bind (ih he).1 fun b => hwrite fun l _ => .pure l⟩
  | step up target iht =>
    obtain ⟨hp, ht⟩ := not_or.mp (mt List.mem_append.mpr hk)
    have hwrite {α : Type} {last : Key → Int → Run α} (hlast : ∀ l v, (last l v).Keeps k) :
        (target.place >>= fun l => .read l >>= fun old => .write l (if up then old + 1 else old - 1) >>=
          fun _ => last l old).Keeps k :=
      .at_place (iht ht).2 (fun h hl => hp (hl ▸ place_mem h)) fun l hl =>
        .bind (.read l) fun old => .bind (.write hl _) fun _ => hlast l old
    exact ⟨hwrite fun _ _ => .choose _, hwrite fun l _ => .pure l⟩
  | minus e ih | not e ih => exact ⟨.bind (ih hk).1 fun _ => .pure _, .never⟩
  | plus e ih => exact ⟨(ih hk).1, .never⟩
  | comparison c l r ihl ihr =>
    obtain ⟨hl, hr⟩ := not_or.mp (mt List.mem_append.mpr hk)
    exact ⟨.bind (ihl hl).1 fun _ => .bind (ihr hr).1 fun _ => .pure _, .never⟩
  | logical conj l r ihl ihr =>
    obtain ⟨hl, hr⟩ := not_or.mp (mt List.mem_append.mpr hk)
    exact ⟨.bind (ihl hl).1 fun _ => .ite (.bind (ihr hr).1 fun _ => .pure _) (.pure _), .never⟩
  | conditional test yes no iht ihy ihn =>
    obtain ⟨ht, harms⟩ := not_or.mp (mt List.mem_append.mpr hk)
    obtain ⟨hy, hn⟩ := not_or.mp (mt List.mem_append.mpr harms)
    exact ⟨.bind (iht ht).1 fun _ => .ite (ihy hy).1 (ihn hn).1,
      .bind (iht ht).1 fun _ => .ite (ihy hy).2 (ihn hn).2⟩
  | comma first second ihf ihs =>
    obtain ⟨hf, hs⟩ := not_or.mp (mt List.mem_append.mpr hk)
    exact ⟨.bind (ihf hf).1 fun _ => (ihs hs).1, .bind (ihf hf).1 fun _ => (ihs hs).2⟩

theorem run_keeps {t : Term} {k : Key} (hk : k ∉ t.assigns) : t.run.Keeps k := (keeps hk).1

end Term

/-- A run of a condition, and a store that allows every environment where one of its tests was decided. -/
inductive Decides (s : Store) : Term → Env → Int → Env → Prop
  | value {t : Term} {ρ ρ' : Env} {v : Int} (ht : t.isValue = true) (h : t.run ρ (.value v ρ'))
    (hs : s.Covers ρ') : Decides s t ρ v ρ'
  | comparison {c : Comparison} {a b : Term} {ρ ρ' : Env} {v : Int}
    (h : (Term.comparison c a b).run ρ (.value v ρ')) (hs : s.Covers ρ') :
    Decides s (.comparison c a b) ρ v ρ'
  | not {a : Term} {ρ ρ' : Env} {x : Int} (h : Decides s a ρ x ρ') :
    Decides s (.not a) ρ (decide (x = 0)).toInt ρ'
  | goesOn {conj : Bool} {a b : Term} {ρ ρ₁ ρ' : Env} {x y : Int} (hl : Decides s a ρ x ρ₁)
    (hx : decide (x ≠ 0) = conj) (hr : Decides s b ρ₁ y ρ') :
    Decides s (.logical conj a b) ρ (decide (y ≠ 0)).toInt ρ'
  | stops {conj : Bool} {a b : Term} {ρ ρ' : Env} {x : Int} (hl : Decides s a ρ x ρ')
    (hx : decide (x ≠ 0) ≠ conj) : Decides s (.logical conj a b) ρ (!conj).toInt ρ'

namespace Decides

variable {s s' : Store} {t : Term} {ρ ρ' : Env} {v : Int}

theorem run (h : Decides s t ρ v ρ') : t.run ρ (.value v ρ') := by
  induction h with
  | value ht h hs => exact h
  | comparison h hs => exact h
  | not h ih => exact Run.bind_value.mpr ⟨_, _, ih, Run.pure_value.mpr ⟨rfl, rfl⟩⟩
  | goesOn hl hx hr ihl ihr =>
    refine Run.bind_value.mpr ⟨_, _, ihl, ?_⟩
    rw [if_pos hx]
    exact Run.bind_value.mpr ⟨_, _, ihr, Run.pure_value.mpr ⟨rfl, rfl⟩⟩
  | stops hl hx ihl =>
    refine Run.bind_value.mpr ⟨_, _, ihl, ?_⟩
    rw [if_neg hx]
    exact Run.pure_value.mpr ⟨rfl, rfl⟩

theorem keeps (h : Decides s t ρ v ρ') {k : Key} (hk : k ∉ t.assigns) : ρ' k = ρ k :=
  Term.run_keeps hk h.run

/-- Another store will do if it allows the same environments, as far as they differ from the first one only
in what the condition assigns. -/
theorem transport (h : Decides s t ρ v ρ')
    (hs : ∀ τ, s.Covers τ → (∀ k ∉ t.assigns, τ k = ρ k) → s'.Covers τ) : Decides s' t ρ v ρ' := by
  induction h with
  | value ht h hc => exact .value ht h (hs _ hc fun k hk => Term.run_keeps hk h)
  | comparison h hc => exact .comparison h (hs _ hc fun k hk => Term.run_keeps hk h)
  | not h ih => exact .not (ih hs)
  | goesOn hl hx hr ihl ihr =>
    refine .goesOn (ihl fun τ hτ heq => hs τ hτ fun k hk => ?_) hx (ihr fun τ hτ heq => hs τ hτ fun k hk => ?_)
    · exact heq k fun hl => hk (List.mem_append_left _ hl)
    · have hr : τ k = _ := heq k fun hr => hk (List.mem_append_right _ hr)
      exact hr.trans (hl.keeps fun hl => hk (List.mem_append_left _ hl))
  | stops hl hx ihl =>
    refine .stops (ihl fun τ hτ heq => hs τ hτ fun k hk => ?_) hx
    exact heq k fun hl => hk (List.mem_append_left _ hl)

theorem mono (h : Decides s t ρ v ρ') (hs : ∀ τ, s.Covers τ → s'.Covers τ) : Decides s' t ρ v ρ' :=
  h.transport fun τ hτ _ => hs τ hτ

end Decides

namespace Comparison

theorem refine_top (c : Comparison) (a : Sign) : c.refine a .top = a := by cases c <;> cases a <;> rfl

theorem refine_top_ne_bottom (c : Comparison) {a : Sign} : a ≠ .bottom → c.refine .top a ≠ .bottom := by
  cases c <;> cases a <;> decide

end Comparison

namespace Store

variable {s : Store} {c : Comparison} {a : Sign} {key : Option Key}

theorem refine_top_right (hs : s.isReachable = true) (ha : a ≠ .bottom) :
    (s.refine c key (some a) none (some .top)).1 = s.bindAt key a := by
  have hb : ¬(c.refine a .top = .bottom ∨ c.flip.refine .top a = .bottom) := by
    rw [c.refine_top, not_or]
    exact ⟨ha, c.flip.refine_top_ne_bottom ha⟩
  rw [refine_fst hs, outcome, if_neg hb, c.refine_top]
  rfl

theorem refine_top_left (hs : s.isReachable = true) (ha : a ≠ .bottom) :
    (s.refine c none (some .top) key (some a)).1 = s.bindAt key a := by
  have hb : ¬(c.refine .top a = .bottom ∨ c.flip.refine a .top = .bottom) := by
    rw [c.flip.refine_top, not_or]
    exact ⟨c.refine_top_ne_bottom ha, ha⟩
  rw [refine_fst hs, outcome, if_neg hb, c.flip.refine_top]
  rfl

end Store

theorem Expr.fact_ne_bottom {e : Expr} {s : Store} (hs : s.isReachable = true) {a : Sign}
    (hf : e.fact s = .ok (some a)) : a ≠ .bottom :=
  (Eval.factOf_possible e.meaning_live.value hs hf).sign

namespace Reads

variable {e l r : Expr} {t a b : Term} {s s' : Store} {ρ ρ' σ : Env} {v x y : Int} {f : Fact}

theorem hasEffects (h : Reads e t) (hp : t.isPure = false) : e.hasEffects = true := by
  have left : ∀ {pos : Nat} {t : Token} {l r : Expr}, l.hasEffects = true →
      (Expr.node pos t l r).hasEffects = true := by
    intro pos t l r hl
    simp [Expr.hasEffects, hl]
  have right : ∀ {pos : Nat} {t : Token} {l r : Expr}, r.hasEffects = true →
      (Expr.node pos t l r).hasEffects = true := by
    intro pos t l r hr
    simp [Expr.hasEffects, hr]
  induction h with
  | literal | var => cases hp
  | arithmetic ht type hl hr ihl ihr | comparison ht type hl hr ihl ihr | logical ht type hl hr ihl ihr
  | comma ht type hl hr ihl ihr =>
    rcases Bool.and_eq_false_iff.mp hp with hp | hp
    · exact left (ihl hp)
    · exact right (ihr hp)
  | assign ht => simp [Expr.hasEffects, ht.text_eq, Expr.assignments]
  | @compound _ _ op _ _ _ _ ht =>
    cases op <;> simp [Expr.hasEffects, ht.text_eq, Expr.assignments, Operator.symbol]
  | @stepBefore _ _ up _ _ ht | @stepAfter _ _ up _ _ ht =>
    cases up <;> simp [Expr.hasEffects, ht.text_eq, Expr.steps]
  | minus ht type hl ihl | plus ht type hl ihl | not ht type hl ihl => exact left (ihl hp)
  | conditional ht type hc hv hl hy hn ihl ihy ihn =>
    rcases Bool.and_eq_false_iff.mp hp with hp | hp
    · rcases Bool.and_eq_false_iff.mp hp with hp | hp
      · exact left (ihl hp)
      · exact right (left (ihy hp))
    · exact right (right (ihn hp))

theorem fact_of_effects (h : Reads e t) (hp : t.isPure = false) (s : Store) :
    e.fact s = .ok (some .top) := by
  rw [Expr.fact, Eval.factOf, if_pos (h.hasEffects hp), if_pos h.isNumeric]

theorem key?_of_effects (h : Reads e t) (hp : t.isPure = false) : e.key? = none := by
  refine h.key?_of_unnamed ?_
  cases t with
  | var => cases hp
  | _ => rfl

theorem fact_covers (h : Reads e t) (hrun : t.run ρ (.value v ρ')) (hs : s.Covers ρ')
    (hf : e.fact s = .ok f) : f.Covers v := by
  cases hp : t.isPure with
  | true =>
    obtain rfl := Term.run_still hp hrun
    exact Sound.fact (h.sound_of_isPure hp).value h hs hrun hf
  | false =>
    rw [h.fact_of_effects hp s] at hf
    cases hf
    exact ⟨.top, rfl, Sign.covers_top v⟩

/-- The fact of a variable's own token is what the store says of the variable. -/
theorem key_covers (h : Reads e t) (hs : s.Covers σ) {a : Sign} (hf : e.fact s = .ok (some a)) :
    ∀ k ∈ e.key?, a.Covers (σ k) := by
  intro k hk
  obtain rfl := h.key hk
  have hrun : (Term.var k).run σ (.value (σ k) σ) := Run.read_value.mpr ⟨rfl, rfl⟩
  exact (h.fact_covers hrun hs hf).sign

theorem bindAt_covers (h : Reads e t) (hs : s.Covers σ) {a : Sign} (hf : e.fact s = .ok (some a)) :
    (s.bindAt e.key? a).Covers σ := by
  have hcov := h.key_covers hs hf
  cases hk : e.key? with
  | none => exact hs
  | some k => exact hs.bind_self (hcov k hk)

/-- A term that is tested by its value: of what it ended with, only the variable it is may be told. -/
theorem value_assume_covers (h : Reads e t) (ht : t.isValue = true) (hrun : t.run ρ (.value v ρ'))
    (hs : s.Covers ρ') (hσ : s.Covers σ) (heq : ∀ k ∈ t.tells, σ k = ρ' k)
    (he : e.assume (decide (v ≠ 0)) s = .ok s') : s'.Covers σ := by
  rw [h.assume_value ht hs.isReachable] at he
  rcases Eval.compareWith_cases he with rfl | ⟨a, hf, rfl⟩
  · exact hσ
  have hkey : ∀ k ∈ e.key?, σ k = v := by
    intro k hk
    obtain rfl := h.key hk
    obtain ⟨rfl, rfl⟩ := Run.read_value.mp hrun
    exact heq k (List.mem_singleton_self k)
  refine hσ.refine (h.fact_covers hrun hs hf).sign (Sign.covers_ofInt 0) hkey (by simp) ?_
  by_cases hv : v = 0 <;> simp [hv, Comparison.holds]

theorem compare_pure_covers {c d : Comparison} (rl : Reads l a) (rr : Reads r b) (ha : a.isPure = true)
    (hb : b.isPure = true) (hx : a.run ρ (.value x ρ)) (hy : b.run ρ (.value y ρ)) (hs : s.Covers ρ)
    (hσ : s.Covers σ) (heq : ∀ k ∈ (Term.comparison d a b).tells, σ k = ρ k)
    (hc : c.holds x y = true) (he : Eval.compare c l r l.eval r.eval s = .ok s') : s'.Covers σ := by
  rcases Eval.compare_cases he with rfl | ⟨sx, sy, hf, hg, rfl⟩
  · exact hσ
  have hkl : ∀ k ∈ l.key?, σ k = x := by
    intro k hk
    rw [← Sound.key rl hx k hk]
    obtain rfl := rl.key hk
    exact heq k (by simp [Term.tells, ha, hb, Term.name?])
  have hkr : ∀ k ∈ r.key?, σ k = y := by
    intro k hk
    rw [← Sound.key rr hy k hk]
    obtain rfl := rr.key hk
    exact heq k (by simp [Term.tells, ha, hb, Term.name?])
  exact hσ.refine (rl.fact_covers hx hs hf).sign (rr.fact_covers hy hs hg).sign hkl hkr hc

/-- If one side assigns, it may have any sign, and the comparison tells nothing of the other. -/
theorem compare_effects_covers {c : Comparison} (rl : Reads l a) (rr : Reads r b)
    (hp : (a.isPure && b.isPure) = false) (hσ : s.Covers σ)
    (he : Eval.compare c l r l.eval r.eval s = .ok s') : s'.Covers σ := by
  rcases Eval.compare_cases he with rfl | ⟨sx, sy, hf, hg, rfl⟩
  · exact hσ
  rcases Bool.and_eq_false_iff.mp hp with ha | hb
  · cases hf.symm.trans (rl.fact_of_effects ha s)
    rw [rl.key?_of_effects ha, Store.refine_top_left hσ.isReachable (Expr.fact_ne_bottom hσ.isReachable hg)]
    exact rr.bindAt_covers hσ hg
  · cases hg.symm.trans (rr.fact_of_effects hb s)
    rw [rr.key?_of_effects hb, Store.refine_top_right hσ.isReachable (Expr.fact_ne_bottom hσ.isReachable hf)]
    exact rl.bindAt_covers hσ hf

theorem comparison_assume_covers {pos : Nat} {t : Token} {c : Comparison} (ht : t.IsOperator c.symbol)
    (rl : Reads l a) (rr : Reads r b) (hrun : (Term.comparison c a b).run ρ (.value v ρ'))
    (hs : s.Covers ρ') (hσ : s.Covers σ) (heq : ∀ k ∈ (Term.comparison c a b).tells, σ k = ρ' k)
    (he : (Expr.node pos t l r).assume (decide (v ≠ 0)) s = .ok s') : s'.Covers σ := by
  have hb := Expr.binaryOf?_comparison rl.isAbsent rr.isAbsent ht.text_eq
  rw [Expr.assume_comparison ht.text_eq hb hσ.isReachable] at he
  cases hp : (a.isPure && b.isPure) with
  | false => exact compare_effects_covers rl rr hp hσ he
  | true =>
    obtain ⟨ha, hb⟩ := Bool.and_eq_true_iff.mp hp
    obtain ⟨x, ρ₁, hx, hrest⟩ := Run.bind_value.mp hrun
    obtain ⟨y, ρ₂, hy, hlast⟩ := Run.bind_value.mp hrest
    obtain ⟨rfl, rfl⟩ := Run.pure_value.mp hlast
    obtain rfl := Term.run_still hb hy
    obtain rfl := Term.run_still ha hx
    refine compare_pure_covers rl rr ha hb hx hy hs hσ heq ?_ he
    cases h : c.holds x y <;> simp [h, Comparison.holds_negate]

end Reads

/-- Assuming the outcome of a run keeps each environment the store allows that agrees with where the run
ended on what the outcome tells. -/
def Expr.Assumes (e : Expr) (t : Term) : Prop :=
  ∀ ⦃s s' : Store⦄ ⦃ρ ρ' σ : Env⦄ ⦃v : Int⦄, Decides s t ρ v ρ' → s.Covers σ →
    (∀ k ∈ t.tells, σ k = ρ' k) → e.assume (decide (v ≠ 0)) s = .ok s' → s'.Covers σ

namespace Expr.Assumes

variable {pos : Nat} {t : Token} {l r : Expr} {a b : Term}

theorem of_value {e : Expr} (h : Reads e a) (ha : a.isValue = true) : e.Assumes a := by
  intro s s' ρ ρ' σ v hd hσ heq he
  cases hd with
  | value _ hrun hs => exact h.value_assume_covers ha hrun hs hσ heq he
  | comparison | not | goesOn | stops => cases ha

theorem comparison {c : Comparison} (ht : t.IsOperator c.symbol) (rl : Reads l a) (rr : Reads r b) :
    (Expr.node pos t l r).Assumes (.comparison c a b) := by
  intro s s' ρ ρ' σ v hd hσ heq he
  cases hd with
  | value ha => cases ha
  | comparison hrun hs => exact Reads.comparison_assume_covers ht rl rr hrun hs hσ heq he

theorem not (ht : t.IsOperator "!") (rl : Reads l a) (hl : l.Assumes a) :
    (Expr.node pos t l .absent).Assumes (.not a) := by
  intro s s' ρ ρ' σ v hd hσ heq he
  cases hd with
  | value ha => cases ha
  | @not _ _ _ x hd =>
    rw [Expr.assume_not ht.text_eq rl.isAbsent hσ.isReachable] at he
    refine hl hd hσ heq (Eq.trans ?_ he)
    by_cases h : x = 0 <;> simp [h]

/-- The left side goes on: what the right side assigns is not told by the left one, so neither is anything
where the right side was decided. -/
theorem goesOn (hl : l.Assumes a) {conj : Bool} {s taken : Store} {ρ ρ₁ ρ' : Env} {x y : Int}
    (hstable : ∀ k ∈ a.tells, k ∉ b.assigns) (hx : Decides s a ρ x ρ₁) (hgo : decide (x ≠ 0) = conj)
    (hy : Decides s b ρ₁ y ρ') (he : l.assume conj s = .ok taken) :
    Decides taken b ρ₁ y ρ' ∧
      ∀ ⦃σ : Env⦄, s.Covers σ → (∀ k ∈ a.tells, σ k = ρ' k) → taken.Covers σ := by
  rw [← hgo] at he
  refine ⟨hy.transport fun τ hτ heq => ?_, fun σ hσ heq => ?_⟩
  · exact hl hx hτ (fun k hk => heq k (hstable k hk)) he
  · exact hl hx hσ (fun k hk => (heq k hk).trans (hy.keeps (hstable k hk))) he

theorem logical {conj : Bool} (ht : t.IsOperator (if conj then "&&" else "||")) (rl : Reads l a)
    (rr : Reads r b) (hstable : ∀ k ∈ a.tells, k ∉ b.assigns) (hl : l.Assumes a) (hr : r.Assumes b) :
    (Expr.node pos t l r).Assumes (.logical conj a b) := by
  intro s s' ρ ρ' σ v hd hσ heq he
  rw [Expr.assume_logical ht.text_eq rl.isAbsent rr.isAbsent hσ.isReachable] at he
  have heql : ∀ k ∈ a.tells, σ k = ρ' k := fun k hk => heq k (List.mem_append_left _ hk)
  have heqr : ∀ k ∈ b.tells, σ k = ρ' k := fun k hk => heq k (List.mem_append_right _ hk)
  obtain ⟨first, hfirst, hrest⟩ := Eval.logical_cases he
  cases hd with
  | value ha => cases ha
  | @goesOn _ _ _ _ _ _ x y hx hgo hy =>
    have hv : decide ((decide (y ≠ 0)).toInt ≠ 0) = decide (y ≠ 0) := by cases decide (y ≠ 0) <;> rfl
    rw [hv] at hfirst hrest
    rcases hrest with ⟨rfl, hlast⟩ | ⟨hne, other, second, hother, hsecond, rfl⟩
    · -- both sides have the outcome
      obtain ⟨hy', hcov⟩ := hl.goesOn hstable hx hgo hy hfirst
      exact hr hy' (hcov hσ heql) heqr hlast
    · -- the left side went on, the right one decided
      rw [← Bool.eq_not.mpr hne] at hother
      obtain ⟨hy', hcov⟩ := hl.goesOn hstable hx hgo hy hother
      exact (hr hy' (hcov hσ heql) heqr hsecond).join_right first
  | @stops _ _ _ _ _ x hx hgo =>
    -- the left side decided
    have hv : decide ((!conj).toInt ≠ 0) = decide (x ≠ 0) := by
      rw [Bool.eq_not.mpr hgo]
      cases conj <;> rfl
    rw [hv] at hfirst hrest
    obtain ⟨-, other, second, -, -, rfl⟩ := hrest.resolve_left fun h => hgo h.1.symm
    exact (hl hx hσ heql hfirst).join_left second

end Expr.Assumes

theorem Reads.assumes {e : Expr} {t : Term} (h : Reads e t) (hst : t.isStable = true) : e.Assumes t := by
  induction h with
  | not ht type hl ihl => exact .not ht hl (ihl hst)
  | comparison ht type hl hr => exact .comparison ht hl hr
  | logical ht type hl hr ihl ihr =>
    simp only [Term.isStable, Bool.and_eq_true, List.all_eq_true, Bool.not_eq_true',
      List.contains_eq_mem, decide_eq_false_iff_not] at hst
    exact .logical ht hl hr hst.2 (ihl hst.1.1) (ihr hst.1.2)
  | literal ht => exact .of_value (.literal ht) rfl
  | var ht => exact .of_value (.var ht) rfl
  | arithmetic ht type hl hr => exact .of_value (.arithmetic ht type hl hr) rfl
  | assign ht type hl hr => exact .of_value (.assign ht type hl hr) rfl
  | compound ht type hl hr => exact .of_value (.compound ht type hl hr) rfl
  | stepBefore ht type hl => exact .of_value (.stepBefore ht type hl) rfl
  | stepAfter ht type hr => exact .of_value (.stepAfter ht type hr) rfl
  | minus ht type hl => exact .of_value (.minus ht type hl) rfl
  | plus ht type hl => exact .of_value (.plus ht type hl) rfl
  | conditional ht type hc hv hl hy hn => exact .of_value (.conditional ht type hc hv hl hy hn) rfl
  | comma ht type hl hr => exact .of_value (.comma ht type hl hr) rfl

end SignFlow

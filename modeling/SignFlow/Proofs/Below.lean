import SignFlow.Proofs.Faults
import SignFlow.Proofs.StoreOrder

/-! Two runs side by side.

One run starts with a smaller store than the other. It stays below the other if, wherever the other
returns, it returns too, with a smaller value and a smaller store. -/

namespace SignFlow

theorem Sign.convert_mono {a b : Sign} (h : a ≤ b) (src dst : ValueType) :
    a.convert src dst ≤ b.convert src dst := by
  unfold convert convertIntegral
  revert h
  by_cases hn : (!dst.isNumeric) = true
  · simp only [if_pos hn, ite_self]
    exact id
  by_cases hb : dst.base = .bool
  · simp only [if_neg hn, if_pos hb]
    cases a <;> cases b <;> decide
  by_cases hi : (!dst.isIntegral) = true
  · simp only [if_neg hn, if_neg hb, if_pos hi, ite_self]
    exact id
  by_cases hs : (!src.isIntegral) = true
  · simp only [if_neg hn, if_neg hb, if_neg hi, if_pos hs]
    cases a <;> cases b <;> decide
  simp only [if_neg hn, if_neg hb, if_neg hi, if_neg hs]
  by_cases hr : dst.base.rank < src.base.rank
  · simp only [if_pos hr]
    cases a <;> cases b <;> decide
  simp only [if_neg hr]
  by_cases hu : (dst.unsigned && !src.unsigned) = true
  · simp only [if_pos hu]
    cases a <;> cases b <;> decide
  simp only [if_neg hu]
  generalize (!dst.unsigned && src.unsigned && dst.base.rank == src.base.rank) = turns
  cases turns <;> cases a <;> cases b <;> decide

/-- Facts are compared if both have a sign; of an untracked value nothing more can be known. -/
inductive Fact.Le : Fact → Fact → Prop
  | none : Fact.Le none none
  | some {a b : Sign} (h : a ≤ b) : Fact.Le (some a) (some b)

namespace Fact.Le

variable {f g : Fact}

theorem refl (f : Fact) : Fact.Le f f := by
  cases f with
  | none => exact .none
  | some a => exact .some (Sign.le_refl a)

theorem sign {a b : Sign} (h : Fact.Le (.some a) (.some b)) : a ≤ b := by
  cases h
  assumption

theorem convert (h : f.Le g) (src dst : Option ValueType) :
    (f.convert src dst).Le (g.convert src dst) := by
  cases h with
  | none => exact .none
  | some h =>
    cases src with
    | none => exact .some h
    | some src =>
      cases dst with
      | none => exact .some h
      | some dst => exact .some (Sign.convert_mono h src dst)

instance : (f g : Fact) → Decidable (f.Le g)
  | .none, .none => isTrue .none
  | .some _, .some _ => decidable_of_iff _ ⟨.some, sign⟩
  | .none, .some _ => isFalse nofun
  | .some _, .none => isFalse nofun

theorem fit (h : f.Le g) (type : Option ValueType) : (f.fit type).Le (g.fit type) := by
  cases h with
  | none => exact .none
  | @some a b h =>
    revert h
    unfold Fact.fit
    generalize type.any ValueType.staysUnsigned = u
    cases u <;> cases a <;> cases b <;> decide

theorem narrow (h : f.Le g) (type : Option ValueType) : (f.narrow type).Le (g.narrow type) := by
  cases h with
  | none => exact .none
  | @some a b h =>
    revert h
    unfold Fact.narrow Fact.fit
    generalize type.any ValueType.staysUnsigned = u
    generalize type.any isNarrow = n
    cases n <;> cases u <;> cases a <;> cases b <;> decide

end Fact.Le

/-- Where the larger result is there, the smaller one is, and they are related. -/
def Fault.Below {α : Type} (rel : α → α → Prop) (x y : Except Fault α) : Prop :=
  ∀ ⦃b⦄, y = .ok b → ∃ a, x = .ok a ∧ rel a b

theorem Fault.Below.refl {α : Type} {rel : α → α → Prop} (h : ∀ a, rel a a) (x : Except Fault α) :
    Fault.Below rel x x := fun b hb => ⟨b, hb, h b⟩

theorem Fault.Below.ok {α : Type} {rel : α → α → Prop} {a b : α} (h : rel a b) :
    Fault.Below rel (.ok a) (.ok b) := by
  intro b' hb
  cases hb
  exact ⟨a, rfl, h⟩

theorem Fault.Below.bind {α β : Type} {rel : α → α → Prop} {rel' : β → β → Prop} {x y : Except Fault α}
    {f g : α → Except Fault β} (hx : Fault.Below rel x y)
    (hf : ∀ a b, x = .ok a → rel a b → Fault.Below rel' (f a) (g b)) :
    Fault.Below rel' (x >>= f) (y >>= g) := by
  cases y with
  | error e => exact fun _ h => nomatch h
  | ok b =>
    obtain ⟨a, rfl, hab⟩ := hx rfl
    exact hf a b rfl hab

/-- What both compute first may be the same. -/
theorem Fault.Below.bind_same {α β : Type} {rel : β → β → Prop} {x : Except Fault α}
    {f g : α → Except Fault β} (hf : ∀ a, Fault.Below rel (f a) (g a)) :
    Fault.Below rel (x >>= f) (x >>= g) := by
  cases x with
  | error e => exact fun _ h => nomatch h
  | ok a => exact hf a

/-- A larger result that fails for certain faults only fails for one of them, or both are there. -/
theorem Fault.Below.fails_or {α : Type} {rel : α → α → Prop} {x y : Except Fault α} {P : Fault → Prop}
    (h : Fault.Below rel x y) (hy : Fault.Only P y) :
    (∃ f, P f ∧ y = .error f) ∨ ∃ a b, x = .ok a ∧ y = .ok b ∧ rel a b := by
  cases y with
  | error f => exact .inl ⟨f, hy rfl, rfl⟩
  | ok b =>
    obtain ⟨a, ha, hab⟩ := h rfl
    exact .inr ⟨a, b, ha, rfl, hab⟩

/-- The run stays below the other. -/
def Outcome.Below {α : Type} (rel : α → α → Prop) (o₁ o₂ : Outcome α) : Prop :=
  ∀ ⦃b⦄, o₂.value = .ok b → ∃ a, o₁.value = .ok a ∧ rel a b ∧ o₁.store ≤ o₂.store

namespace Outcome.Below

variable {α β : Type} {rel : α → α → Prop} {rel' : β → β → Prop} {s₁ s₂ : Store}

theorem pure {a b : α} (hs : s₁ ≤ s₂) (h : rel a b) :
    Below rel ((Pure.pure a : Walk α) s₁) ((Pure.pure b : Walk α) s₂) := by
  intro b' hb
  cases hb
  exact ⟨a, rfl, h, hs⟩

/-- Runs can go on from where they stand. What the smaller one has returned may be used. -/
theorem bind {x y : Walk α} {f g : α → Walk β} (hx : Below rel (x s₁) (y s₂))
    (hf : ∀ a b, (x s₁).value = .ok a → rel a b → (x s₁).store ≤ (y s₂).store →
      Below rel' (f a (x s₁).store) (g b (y s₂).store)) :
    Below rel' ((x >>= f) s₁) ((y >>= g) s₂) := by
  intro d hd
  cases hy : (y s₂).value with
  | error e =>
    rw [Walk.bind_of_error hy] at hd
    cases hd
  | ok b =>
    obtain ⟨a, ha, hab, hs⟩ := hx hy
    rw [Walk.bind_of_ok hy] at hd ⊢
    rw [Walk.bind_of_ok ha]
    exact hf a b ha hab hs hd

theorem store (hs : s₁ ≤ s₂) : Below (fun s t => s ≤ t) (Walk.store s₁) (Walk.store s₂) := by
  intro t ht
  cases ht
  exact ⟨s₁, rfl, hs, hs⟩

theorem change {g h : Store → Store} (hs : g s₁ ≤ h s₂) :
    Below (fun _ _ => True) (Walk.change g s₁) (Walk.change h s₂) :=
  fun _ _ => ⟨(), rfl, trivial, hs⟩

theorem note {site site' : Site} (hs : s₁ ≤ s₂) :
    Below (fun _ _ => True) (Walk.note site s₁) (Walk.note site' s₂) :=
  fun _ _ => ⟨(), rfl, trivial, hs⟩

theorem lift {x y : Except Fault α} (hs : s₁ ≤ s₂) (h : Fault.Below rel x y) :
    Below rel (Walk.lift x s₁) (Walk.lift y s₂) := by
  intro b hb
  obtain ⟨a, ha, hab⟩ := h hb
  exact ⟨a, ha, hab, hs⟩

theorem aside {x y : Walk α} {t₁ t₂ : Store} (hs : s₁ ≤ s₂) (h : Below rel (x t₁) (y t₂)) :
    Below (fun p q : α × Store => rel p.1 q.1 ∧ p.2 ≤ q.2) (Walk.aside t₁ x s₁)
      (Walk.aside t₂ y s₂) := by
  intro q hq
  have hq : (y t₂).value.map (fun b => (b, (y t₂).store)) = .ok q := hq
  cases hy : (y t₂).value with
  | error e =>
    rw [hy] at hq
    cases hq
  | ok b =>
    rw [hy] at hq
    cases hq
    obtain ⟨a, ha, hab, hst⟩ := h hy
    exact ⟨(a, (x t₁).store), congrArg (Except.map _) ha, ⟨hab, hst⟩, hs⟩

theorem ite {c : Prop} [Decidable c] {x y x' y' : Walk α} (hx : c → Below rel (x s₁) (y s₂))
    (hx' : ¬c → Below rel (x' s₁) (y' s₂)) :
    Below rel ((if c then x else x') s₁) ((if c then y else y') s₂) := by
  by_cases hc : c
  · simpa only [if_pos hc] using hx hc
  · simpa only [if_neg hc] using hx' hc

theorem assignTo (target : Expr) {f g : Fact} (hs : s₁ ≤ s₂) (h : f.Le g) :
    Below (fun _ _ => True) (Walk.assignTo target f s₁) (Walk.assignTo target g s₂) := by
  unfold Walk.assignTo
  match target.key? with
  | none => exact pure hs trivial
  | some k =>
    cases h with
    | none => exact change (Store.forget_mono hs)
    | some h => exact ite (fun _ => change (Store.bind_mono hs h)) fun _ => change (Store.forget_mono hs)

theorem forgetTarget (target : Expr) (hs : s₁ ≤ s₂) :
    Below (fun _ _ => True) (Walk.forgetTarget target s₁) (Walk.forgetTarget target s₂) := by
  unfold Walk.forgetTarget
  match target.key? with
  | none => exact pure hs trivial
  | some k => exact change (Store.forget_mono hs)

end Outcome.Below

end SignFlow

import Mathlib.Logic.Function.Basic
import SignFlow.Number.Basic
import SignFlow.Proofs.Lookup
import SignFlow.Sign.Operator
import SignFlow.Store.Refine

/-! What signs and stores say about integers.

A sign covers the integers it stands for, a store the environments whose every value is covered. Each
operation on signs or stores covers what the same operation does to the integers behind them. -/

namespace SignFlow

/-- A value for every variable. -/
abbrev Env := Key → Int

namespace Sign

def Covers (s : Sign) (n : Int) : Prop := s.admits (.int n) = true

instance (s : Sign) (n : Int) : Decidable (s.Covers n) :=
  inferInstanceAs (Decidable (s.admits (.int n) = true))

theorem covers_iff {s : Sign} {n : Int} : s.Covers n ↔ ofInt n ≤ s := Iff.rfl

theorem le_refl (a : Sign) : a ≤ a := by cases a <;> decide

theorem le_trans {a b c : Sign} : a ≤ b → b ≤ c → a ≤ c := by
  cases a <;> cases b <;> cases c <;> decide

theorem le_join_left (a b : Sign) : a ≤ a.join b := by cases a <;> cases b <;> decide

theorem le_join_right (a b : Sign) : b ≤ a.join b := by cases a <;> cases b <;> decide

theorem le_top (a : Sign) : a ≤ top := by cases a <;> decide

theorem le_meet {a b c : Sign} : c ≤ a → c ≤ b → c ≤ a.meet b := by
  cases a <;> cases b <;> cases c <;> decide

theorem Covers.mono {a b : Sign} {n : Int} (h : a.Covers n) (hab : a ≤ b) : b.Covers n :=
  le_trans h hab

@[simp] theorem covers_top (n : Int) : top.Covers n := le_top _

theorem covers_ofInt (n : Int) : (ofInt n).Covers n := le_refl _

theorem ofInt_ne_bottom (n : Int) : ofInt n ≠ bottom := by
  unfold ofInt
  split_ifs <;> decide

@[simp] theorem not_covers_bottom (n : Int) : ¬bottom.Covers n := by
  rw [covers_iff]
  have := ofInt_ne_bottom n
  revert this
  cases ofInt n <;> decide

theorem Covers.ne_bottom {s : Sign} {n : Int} (h : s.Covers n) : s ≠ bottom := by
  rintro rfl
  exact not_covers_bottom n h

/-- Only zero and anything cover zero. -/
theorem Covers.mayBeZero {s : Sign} (h : s.Covers 0) : s.mayBeZero = true := by
  revert h
  cases s <;> decide

theorem ofInt_zero : ofInt 0 = zero := rfl

theorem ofInt_pos {n : Int} (h : 0 < n) : ofInt n = pos := by
  simp only [ofInt, if_neg (ne_of_gt h), if_pos h]

theorem ofInt_neg {n : Int} (h : n < 0) : ofInt n = neg := by
  simp only [ofInt, if_neg (ne_of_lt h), if_neg (not_lt.mpr (Int.le_of_lt h))]

@[simp] theorem covers_neg {n : Int} : neg.Covers n ↔ n < 0 := by
  rw [covers_iff]
  rcases lt_trichotomy n 0 with h | rfl | h
  · rw [ofInt_neg h]; exact iff_of_true (by decide) h
  · decide
  · rw [ofInt_pos h]; exact iff_of_false (by decide) (by omega)

@[simp] theorem covers_zero {n : Int} : zero.Covers n ↔ n = 0 := by
  rw [covers_iff]
  rcases lt_trichotomy n 0 with h | rfl | h
  · rw [ofInt_neg h]; exact iff_of_false (by decide) (by omega)
  · decide
  · rw [ofInt_pos h]; exact iff_of_false (by decide) (by omega)

@[simp] theorem covers_pos {n : Int} : pos.Covers n ↔ 0 < n := by
  rw [covers_iff]
  rcases lt_trichotomy n 0 with h | rfl | h
  · rw [ofInt_neg h]; exact iff_of_false (by decide) (by omega)
  · decide
  · rw [ofInt_pos h]; exact iff_of_true (by decide) h

@[simp] theorem covers_nonzero {n : Int} : nonzero.Covers n ↔ n ≠ 0 := by
  rw [covers_iff]
  rcases lt_trichotomy n 0 with h | rfl | h
  · rw [ofInt_neg h]; exact iff_of_true (by decide) (by omega)
  · decide
  · rw [ofInt_pos h]; exact iff_of_true (by decide) (by omega)

theorem negate_ofInt (n : Int) : (ofInt n).negate = ofInt (-n) := by
  rcases lt_trichotomy n 0 with h | rfl | h
  · rw [ofInt_neg h, ofInt_pos (by omega)]; rfl
  · rfl
  · rw [ofInt_pos h, ofInt_neg (by omega)]; rfl

theorem negate_mono {a b : Sign} : a ≤ b → a.negate ≤ b.negate := by
  cases a <;> cases b <;> decide

theorem add_mono {a a' b b' : Sign} (ha : a ≤ a') (hb : b ≤ b') : a.add b ≤ a'.add b' := by
  have left : ∀ {a a' : Sign} (b : Sign), a ≤ a' → a.add b ≤ a'.add b := by
    intro a a' b; cases a <;> cases a' <;> cases b <;> decide
  have right : ∀ {b b' : Sign} (a : Sign), b ≤ b' → a.add b ≤ a.add b' := by
    intro b b' a; cases a <;> cases b <;> cases b' <;> decide
  exact le_trans (left b ha) (right a' hb)

theorem mul_mono {a a' b b' : Sign} (ha : a ≤ a') (hb : b ≤ b') : a.mul b ≤ a'.mul b' := by
  have left : ∀ {a a' : Sign} (b : Sign), a ≤ a' → a.mul b ≤ a'.mul b := by
    intro a a' b; cases a <;> cases a' <;> cases b <;> decide
  have right : ∀ {b b' : Sign} (a : Sign), b ≤ b' → a.mul b ≤ a.mul b' := by
    intro b b' a; cases a <;> cases b <;> cases b' <;> decide
  exact le_trans (left b ha) (right a' hb)

theorem div_mono {a a' b b' : Sign} (ha : a ≤ a') (hb : b ≤ b') : a.div b ≤ a'.div b' := by
  have left : ∀ {a a' : Sign} (b : Sign), a ≤ a' → a.div b ≤ a'.div b := by
    intro a a' b; cases a <;> cases a' <;> cases b <;> decide
  have right : ∀ {b b' : Sign} (a : Sign), b ≤ b' → a.div b ≤ a.div b' := by
    intro b b' a; cases a <;> cases b <;> cases b' <;> decide
  exact le_trans (left b ha) (right a' hb)

theorem Covers.negate {a : Sign} {x : Int} (h : a.Covers x) : a.negate.Covers (-x) := by
  rw [covers_iff] at h ⊢
  rw [← negate_ofInt]
  exact negate_mono h

theorem Covers.add {a b : Sign} {x y : Int} (ha : a.Covers x) (hb : b.Covers y) :
    (a.add b).Covers (x + y) := by
  rw [covers_iff] at ha hb ⊢
  refine le_trans ?_ (add_mono ha hb)
  rcases lt_trichotomy x 0 with hx | rfl | hx <;> rcases lt_trichotomy y 0 with hy | rfl | hy
  · rw [ofInt_neg hx, ofInt_neg hy, ofInt_neg (by omega)]; decide
  · rw [ofInt_neg hx, ofInt_zero, Int.add_zero, ofInt_neg hx]; decide
  · rw [ofInt_neg hx, ofInt_pos hy]; exact le_top _
  · rw [ofInt_neg hy, ofInt_zero, Int.zero_add, ofInt_neg hy]; decide
  · decide
  · rw [ofInt_pos hy, ofInt_zero, Int.zero_add, ofInt_pos hy]; decide
  · rw [ofInt_pos hx, ofInt_neg hy]; exact le_top _
  · rw [ofInt_pos hx, ofInt_zero, Int.add_zero, ofInt_pos hx]; decide
  · rw [ofInt_pos hx, ofInt_pos hy, ofInt_pos (by omega)]; decide

/-- The sign of an integer depends on nothing but its mathematical sign. -/
theorem ofInt_eq_of_sign {x y : Int} (h : x.sign = y.sign) : ofInt x = ofInt y := by
  rcases lt_trichotomy x 0 with hx | rfl | hx
  · rw [Int.sign_eq_neg_one_of_neg hx] at h
    rw [ofInt_neg hx, ofInt_neg (Int.sign_eq_neg_one_iff_neg.mp h.symm)]
  · rw [Int.sign_eq_zero_iff_zero.mp h.symm]
  · rw [Int.sign_eq_one_of_pos hx] at h
    rw [ofInt_pos hx, ofInt_pos (Int.sign_eq_one_iff_pos.mp h.symm)]

theorem ofInt_mul (x y : Int) : ofInt (x * y) = (ofInt x).mul (ofInt y) := by
  rcases lt_trichotomy x 0 with hx | rfl | hx <;> rcases lt_trichotomy y 0 with hy | rfl | hy
  · rw [ofInt_neg hx, ofInt_neg hy, ofInt_pos (mul_pos_of_neg_of_neg hx hy)]; rfl
  · rw [mul_zero, ofInt_neg hx]; rfl
  · rw [ofInt_neg hx, ofInt_pos hy, ofInt_neg (mul_neg_of_neg_of_pos hx hy)]; rfl
  · rw [zero_mul, ofInt_neg hy]; rfl
  · rfl
  · rw [zero_mul, ofInt_pos hy]; rfl
  · rw [ofInt_pos hx, ofInt_neg hy, ofInt_neg (mul_neg_of_pos_of_neg hx hy)]; rfl
  · rw [mul_zero, ofInt_pos hx]; rfl
  · rw [ofInt_pos hx, ofInt_pos hy, ofInt_pos (mul_pos hx hy)]; rfl

theorem Covers.mul {a b : Sign} {x y : Int} (ha : a.Covers x) (hb : b.Covers y) :
    (a.mul b).Covers (x * y) := by
  rw [covers_iff] at ha hb ⊢
  rw [ofInt_mul]
  exact mul_mono ha hb

/-- A quotient by something not zero has the sign of the product. -/
theorem Covers.div {a b : Sign} {x y v : Int} (ha : a.Covers x) (hb : b.Covers y) (hy : y ≠ 0)
    (hv : v.sign = x.sign * y.sign) : (a.div b).Covers v := by
  rw [covers_iff] at ha hb ⊢
  rw [← Int.sign_mul] at hv
  refine le_trans ?_ (div_mono ha hb)
  rw [ofInt_eq_of_sign hv, ofInt_mul]
  rcases lt_trichotomy y 0 with hy' | rfl | hy'
  · rw [ofInt_neg hy']
    cases ofInt x <;> decide
  · exact absurd rfl hy
  · rw [ofInt_pos hy']
    cases ofInt x <;> decide

end Sign

/-- `v` can be the result of the operation. A quotient or remainder by something not zero may be any
number with the sign of the exact quotient. -/
def Operator.Gives : Operator → Int → Int → Int → Prop
  | plus, x, y, v => v = x + y
  | minus, x, y, v => v = x - y
  | times, x, y, v => v = x * y
  | divide, x, y, v => y ≠ 0 ∧ v.sign = x.sign * y.sign
  | mod, x, y, v => y ≠ 0 ∧ v.sign = x.sign * y.sign

theorem Operator.Gives.covers {op : Operator} {a b : Sign} {x y v : Int} (h : op.Gives x y v)
    (ha : a.Covers x) (hb : b.Covers y) : (op.apply a b).Covers v := by
  cases op with
  | plus => obtain rfl := h; exact ha.add hb
  | minus =>
    obtain rfl := h
    rw [Int.sub_eq_add_neg]
    exact ha.add hb.negate
  | times => obtain rfl := h; exact ha.mul hb
  | divide => exact ha.div hb h.1 h.2
  | mod => exact ha.div hb h.1 h.2

namespace Comparison

def holds : Comparison → Int → Int → Bool
  | eq, x, y => x = y
  | ne, x, y => x ≠ y
  | lt, x, y => x < y
  | le, x, y => x ≤ y
  | gt, x, y => x > y
  | ge, x, y => x ≥ y

theorem holds_flip (c : Comparison) (x y : Int) : c.flip.holds y x = c.holds x y := by
  cases c <;> simp [flip, holds, eq_comm]

theorem holds_negate (c : Comparison) (x y : Int) : c.negate.holds x y = !c.holds x y := by
  cases c <;> simp only [negate, holds, decide_not, Bool.not_not] <;> grind

/-- A side of a comparison has a sign that the other side's sign leaves room for. -/
theorem constraint_covers {c : Comparison} {r : Sign} {x y : Int} (h : c.holds x y = true)
    (hr : r.Covers y) : (c.constraint r).Covers x := by
  cases c <;> cases r <;>
    simp only [holds, decide_eq_true_eq, Sign.covers_neg, Sign.covers_zero, Sign.covers_pos,
      Sign.covers_nonzero, Sign.not_covers_bottom] at h hr <;>
    simp only [constraint, Sign.covers_neg, Sign.covers_zero, Sign.covers_pos, Sign.covers_nonzero,
      Sign.covers_top] <;> omega

theorem refine_covers {c : Comparison} {l r : Sign} {x y : Int} (h : c.holds x y = true)
    (hl : l.Covers x) (hr : r.Covers y) : (c.refine l r).Covers x :=
  Sign.le_meet hl (constraint_covers h hr)

theorem refinePair_covers {c : Comparison} {l r : Sign} {x y : Int} (h : c.holds x y = true)
    (hl : l.Covers x) (hr : r.Covers y) :
    (c.refinePair l r).1.Covers x ∧ (c.refinePair l r).2.Covers y :=
  ⟨refine_covers h hl hr, refine_covers (by rw [holds_flip]; exact h) hr hl⟩

end Comparison

namespace Store

def Covers (s : Store) (ρ : Env) : Prop := ∀ k, (s.lookup k).Covers (ρ k)

variable {s t : Store} {ρ : Env} {k : Key}

theorem covers_empty (ρ : Env) : empty.Covers ρ := fun _ => Sign.covers_top _

theorem not_covers_unreachable (ρ : Env) : ¬unreachable.Covers ρ :=
  fun h => Sign.not_covers_bottom _ (h (.id 0))

theorem Covers.reachable (h : s.Covers ρ) : ∃ f, s = .reachable f := by
  cases s with
  | unreachable => exact absurd h (not_covers_unreachable ρ)
  | reachable f => exact ⟨f, rfl⟩

theorem Covers.isReachable (h : s.Covers ρ) : s.isReachable = true := by
  obtain ⟨f, rfl⟩ := h.reachable
  rfl

theorem Covers.bind (h : s.Covers ρ) {v : Sign} {x : Int} (hv : v.Covers x) :
    (s.bind k v).Covers (Function.update ρ k x) := by
  obtain ⟨f, rfl⟩ := h.reachable
  intro l
  rw [lookup_bind hv.ne_bottom, Function.update_apply]
  split
  · exact hv
  · exact h l

theorem Covers.bind_self (h : s.Covers ρ) {v : Sign} (hv : v.Covers (ρ k)) :
    (s.bind k v).Covers ρ := by
  simpa using h.bind (k := k) hv

theorem Covers.forget (h : s.Covers ρ) (k : Key) (x : Int) :
    (s.forget k).Covers (Function.update ρ k x) := by
  obtain ⟨f, rfl⟩ := h.reachable
  intro l
  rw [lookup_forget, Function.update_apply]
  split
  · exact Sign.covers_top x
  · exact h l

theorem Covers.join_left (h : s.Covers ρ) (t : Store) : (s.join t).Covers ρ := by
  intro k
  rw [lookup_join]
  exact (h k).mono (Sign.le_join_left _ _)

theorem Covers.join_right (h : t.Covers ρ) (s : Store) : (s.join t).Covers ρ := by
  intro k
  rw [lookup_join]
  exact (h k).mono (Sign.le_join_right _ _)

/-- A fold that sets each listed key from what is known of it. A key listed twice is set once. -/
theorem lookup_foldl_bind (φ : Key → Sign → Sign) (ne : ∀ k a, a ≠ .bottom → φ k a ≠ .bottom)
    (idem : ∀ k a, φ k (φ k a) = φ k a) (keys : List Key) (f : Facts) (l : Key) :
    (keys.foldl (fun r k => r.bind k (φ k (r.lookup k))) (Store.reachable f)).lookup l =
      if l ∈ keys then φ l ((Store.reachable f).lookup l) else (Store.reachable f).lookup l := by
  induction keys generalizing f with
  | nil => simp
  | cons k rest ih =>
    have hk : φ k ((Store.reachable f).lookup k) ≠ .bottom := by
      refine ne k _ fun h => ?_
      exact absurd (lookup_eq_bottom.mp h) (by simp)
    rw [List.foldl_cons]
    obtain ⟨f', hf⟩ : ∃ f', (Store.reachable f).bind k (φ k ((Store.reachable f).lookup k)) = .reachable f' :=
      ⟨_, if_neg hk⟩
    rw [hf, ih, ← hf, lookup_bind hk]
    by_cases hl : l = k
    · subst hl
      simp [idem]
    · simp [hl]

/-- Where a store takes in another, it says of each key what both say, in whatever order its keys come. -/
theorem lookup_foldl_absorb {f : Facts} (g : Facts) {keys : List Key}
    (hkeys : (Store.reachable f).keys ⊆ keys) (l : Key) :
    (keys.foldl (fun r k => r.bind k ((r.lookup k).join ((Store.reachable g).lookup k)))
      (Store.reachable f)).lookup l =
      ((Store.reachable f).lookup l).join ((Store.reachable g).lookup l) := by
  have h := lookup_foldl_bind (fun k a => a.join ((Store.reachable g).lookup k))
    (fun k a ha hb => ha (Sign.join_eq_bottom.mp hb).1)
    (fun k a => by cases a <;> cases (Store.reachable g).lookup k <;> decide) keys f l
  refine h.trans ?_
  split
  · rfl
  · rename_i hl
    rw [lookup_of_not_mem fun hf => hl (hkeys hf), Sign.top_join]

theorem lookup_absorb (f g : Facts) (l : Key) :
    (absorb (.reachable f) (.reachable g)).lookup l =
      ((Store.reachable f).lookup l).join ((Store.reachable g).lookup l) :=
  lookup_foldl_absorb g (List.subset_append_left _ _) l

/-- A store that takes over what another says then says the same, in whatever order their keys come. -/
theorem lookup_foldl_adopt {f g : Facts} {keys : List Key}
    (hkeys : (Store.reachable f).keys ++ (Store.reachable g).keys ⊆ keys) (l : Key) :
    (keys.foldl (fun r k => r.bind k ((Store.reachable g).lookup k)) (Store.reachable f)).lookup l =
      (Store.reachable g).lookup l := by
  have h := lookup_foldl_bind (fun k _ => (Store.reachable g).lookup k)
    (fun k a _ hb => absurd (lookup_eq_bottom.mp hb) (by simp)) (fun _ _ => rfl) keys f l
  refine h.trans ?_
  split
  · rfl
  · rename_i hl
    rw [lookup_of_not_mem fun hf => hl (hkeys (List.mem_append_left _ hf)),
      lookup_of_not_mem fun hg => hl (hkeys (List.mem_append_right _ hg))]

theorem lookup_adopt (f g : Facts) (l : Key) :
    (adopt (.reachable f) (.reachable g)).lookup l = (Store.reachable g).lookup l :=
  lookup_foldl_adopt (List.Subset.refl _) l

theorem Covers.absorb (h : s.Covers ρ) (t : Store) : (s.absorb t).Covers ρ := by
  obtain ⟨f, rfl⟩ := h.reachable
  cases t with
  | unreachable => exact h
  | reachable g =>
    intro k
    rw [lookup_absorb]
    exact (h k).mono (Sign.le_join_left _ _)

theorem Covers.absorbed (h : t.Covers ρ) {ρ₀ : Env} (hs : s.Covers ρ₀) : (s.absorb t).Covers ρ := by
  obtain ⟨f, rfl⟩ := hs.reachable
  obtain ⟨g, rfl⟩ := h.reachable
  intro k
  rw [lookup_absorb]
  exact (h k).mono (Sign.le_join_right _ _)

theorem Covers.adopted (h : t.Covers ρ) {ρ₀ : Env} (hs : s.Covers ρ₀) : (s.adopt t).Covers ρ := by
  obtain ⟨f, rfl⟩ := hs.reachable
  obtain ⟨g, rfl⟩ := h.reachable
  intro k
  rw [lookup_adopt]
  exact h k

theorem Covers.bindAt (h : s.Covers ρ) {key : Option Key} {v : Sign} {x : Int} (hv : v.Covers x)
    (hk : ∀ k ∈ key, ρ k = x) : (s.bindAt key v).Covers ρ := by
  cases key with
  | none => exact h
  | some k =>
    refine h.bind_self ?_
    rw [hk k rfl]
    exact hv

theorem Covers.outcome (h : s.Covers ρ) {kl kr : Option Key} {l r : Sign} {x y : Int}
    (hl : l.Covers x) (hr : r.Covers y) (hkl : ∀ k ∈ kl, ρ k = x) (hkr : ∀ k ∈ kr, ρ k = y) :
    (s.outcome kl l kr r).Covers ρ := by
  rw [Store.outcome, if_neg (not_or.mpr ⟨hl.ne_bottom, hr.ne_bottom⟩)]
  exact (h.bindAt hl hkl).bindAt hr hkr

/-- Where a comparison holds, what it says of both sides holds of their variables. -/
theorem Covers.refine (h : s.Covers ρ) {c : Comparison} {kl kr : Option Key} {l r : Sign} {x y : Int}
    (hl : l.Covers x) (hr : r.Covers y) (hkl : ∀ k ∈ kl, ρ k = x) (hkr : ∀ k ∈ kr, ρ k = y)
    (holds : c.holds x y = true) : (s.refine c kl (some l) kr (some r)).1.Covers ρ := by
  obtain ⟨hx, hy⟩ := Comparison.refinePair_covers holds hl hr
  simp only [Store.refine, h.isReachable, if_true]
  exact h.outcome hx hy hkl hkr

end Store

end SignFlow

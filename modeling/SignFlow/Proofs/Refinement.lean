import SignFlow.Proofs.Representation

/-! What a comparison tells, and what it leaves alone.

Where a comparison of integers holds, the store refined by it still covers the environment, and where it
does not hold the other store does. Only the variables compared are bound anew. Nothing is lost either: if
the signs compared are those that the store itself gives, the two outcomes together are the store again. -/

namespace SignFlow

/-- The fact leaves room for the integer. Where there is no sign, there is room for all. -/
def Fact.Allows (f : Fact) (x : Int) : Prop := ∀ a ∈ f, a.Covers x

namespace Comparison

variable (c : Comparison) {a b : Sign}

theorem negate_negate : c.negate.negate = c := by cases c <;> rfl

theorem negate_flip : c.negate.flip = c.flip.negate := by cases c <;> rfl

theorem refine_join : a ≠ .bottom → b ≠ .bottom → (c.refine a b).join (c.negate.refine a b) = a := by
  cases c <;> cases a <;> cases b <;> decide

theorem refine_negate : a ≠ .bottom → b ≠ .bottom →
    c.refine a b = .bottom ∨ c.flip.refine b a = .bottom →
    c.negate.refine a b = a ∧ c.negate.flip.refine b a = b := by
  cases c <;> cases a <;> cases b <;> decide

end Comparison

namespace Store

variable {s : Store} {c : Comparison} {kl kr : Option Key} {l r : Fact} {a b : Sign}

theorem isReachable_bindAt (ha : a ≠ .bottom) : (s.bindAt kl a).isReachable = s.isReachable := by
  cases kl with
  | none => rfl
  | some k => exact isReachable_bind ha

theorem isReachable_outcome (ha : a ≠ .bottom) (hb : b ≠ .bottom) :
    (s.outcome kl a kr b).isReachable = s.isReachable := by
  rw [outcome, if_neg (not_or.mpr ⟨ha, hb⟩), isReachable_bindAt hb, isReachable_bindAt ha]

theorem lookup_bindAt (hs : s.isReachable = true) (ha : a ≠ .bottom) (k : Key) :
    (s.bindAt kl a).lookup k = if k ∈ kl then a else s.lookup k := by
  cases s with
  | unreachable => cases hs
  | reachable f =>
    cases kl with
    | none => rfl
    | some j =>
      rw [bindAt, lookup_bind ha]
      exact if_congr (eq_comm.trans Option.some_inj.symm) rfl rfl

/-- The right side is bound last, so it counts where both sides have the same key. -/
theorem lookup_outcome (hs : s.isReachable = true) (ha : a ≠ .bottom) (hb : b ≠ .bottom) (k : Key) :
    (s.outcome kl a kr b).lookup k =
      if k ∈ kr then b else if k ∈ kl then a else s.lookup k := by
  have hleft : (s.bindAt kl a).isReachable = true := (isReachable_bindAt ha).trans hs
  rw [outcome, if_neg (not_or.mpr ⟨ha, hb⟩), lookup_bindAt hleft hb, lookup_bindAt hs ha]

theorem outcome_dead (h : a = .bottom ∨ b = .bottom) : s.outcome kl a kr b = unreachable := if_pos h

theorem refine_fst (hs : s.isReachable = true) :
    (s.refine c kl (some a) kr (some b)).1 = s.outcome kl (c.refine a b) kr (c.flip.refine b a) := by
  simp only [refine, hs, if_true]
  rfl

theorem refine_live (hs : s.isReachable = true) (ha : a ≠ .bottom) (hb : b ≠ .bottom) (c : Comparison) :
    (s.refine c kl (some a) kr (some b)).1.isReachable = true ∨
      (s.refine c.negate kl (some a) kr (some b)).1.isReachable = true := by
  rw [refine_fst hs, refine_fst hs]
  by_cases hdead : c.refine a b = .bottom ∨ c.flip.refine b a = .bottom
  · obtain ⟨hl, hr⟩ := c.refine_negate ha hb hdead
    rw [hl, hr]
    exact .inr ((isReachable_outcome ha hb).trans hs)
  · obtain ⟨hl, hr⟩ := not_or.mp hdead
    exact .inl ((isReachable_outcome hl hr).trans hs)

theorem outcome_self (hs : s.isReachable = true) (ha : a ≠ .bottom) (hb : b ≠ .bottom)
    (hl : ∀ k ∈ kl, s.lookup k = a) (hr : ∀ k ∈ kr, s.lookup k = b) : s.outcome kl a kr b = s := by
  refine ext_lookup fun k => ?_
  rw [lookup_outcome hs ha hb]
  split_ifs with hkr hkl
  · exact (hr k hkr).symm
  · exact (hl k hkl).symm
  · rfl

/-- The outcomes of a comparison make up the store, if it gives the variables the signs compared. -/
theorem refine_join (hs : s.isReachable = true) (ha : a ≠ .bottom) (hb : b ≠ .bottom)
    (hl : ∀ k ∈ kl, s.lookup k = a) (hr : ∀ k ∈ kr, s.lookup k = b) (c : Comparison) :
    (s.refine c kl (some a) kr (some b)).1.join (s.refine c.negate kl (some a) kr (some b)).1 = s := by
  have hself := outcome_self hs ha hb hl hr
  rw [refine_fst hs, refine_fst hs]
  by_cases hyes : c.refine a b = .bottom ∨ c.flip.refine b a = .bottom
  · obtain ⟨hna, hnb⟩ := c.refine_negate ha hb hyes
    rw [outcome_dead hyes, hna, hnb, hself]
    rfl
  by_cases hno : c.negate.refine a b = .bottom ∨ c.negate.flip.refine b a = .bottom
  · obtain ⟨hna, hnb⟩ := c.negate.refine_negate ha hb hno
    rw [c.negate_negate] at hna hnb
    rw [outcome_dead hno, hna, hnb, hself, join_comm]
    rfl
  -- both outcomes are possible, and the store is put together key by key
  obtain ⟨hya, hyb⟩ := not_or.mp hyes
  obtain ⟨hna, hnb⟩ := not_or.mp hno
  refine ext_lookup fun k => ?_
  rw [lookup_join, lookup_outcome hs hya hyb, lookup_outcome hs hna hnb]
  split_ifs with hkr hkl
  · rw [c.negate_flip, c.flip.refine_join hb ha, hr k hkr]
  · rw [c.refine_join ha hb, hl k hkl]
  · exact Sign.join_self _

theorem refine_snd : (s.refine c kl l kr r).2 = (s.refine c.negate kl l kr r).1 := by
  cases l with
  | none => rfl
  | some a =>
    cases r with
    | none => rfl
    | some b =>
      simp only [refine]
      split <;> rfl

/-- A side without a sign tells nothing, nor does anything where control cannot arrive. -/
theorem refine_cases (s : Store) (c : Comparison) (kl : Option Key) (l : Fact) (kr : Option Key) (r : Fact) :
    (s.refine c kl l kr r).1 = s ∨ ∃ a b, l = some a ∧ r = some b ∧ s.isReachable = true ∧
      (s.refine c kl l kr r).1 = s.outcome kl (c.refine a b) kr (c.flip.refine b a) := by
  cases l with
  | none => exact .inl rfl
  | some a =>
    cases r with
    | none => exact .inl rfl
    | some b =>
      cases hs : s.isReachable with
      | false => exact .inl (by simp [refine, hs])
      | true => exact .inr ⟨a, b, rfl, rfl, rfl, refine_fst hs⟩

theorem lookup_refine {k : Key} (hl : k ∉ kl) (hr : k ∉ kr)
    (hlive : (s.refine c kl l kr r).1.isReachable = true) :
    (s.refine c kl l kr r).1.lookup k = s.lookup k := by
  rcases refine_cases s c kl l kr r with h | ⟨a, b, -, -, hs, h⟩
  · rw [h]
  · rw [h] at hlive ⊢
    by_cases hdead : c.refine a b = .bottom ∨ c.flip.refine b a = .bottom
    · rw [outcome_dead hdead] at hlive
      cases hlive
    · obtain ⟨ha, hb⟩ := not_or.mp hdead
      rw [lookup_outcome hs ha hb, if_neg hr, if_neg hl]

theorem Covers.refine_facts {ρ : Env} {x y : Int} (h : s.Covers ρ) (hl : l.Allows x) (hr : r.Allows y)
    (hkl : ∀ k ∈ kl, ρ k = x) (hkr : ∀ k ∈ kr, ρ k = y) (holds : c.holds x y = true) :
    (s.refine c kl l kr r).1.Covers ρ := by
  cases l with
  | none => exact h
  | some a =>
    cases r with
    | none => exact h
    | some b => exact h.refine (hl a rfl) (hr b rfl) hkl hkr holds

/-- A comparison refines a store soundly. Let two integers be compared that the facts leave room for, and
that an environment covered by the store has for the variables compared. Then the environment is covered by
the store for the outcome of the comparison. A store that can still be reached says of all other variables
what was known of them, and the store that was refined stays what it is. -/
theorem refine_outcomes_cover (c : Comparison) (kl : Option Key) (l : Fact) (kr : Option Key) (r : Fact)
    (s : Store) :
    (∀ (x y : Int) (ρ : Env), s.Covers ρ → l.Allows x → r.Allows y → (∀ k ∈ kl, ρ k = x) →
      (∀ k ∈ kr, ρ k = y) →
      if c.holds x y then (s.refine c kl l kr r).1.Covers ρ else (s.refine c kl l kr r).2.Covers ρ) ∧
    (∀ t ∈ [(s.refine c kl l kr r).1, (s.refine c kl l kr r).2], t.isReachable = true →
      ∀ k, k ∉ kl → k ∉ kr → t.lookup k = s.lookup k) ∧
    ∀ (stores : Nat → Store) (yes no source : Nat), stores source = s → source ≠ yes → source ≠ no →
      (Action.refine yes no c kl l kr r source).apply operations stores source = s := by
  rw [refine_snd]
  refine ⟨fun x y ρ hs hl hr hkl hkr => ?_, ?_, fun stores yes no source hsource hyes hno => ?_⟩
  · split
    · exact hs.refine_facts hl hr hkl hkr ‹_›
    · apply hs.refine_facts hl hr hkl hkr
      rw [Comparison.holds_negate, Bool.not_eq_true']
      exact Bool.eq_false_iff.mpr ‹_›
  · intro t ht hlive k hkl hkr
    simp only [List.mem_cons, List.not_mem_nil, or_false] at ht
    rcases ht with rfl | rfl
    · exact lookup_refine hkl hkr hlive
    · exact lookup_refine hkl hkr hlive
  · simp only [Action.apply]
    rw [Function.update_of_ne hno, Function.update_of_ne hyes, hsource]

def belowStore : Store := (empty.bind (.id 2) .neg).bind (.id 3) .zero

def belowEnv (k : Key) : Int := if k = .id 1 then -5 else if k = .id 2 then -1 else 0

/-- Below something negative a variable of which nothing was known is negative. -/
theorem refine_outcomes_cover_below :
    (belowStore.Covers belowEnv ∧ Fact.Allows (some .top) (-5) ∧ Fact.Allows (some .neg) (-1) ∧
      belowEnv (.id 1) = -5 ∧ belowEnv (.id 2) = -1 ∧ Comparison.lt.holds (-5) (-1) = true) ∧
    (belowStore.refine .lt (some (.id 1)) (some .top) (some (.id 2)) (some .neg)).1.entries =
      [(.id 1, .neg), (.id 2, .neg), (.id 3, .zero)] ∧
    (belowStore.refine .lt (some (.id 1)) (some .top) (some (.id 2)) (some .neg)).1.Covers belowEnv ∧
    (belowStore.refine .lt (some (.id 1)) (some .top) (some (.id 2)) (some .neg)).1.lookup (.id 3) =
      belowStore.lookup (.id 3) ∧
    (Action.refine 1 2 .lt (some (.id 1)) (some .top) (some (.id 2)) (some .neg) 0).apply operations
      (fun _ => belowStore) 0 = belowStore := by
  have hcovers : belowStore.Covers belowEnv :=
    ((covers_empty belowEnv).bind_self (by decide)).bind_self (by decide)
  have htop : Fact.Allows (some .top) (-5) := fun a ha => Option.mem_some_iff.mp ha ▸ (by decide)
  have hneg : Fact.Allows (some .neg) (-1) := fun a ha => Option.mem_some_iff.mp ha ▸ (by decide)
  obtain ⟨hsound, hframe, hinput⟩ :=
    refine_outcomes_cover .lt (some (.id 1)) (some .top) (some (.id 2)) (some .neg) belowStore
  refine ⟨⟨hcovers, htop, hneg, rfl, rfl, rfl⟩, rfl, ?_, ?_, hinput _ 1 2 0 rfl (by decide) (by decide)⟩
  · exact hsound (-5) (-1) belowEnv hcovers htop hneg (by rintro k ⟨⟩; rfl) (by rintro k ⟨⟩; rfl)
  · exact hframe _ List.mem_cons_self rfl (.id 3) (by decide) (by decide)

end Store

end SignFlow

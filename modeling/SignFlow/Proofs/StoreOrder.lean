import Mathlib.Data.List.Sort
import SignFlow.Proofs.Covers

/-! The order of signs and of stores.

A store is determined by the signs it gives, and one store is below another exactly if each of its signs
is. So the operations on stores keep the order because the operations on signs do. -/

namespace SignFlow

namespace Sign

theorem le_antisymm {a b : Sign} : a ≤ b → b ≤ a → a = b := by
  cases a <;> cases b <;> decide

theorem bottom_le (a : Sign) : bottom ≤ a := by cases a <;> decide

theorem eq_bottom {a : Sign} (h : a ≤ bottom) : a = bottom := le_antisymm h (bottom_le a)

theorem join_le {a b c : Sign} : a ≤ c → b ≤ c → a.join b ≤ c := by
  cases a <;> cases b <;> cases c <;> decide

theorem join_mono {a a' b b' : Sign} (ha : a ≤ a') (hb : b ≤ b') : a.join b ≤ a'.join b' :=
  join_le (le_trans ha (le_join_left a' b')) (le_trans hb (le_join_right a' b'))

theorem join_self (a : Sign) : a.join a = a := by cases a <;> rfl

theorem join_comm (a b : Sign) : a.join b = b.join a := by cases a <;> cases b <;> rfl

theorem join_assoc (a b c : Sign) : (a.join b).join c = a.join (b.join c) := by
  cases a <;> cases b <;> cases c <;> rfl

theorem meet_le_left (a b : Sign) : a.meet b ≤ a := by cases a <;> cases b <;> decide

theorem meet_le_right (a b : Sign) : a.meet b ≤ b := by cases a <;> cases b <;> decide

theorem meet_mono {a a' b b' : Sign} (ha : a ≤ a') (hb : b ≤ b') : a.meet b ≤ a'.meet b' :=
  le_meet (le_trans (meet_le_left a b) ha) (le_trans (meet_le_right a b) hb)

end Sign

theorem Operator.apply_mono (op : Operator) {a a' b b' : Sign} (ha : a ≤ a') (hb : b ≤ b') :
    op.apply a b ≤ op.apply a' b' := by
  cases op with
  | plus => exact Sign.add_mono ha hb
  | minus => exact Sign.add_mono ha (Sign.negate_mono hb)
  | times => exact Sign.mul_mono ha hb
  | divide => exact Sign.div_mono ha hb
  | mod => exact Sign.div_mono ha hb

namespace Comparison

theorem constraint_mono (c : Comparison) {r r' : Sign} : r ≤ r' → c.constraint r ≤ c.constraint r' := by
  cases c <;> cases r <;> cases r' <;> decide

theorem refine_mono (c : Comparison) {l l' r r' : Sign} (hl : l ≤ l') (hr : r ≤ r') :
    c.refine l r ≤ c.refine l' r' := Sign.meet_mono hl (c.constraint_mono hr)

theorem refine_le (c : Comparison) (l r : Sign) : c.refine l r ≤ l := Sign.meet_le_left _ _

end Comparison

namespace Entries

theorem get?_of_mem {k : Key} {v : Sign} {entries : List (Key × Sign)} (hs : Sorted entries)
    (h : (k, v) ∈ entries) : get? k entries = some v := by
  induction entries with
  | nil => cases h
  | cons e rest ih =>
    obtain ⟨j, w⟩ := e
    obtain ⟨above, hr⟩ := List.pairwise_cons.mp hs
    rcases List.mem_cons.mp h with heq | h
    · cases heq
      simp [get?]
    · have hne : k ≠ j := (Key.ne_of_lt (above _ h)).symm
      simpa [get?, hne] using ih hr h

theorem mem_iff_get? {e : Key × Sign} {entries : List (Key × Sign)} (hs : Sorted entries) :
    e ∈ entries ↔ get? e.1 entries = some e.2 :=
  ⟨get?_of_mem hs, mem_of_get?⟩

end Entries

theorem Facts.ext_get? {f g : Facts} (h : ∀ k, f.get? k = g.get? k) : f = g := by
  have anti : Std.Antisymm fun a b : Key × Sign => a.1 < b.1 :=
    ⟨fun _ _ hab hba => absurd hba (Key.not_lt_of_lt hab)⟩
  have irrefl : Std.Irrefl fun a b : Key × Sign => a.1 < b.1 := ⟨fun a => Key.lt_irrefl a.1⟩
  have hentries : f.entries = g.entries := by
    refine f.sorted.eq_of_mem_iff g.sorted fun e => ?_
    have he : Entries.get? e.1 f.entries = Entries.get? e.1 g.entries := h e.1
    rw [Entries.mem_iff_get? f.sorted, Entries.mem_iff_get? g.sorted, he]
  cases f
  cases g
  cases hentries
  rfl

namespace Store

variable {s s' t t' : Store} {k : Key} {v w : Sign}

theorem get?_eq_some {f : Facts} : f.get? k = some v ↔ (reachable f).lookup k = v ∧ v ≠ .top := by
  simp only [lookup]
  cases hg : f.get? k with
  | none =>
    simp only [Option.getD_none, reduceCtorEq, false_iff, not_and, not_not]
    exact Eq.symm
  | some u =>
    have hu := (Sign.informative_iff.mp (Facts.informative_of_get? hg)).2
    simp only [Option.getD_some, Option.some.injEq]
    exact ⟨fun h => ⟨h, h ▸ hu⟩, And.left⟩

/-- A store is determined by the signs it gives. -/
theorem ext_lookup (h : ∀ k, s.lookup k = t.lookup k) : s = t := by
  cases s with
  | unreachable => exact (lookup_eq_bottom.mp (h (.id 0)).symm).symm
  | reachable f =>
    cases t with
    | unreachable => exact lookup_eq_bottom.mp (h (.id 0))
    | reachable g =>
      have hfg : f = g := Facts.ext_get? fun k => Option.ext fun v => by
        rw [get?_eq_some, get?_eq_some, h k]
      rw [hfg]

/-- A store is below another if each of its signs is. -/
theorem le_iff : s ≤ t ↔ ∀ k, s.lookup k ≤ t.lookup k := by
  cases s with
  | unreachable => exact iff_of_true rfl fun k => Sign.bottom_le _
  | reachable f =>
    cases t with
    | unreachable =>
      refine iff_of_false (by simp [LE.le, le]) fun h => ?_
      exact absurd (lookup_eq_bottom.mp (Sign.eq_bottom (h (.id 0)))) (by simp)
    | reachable g =>
      have hall : reachable f ≤ reachable g ↔
          ∀ e ∈ g.entries, (reachable f).lookup e.1 ≤ e.2 := List.all_eq_true
      rw [hall]
      constructor
      · intro h k
        cases hg : g.get? k with
        | none =>
          have htop : (reachable g).lookup k = .top := by simp [lookup, hg]
          rw [htop]
          exact Sign.le_top _
        | some v =>
          rw [(get?_eq_some.mp hg).1]
          exact h (k, v) (Entries.mem_of_get? hg)
      · intro h e he
        have hg : g.get? e.1 = some e.2 := Entries.get?_of_mem g.sorted he
        rw [← (get?_eq_some.mp hg).1]
        exact h e.1

theorem le_refl (s : Store) : s ≤ s := le_iff.mpr fun _ => Sign.le_refl _

theorem le_trans (h : s ≤ s') (h' : s' ≤ t) : s ≤ t :=
  le_iff.mpr fun k => Sign.le_trans (le_iff.mp h k) (le_iff.mp h' k)

theorem le_antisymm (h : s ≤ t) (h' : t ≤ s) : s = t :=
  ext_lookup fun k => Sign.le_antisymm (le_iff.mp h k) (le_iff.mp h' k)

theorem unreachable_le (s : Store) : unreachable ≤ s := rfl

theorem le_join_left (s t : Store) : s ≤ s.join t :=
  le_iff.mpr fun k => by rw [lookup_join]; exact Sign.le_join_left _ _

theorem le_join_right (s t : Store) : t ≤ s.join t :=
  le_iff.mpr fun k => by rw [lookup_join]; exact Sign.le_join_right _ _

theorem join_le (h : s ≤ t) (h' : s' ≤ t) : s.join s' ≤ t :=
  le_iff.mpr fun k => by rw [lookup_join]; exact Sign.join_le (le_iff.mp h k) (le_iff.mp h' k)

theorem join_mono (h : s ≤ t) (h' : s' ≤ t') : s.join s' ≤ t.join t' :=
  join_le (le_trans h (le_join_left t t')) (le_trans h' (le_join_right t t'))

theorem join_self (s : Store) : s.join s = s :=
  ext_lookup fun k => by rw [lookup_join, Sign.join_self]

theorem join_comm (s t : Store) : s.join t = t.join s :=
  ext_lookup fun k => by rw [lookup_join, lookup_join, Sign.join_comm]

theorem join_assoc (s t u : Store) : (s.join t).join u = s.join (t.join u) :=
  ext_lookup fun k => by simp only [lookup_join, Sign.join_assoc]

theorem eq_unreachable (h : s.isReachable = false) : s = unreachable := by
  cases s with
  | unreachable => rfl
  | reachable f => cases h

theorem isReachable_mono (h : s ≤ t) (hs : s.isReachable = true) : t.isReachable = true := by
  cases t with
  | unreachable =>
    obtain rfl : s = unreachable := le_antisymm h (unreachable_le s)
    exact hs
  | reachable g => rfl

theorem isReachable_join : (s.join t).isReachable = (s.isReachable || t.isReachable) := by
  cases s <;> cases t <;> rfl

theorem isReachable_bind (hv : v ≠ .bottom) : (s.bind k v).isReachable = s.isReachable := by
  cases s with
  | unreachable => rfl
  | reachable f => simp [bind, if_neg hv, isReachable]

theorem isReachable_forget : (s.forget k).isReachable = s.isReachable := by cases s <;> rfl

theorem bind_mono (h : s ≤ t) (hv : v ≤ w) : s.bind k v ≤ t.bind k w := by
  by_cases hvb : v = .bottom
  · have hdead : s.bind k v = unreachable := by cases s <;> simp [bind, hvb]
    rw [hdead]
    exact unreachable_le _
  · have hwb : w ≠ .bottom := fun hw => hvb (Sign.eq_bottom (hw ▸ hv))
    cases s with
    | unreachable => exact unreachable_le _
    | reachable f =>
      cases t with
      | unreachable => cases isReachable_mono h rfl
      | reachable g =>
        refine le_iff.mpr fun l => ?_
        rw [lookup_bind hvb, lookup_bind hwb]
        split
        · exact hv
        · exact le_iff.mp h l

theorem bind_le (hv : v ≤ s.lookup k) : s.bind k v ≤ s := by
  cases s with
  | unreachable => exact unreachable_le _
  | reachable f =>
    by_cases hvb : v = .bottom
    · simp only [bind, if_pos hvb]
      exact unreachable_le _
    · refine le_iff.mpr fun l => ?_
      rw [lookup_bind hvb]
      split
      · rename_i hl
        exact hl ▸ hv
      · exact Sign.le_refl _

theorem forget_mono (h : s ≤ t) : s.forget k ≤ t.forget k := by
  cases s with
  | unreachable => exact unreachable_le _
  | reachable f =>
    cases t with
    | unreachable => cases isReachable_mono h rfl
    | reachable g =>
      refine le_iff.mpr fun l => ?_
      rw [lookup_forget, lookup_forget]
      split
      · exact Sign.le_refl _
      · exact le_iff.mp h l

/-- Where control can arrive, taking in another store is joining it. -/
theorem absorb_eq_join (hs : s.isReachable = true) : s.absorb t = s.join t := by
  cases s with
  | unreachable => cases hs
  | reachable f =>
    cases t with
    | unreachable => rfl
    | reachable g => exact ext_lookup fun k => by rw [lookup_absorb, lookup_join]

/-- Nothing bound to a store where control cannot arrive makes it reachable. -/
theorem foldl_bind_unreachable (φ : Store → Key → Sign) (keys : List Key) :
    keys.foldl (fun r k => r.bind k (φ r k)) unreachable = unreachable := by
  induction keys with
  | nil => rfl
  | cons k rest ih => exact ih

theorem absorb_unreachable : unreachable.absorb t = unreachable := by
  unfold absorb
  split
  · exact foldl_bind_unreachable (fun r k => (r.lookup k).join (t.lookup k)) _
  · rfl

theorem absorb_mono (h : s ≤ t) (h' : s' ≤ t') : s.absorb s' ≤ t.absorb t' := by
  cases hs : s.isReachable with
  | false =>
    rw [eq_unreachable hs, absorb_unreachable]
    exact unreachable_le _
  | true =>
    rw [absorb_eq_join hs, absorb_eq_join (isReachable_mono h hs)]
    exact join_mono h h'

/-- Taking over what a store says gives that store, if control can arrive at both. -/
theorem adopt_eq (hs : s.isReachable = true) (ht : t.isReachable = true) : s.adopt t = t := by
  cases s with
  | unreachable => cases hs
  | reachable f =>
    cases t with
    | unreachable => cases ht
    | reachable g => exact ext_lookup (lookup_adopt f g)

theorem adopt_unreachable : unreachable.adopt t = unreachable :=
  foldl_bind_unreachable (fun _ k => t.lookup k) _

/-- Taking over is monotone as long as control that can arrive at the store can arrive at what it takes
over. -/
theorem adopt_mono (h : s ≤ t) (h' : s' ≤ t') (hlive : s.isReachable = true → s'.isReachable = true) :
    s.adopt s' ≤ t.adopt t' := by
  cases hs : s.isReachable with
  | false =>
    rw [eq_unreachable hs, adopt_unreachable]
    exact unreachable_le _
  | true =>
    have hs' := hlive hs
    rw [adopt_eq hs hs', adopt_eq (isReachable_mono h hs) (isReachable_mono h' hs')]
    exact h'

theorem bindAt_mono {key : Option Key} (h : s ≤ t) (hv : v ≤ w) : s.bindAt key v ≤ t.bindAt key w := by
  cases key with
  | none => exact h
  | some k => exact bind_mono h hv

theorem outcome_mono {kl kr : Option Key} {l l' r r' : Sign} (h : s ≤ t) (hl : l ≤ l') (hr : r ≤ r') :
    s.outcome kl l kr r ≤ t.outcome kl l' kr r' := by
  unfold outcome
  split
  · exact unreachable_le _
  · rename_i hb
    rw [if_neg]
    · exact bindAt_mono (bindAt_mono h hl) hr
    · rintro (hb' | hb')
      · exact hb (.inl (Sign.eq_bottom (hb' ▸ hl)))
      · exact hb (.inr (Sign.eq_bottom (hb' ▸ hr)))

/-- More known of both sides, more known where the comparison holds. -/
theorem refine_mono {c : Comparison} {kl kr : Option Key} {l l' r r' : Sign} (h : s ≤ t) (hl : l ≤ l')
    (hr : r ≤ r') :
    (s.refine c kl (some l) kr (some r)).1 ≤ (t.refine c kl (some l') kr (some r')).1 := by
  cases hs : s.isReachable with
  | false =>
    rw [eq_unreachable hs]
    exact unreachable_le _
  | true =>
    simp only [refine, hs, isReachable_mono h hs, if_true]
    exact outcome_mono h (c.refine_mono hl hr) (c.flip.refine_mono hr hl)

/-- A comparison of signs that the store itself gives to the variables compared only adds to what is
known. -/
theorem refine_le {c : Comparison} {kl kr : Option Key} {l r : Sign} (hl : ∀ k ∈ kl, l ≤ s.lookup k)
    (hr : ∀ k ∈ kr, r ≤ s.lookup k) : (s.refine c kl (some l) kr (some r)).1 ≤ s := by
  have bindAt_le : ∀ {key : Option Key} {u : Store} {v : Sign}, u ≤ s → (∀ k ∈ key, v ≤ s.lookup k) →
      u.bindAt key v ≤ s := by
    intro key u v hu hv
    cases key with
    | none => exact hu
    | some k => exact le_trans (bind_mono hu (Sign.le_refl v)) (bind_le (hv k rfl))
  cases hs : s.isReachable with
  | false =>
    rw [eq_unreachable hs]
    exact le_refl _
  | true =>
    simp only [refine, hs, if_true, outcome]
    split
    · exact unreachable_le _
    · refine bindAt_le (bindAt_le (le_refl s) fun k hk => ?_) fun k hk => ?_
      · exact Sign.le_trans (c.refine_le l r) (hl k hk)
      · exact Sign.le_trans (c.flip.refine_le r l) (hr k hk)

end Store

end SignFlow

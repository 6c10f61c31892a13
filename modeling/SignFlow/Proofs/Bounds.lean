import Mathlib.Order.Bounds.Basic
import SignFlow.Proofs.Convergence

/-! Least upper bounds.

In a lawful domain the join of a list is below exactly what all its members are below. So only the members
count that are not the least fact: not their order, nor how often they come. Stores are such a domain, and
the join of stores is taken key by key. -/

namespace SignFlow

namespace Domain.Lawful

variable {α : Type} {D : Domain α} {l l' : List α} {a c : α}

theorem foldl_join_le (hD : D.Lawful) :
    D.le (l.foldl D.join a) c = true ↔ D.le a c = true ∧ ∀ b ∈ l, D.le b c = true := by
  induction l generalizing a with
  | nil => simp
  | cons b rest ih =>
    have hjoin : D.le (D.join a b) c = true ↔ D.le a c = true ∧ D.le b c = true := by
      constructor
      · intro h
        exact ⟨hD.le_trans (hD.le_join_left a b) h, hD.le_trans (hD.le_join_right a b) h⟩
      · rintro ⟨ha, hb⟩
        exact hD.join_le ha hb
    rw [List.foldl_cons, ih, hjoin, List.forall_mem_cons, and_assoc]

/-- The join of a list is its least upper bound. -/
theorem joinAll_le (hD : D.Lawful) : D.le (D.joinAll l) c = true ↔ ∀ b ∈ l, D.le b c = true :=
  hD.foldl_join_le.trans (and_iff_right (hD.bottom_le c))

theorem le_joinAll (hD : D.Lawful) (h : a ∈ l) : D.le a (D.joinAll l) = true :=
  hD.joinAll_le.mp (hD.le_refl _) a h

theorem joinAll_mono (hD : D.Lawful) (h : ∀ b ∈ l, b ≠ D.bottom → b ∈ l') :
    D.le (D.joinAll l) (D.joinAll l') = true := by
  refine hD.joinAll_le.mpr fun b hb => ?_
  by_cases hbottom : b = D.bottom
  · rw [hbottom]
    exact hD.bottom_le _
  · exact hD.le_joinAll (h b hb hbottom)

/-- Only the members that are not the least fact count. -/
theorem joinAll_congr (hD : D.Lawful) (h : ∀ b, b ≠ D.bottom → (b ∈ l ↔ b ∈ l')) :
    D.joinAll l = D.joinAll l' :=
  hD.le_antisymm (hD.joinAll_mono fun b hb hne => (h b hne).mp hb)
    (hD.joinAll_mono fun b hb hne => (h b hne).mpr hb)

end Domain.Lawful

namespace Store

theorem le_empty (s : Store) : s ≤ empty := le_iff.mpr fun _ => Sign.le_top _

theorem isPartialOrder : IsPartialOrder Store (· ≤ ·) where
  refl := le_refl
  trans _ _ _ := le_trans
  antisymm _ _ := le_antisymm

theorem join_isLUB (s t : Store) : IsLUB {s, t} (s.join t) := by
  constructor
  · rintro u (rfl | rfl)
    · exact le_join_left _ _
    · exact le_join_right _ _
  · intro u hu
    exact join_le (hu (.inl rfl)) (hu (.inr rfl))

theorem merge_isLUB (stores : List Store) : IsLUB {s | s ∈ stores} (merge stores) :=
  ⟨fun _ hs => domain_lawful.le_joinAll hs, fun _ hu => domain_lawful.joinAll_le.mpr fun _ hs => hu hs⟩

theorem lookup_merge (stores : List Store) (k : Key) :
    (merge stores).lookup k = Sign.joinAll (stores.map (·.lookup k)) := by
  have hfold : ∀ s : Store, (stores.foldl join s).lookup k =
      (stores.map (·.lookup k)).foldl Sign.join (s.lookup k) := by
    induction stores with
    | nil => exact fun _ => rfl
    | cons t rest ih =>
      intro s
      rw [List.foldl_cons, ih, lookup_join]
      rfl
  exact hfold unreachable

theorem merge_congr {stores others : List Store} (h : ∀ s, s ≠ unreachable → (s ∈ stores ↔ s ∈ others)) :
    merge stores = merge others := domain_lawful.joinAll_congr h

/-- Stores are ordered key by key, from the unreachable one to the empty one. A join, and the merge of any
list, is the least store above its parts, with the joins of their signs. A merge is the same in any order,
whatever is repeated and whatever unreachable stores come in. -/
theorem order_joins :
    (IsPartialOrder Store (· ≤ ·) ∧ IsBot unreachable ∧ IsTop empty ∧
      ∀ s t : Store, s ≤ t ↔ ∀ k, s.lookup k ≤ t.lookup k) ∧
    (∀ s t : Store, IsLUB {s, t} (s.join t) ∧ ∀ k, (s.join t).lookup k = (s.lookup k).join (t.lookup k)) ∧
    ∀ stores : List Store, merge stores = domain.joinAll stores ∧ IsLUB {s | s ∈ stores} (merge stores) ∧
      (∀ k, (merge stores).lookup k = Sign.joinAll (stores.map (·.lookup k))) ∧
      (∀ others, others.Perm stores → merge others = merge stores) ∧
      (∀ s ∈ stores, merge (s :: stores) = merge stores) ∧
      merge (unreachable :: stores) = merge stores := by
  refine ⟨⟨isPartialOrder, unreachable_le, le_empty, fun _ _ => le_iff⟩,
    fun s t => ⟨join_isLUB s t, lookup_join s t⟩,
    fun stores => ⟨rfl, merge_isLUB stores, lookup_merge stores, fun others hp => ?_, fun s hs => ?_, ?_⟩⟩
  · exact merge_congr fun s _ => hp.mem_iff
  · refine merge_congr fun t _ => ⟨fun ht => ?_, List.mem_cons_of_mem s⟩
    rcases List.mem_cons.mp ht with rfl | ht
    · exact hs
    · exact ht
  · exact merge_congr fun t ht => ⟨fun h => (List.mem_cons.mp h).resolve_left ht, List.mem_cons_of_mem _⟩

end Store

end SignFlow

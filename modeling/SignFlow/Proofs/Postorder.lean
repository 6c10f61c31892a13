import Mathlib.Data.List.Nodup
import SignFlow.Proofs.Reach

/-! The order in which a search finishes blocks.

A search is still busy with the blocks that it has seen and not finished, and each of these leads to
whatever it turns to next. So when a block is finished, all that it leads to has been finished before it or
leads back to it. -/

namespace SignFlow

def Search.Busy (s : Search) (n : Nat) : Prop := n ∈ s.seen ∧ n ∉ s.order

namespace Graph

/-- Whatever a block of the list leads to stands behind it or leads back to it. -/
def Forward (g : Graph) (order : List Nat) : Prop :=
  ∀ ⦃n rest⦄, n :: rest <:+ order → ∀ ⦃k⦄, g.Leads n k → k ∈ rest ∨ g.Reaches k n

theorem Forward.cons {g : Graph} {order : List Nat} {n : Nat} (h : g.Forward order)
    (hn : ∀ ⦃k⦄, g.Leads n k → k ∈ order ∨ g.Reaches k n) : g.Forward (n :: order) := by
  intro m rest hsuffix k hl
  rcases List.suffix_cons_iff.mp hsuffix with heq | hsuffix
  · obtain ⟨rfl, rfl⟩ := List.cons.inj heq
    exact hn hl
  · exact h hsuffix hl

theorem idxOf_lt_of_suffix {order rest : List Nat} {n k : Nat} (hnodup : order.Nodup)
    (hsuffix : n :: rest <:+ order) (hk : k ∈ rest) : order.idxOf n < order.idxOf k := by
  obtain ⟨before, rfl⟩ := hsuffix
  obtain ⟨-, hrest, hdisjoint⟩ := List.nodup_append.mp hnodup
  have hnk : n ≠ k := fun h => (List.nodup_cons.mp hrest).1 (h ▸ hk)
  have hn : n ∉ before := fun h => hdisjoint n h n List.mem_cons_self rfl
  have hk' : k ∉ before := fun h => hdisjoint k h k (List.mem_cons_of_mem _ hk) rfl
  rw [List.idxOf_append_of_notMem hn, List.idxOf_append_of_notMem hk', List.idxOf_cons_self,
    List.idxOf_cons_ne _ hnk]
  omega

/-- Blocks are finished once, after they are seen, and in order. -/
structure Orderly (g : Graph) (s : Search) : Prop where
  nodup : s.order.Nodup
  seen : s.order ⊆ s.seen
  forward : g.Forward s.order

/-- If what a search is busy with leads to the blocks it turns to, it finishes all that it adds, in
order, and nothing else. -/
theorem Searches.orderly {g : Graph} {ks : List Nat} {s t : Search} (h : g.Searches ks s t)
    (hs : g.Orderly s) (hbusy : ∀ a, s.Busy a → ∀ k ∈ ks, g.Reaches a k) :
    g.Orderly t ∧ ∀ a, t.Busy a ↔ s.Busy a := by
  induction h with
  | done => exact ⟨hs, fun _ => Iff.rfl⟩
  | known _ _ ih => exact ih hs fun a ha j hj => hbusy a ha j (List.mem_cons_of_mem _ hj)
  | @new s t u k ks hk below _ ihbelow ihrest =>
    have hnew : k ∉ s.order := fun h => hk (hs.seen h)
    have hstart : ∀ a, Search.Busy { s with seen := k :: s.seen } a ↔ a = k ∨ s.Busy a := by
      intro a
      simp only [Search.Busy, List.mem_cons]
      grind
    obtain ⟨ht, htbusy⟩ := ihbelow ⟨hs.nodup, fun _ h => List.mem_cons_of_mem _ (hs.seen h), hs.forward⟩
      fun a ha j hj => by
        have hl := mem_successors.mp hj
        rcases (hstart a).mp ha with rfl | ha
        · exact .single hl
        · exact (hbusy a ha k List.mem_cons_self).tail hl
    have hkt : t.Busy k := (htbusy k).mpr ((hstart k).mpr (.inl rfl))
    -- a block that `k` leads to and that is not finished is one the search is busy with
    have hforward : ∀ ⦃j⦄, g.Leads k j → j ∈ t.order ∨ g.Reaches j k := by
      intro j hl
      by_cases hj : j ∈ t.order
      · exact .inl hj
      · have hjt : t.Busy j := ⟨below.sees (mem_successors.mpr hl), hj⟩
        rcases (hstart j).mp ((htbusy j).mp hjt) with rfl | hjs
        · exact .inr .refl
        · exact .inr (hbusy j hjs k List.mem_cons_self)
    have hafter : ∀ a, Search.Busy { t with order := k :: t.order } a ↔ s.Busy a := by
      intro a
      have hta := (htbusy a).trans (hstart a)
      simp only [Search.Busy, List.mem_cons] at hta ⊢
      grind
    obtain ⟨hu, hubusy⟩ := ihrest
      ⟨List.nodup_cons.mpr ⟨hkt.2, ht.nodup⟩, List.cons_subset.mpr ⟨hkt.1, ht.seen⟩, ht.forward.cons hforward⟩
      fun a ha j hj => hbusy a ((hafter a).mp ha) j (List.mem_cons_of_mem _ hj)
    exact ⟨hu, fun a => (hubusy a).trans (hafter a)⟩

variable {g : Graph}

theorem exploreFrom_orderly (hg : g.Closed) {starts : List Nat} (hstarts : ∀ k ∈ starts, k < g.size) :
    g.Orderly (g.exploreFrom starts) ∧ ∀ n, ¬(g.exploreFrom starts).Busy n := by
  have hnone : ∀ n, ¬Search.Busy {} n := fun n h => List.not_mem_nil h.1
  obtain ⟨horderly, hbusy⟩ := (exploreFrom_searches hg hstarts).orderly
    ⟨List.nodup_nil, List.Subset.refl _, fun n rest h => absurd h (by simp)⟩ fun a ha => absurd ha (hnone a)
  exact ⟨horderly, fun n h => hnone n ((hbusy n).mp h)⟩

theorem reversePostorder_orderly (hg : g.Closed) : g.Orderly (g.exploreFrom [entry]) :=
  (exploreFrom_orderly hg (by simpa using hg.entry_lt)).1

theorem nodup_reversePostorder (hg : g.Closed) : g.reversePostorder.Nodup :=
  (reversePostorder_orderly hg).nodup

theorem forward_reversePostorder (hg : g.Closed) : g.Forward g.reversePostorder :=
  (reversePostorder_orderly hg).forward

theorem mem_reversePostorder (hg : g.Closed) {n : Nat} : n ∈ g.reversePostorder ↔ g.Reaches entry n := by
  have hstart : ∀ k ∈ [entry], k < g.size := by simpa using hg.entry_lt
  obtain ⟨horderly, hbusy⟩ := exploreFrom_orderly hg hstart
  have hseen : n ∈ g.reversePostorder ↔ n ∈ (g.exploreFrom [entry]).seen :=
    ⟨fun h => horderly.seen h, fun h => not_not.mp fun hn => hbusy n ⟨h, hn⟩⟩
  rw [hseen, mem_exploreFrom hg hstart]
  simp

end Graph

end SignFlow

import Mathlib.Data.Finset.Card
import Mathlib.Data.Finset.Range
import Mathlib.Logic.Relation
import SignFlow.Graph.Search

/-! Graphs as they are built, block by block and edge by edge, and the blocks their edges lead to.
A search from a block only finds blocks that it leads to, and it finds all of them. -/

namespace SignFlow.Graph

/-- Graphs made from an entry and an exit by adding blocks, and edges between blocks that are there. -/
inductive Built : Graph → Prop
  | start (function : Option String) (firstId : Nat) :
    Built { function := function, firstId := firstId }
  | block {g : Graph} (b : Block) : Built g → Built (g.addBlock b)
  | edge {g : Graph} {e : Edge} : Built g → e.src < g.size → e.dst < g.size → Built (g.addEdge e)

structure Closed (g : Graph) : Prop where
  entry_lt : entry < g.size
  src_lt : ∀ e ∈ g.edges, e.src < g.size
  dst_lt : ∀ e ∈ g.edges, e.dst < g.size

theorem Built.closed {g : Graph} (h : g.Built) : g.Closed := by
  induction h with
  | start function firstId =>
    exact ⟨by simp [entry, size], by simp, by simp⟩
  | @block g b _ ih =>
    have grow : ∀ {n}, n < g.size → n < (g.addBlock b).size := by
      intro n hn
      simp only [addBlock, size, List.length_append, List.length_singleton] at hn ⊢
      omega
    exact ⟨grow ih.entry_lt, fun e he => grow (ih.src_lt e he), fun e he => grow (ih.dst_lt e he)⟩
  | @edge g e _ hs hd ih =>
    refine ⟨ih.entry_lt, fun f hf => ?_, fun f hf => ?_⟩
    · rcases List.mem_append.mp hf with hf | hf
      · exact ih.src_lt f hf
      · rw [List.mem_singleton.mp hf]; exact hs
    · rcases List.mem_append.mp hf with hf | hf
      · exact ih.dst_lt f hf
      · rw [List.mem_singleton.mp hf]; exact hd

def Leads (g : Graph) (a b : Nat) : Prop := ∃ e ∈ g.edges, e.src = a ∧ e.dst = b

def Reaches (g : Graph) : Nat → Nat → Prop := Relation.ReflTransGen g.Leads

theorem Reaches.mono {g g' : Graph} (h : ∀ e ∈ g.edges, e ∈ g'.edges) {a b : Nat} (hr : g.Reaches a b) :
    g'.Reaches a b := by
  refine Relation.ReflTransGen.mono (fun x y hl => ?_) _ _ hr
  obtain ⟨e, he, hxy⟩ := hl
  exact ⟨e, h e he, hxy⟩

theorem mem_leaving {g : Graph} {n : Nat} {e : Edge} : e ∈ g.leaving n ↔ e ∈ g.edges ∧ e.src = n := by
  simp [leaving]

theorem mem_entering {g : Graph} {n : Nat} {e : Edge} : e ∈ g.entering n ↔ e ∈ g.edges ∧ e.dst = n := by
  simp [entering]

theorem mem_successors {g : Graph} {a b : Nat} : b ∈ g.successors a ↔ g.Leads a b := by
  simp [successors, mem_leaving, Leads, and_assoc]

theorem mem_positions {g : Graph} {n : Nat} : n ∈ g.positions ↔ n < g.size := by
  simp [positions]

theorem Closed.lt_of_reaches {g : Graph} (h : g.Closed) {a b : Nat} (ha : a < g.size)
    (hr : g.Reaches a b) : b < g.size := by
  induction hr with
  | refl => exact ha
  | tail _ hl _ =>
    obtain ⟨e, he, -, rfl⟩ := hl
    exact h.dst_lt e he

/-- A search through a list of blocks takes one state to another. A block that is new is seen first,
and finished when the blocks it leads to have been searched. -/
inductive Searches (g : Graph) : List Nat → Search → Search → Prop
  | done {s : Search} : Searches g [] s s
  | known {s t : Search} {k : Nat} {ks : List Nat} (h : k ∈ s.seen) (rest : Searches g ks s t) :
    Searches g (k :: ks) s t
  | new {s t u : Search} {k : Nat} {ks : List Nat} (h : k ∉ s.seen)
    (below : Searches g (g.successors k) { s with seen := k :: s.seen } t)
    (rest : Searches g ks { t with order := k :: t.order } u) : Searches g (k :: ks) s u

theorem Searches.cons {g : Graph} {k : Nat} {ks : List Nat} {s t u : Search} (h : g.Searches [k] s t)
    (rest : g.Searches ks t u) : g.Searches (k :: ks) s u := by
  cases h with
  | known h done => cases done; exact .known h rest
  | new h below done => cases done; exact .new h below rest

theorem Searches.keeps {g : Graph} {ks : List Nat} {s t : Search} (h : g.Searches ks s t) :
    s.seen ⊆ t.seen := by
  induction h with
  | done => exact List.Subset.refl _
  | known _ _ ih => exact ih
  | new _ _ _ ihbelow ihrest =>
    exact List.Subset.trans (List.subset_cons_self _ _) (List.Subset.trans ihbelow ihrest)

theorem Searches.sees {g : Graph} {ks : List Nat} {s t : Search} (h : g.Searches ks s t) :
    ks ⊆ t.seen := by
  induction h with
  | done => exact List.nil_subset _
  | known hk rest ih => exact List.cons_subset.mpr ⟨rest.keeps hk, ih⟩
  | new _ below rest _ ih =>
    exact List.cons_subset.mpr ⟨rest.keeps (below.keeps List.mem_cons_self), ih⟩

theorem Searches.found {g : Graph} {ks : List Nat} {s t : Search} (h : g.Searches ks s t) {m : Nat}
    (hm : m ∈ t.seen) : m ∈ s.seen ∨ ∃ k ∈ ks, g.Reaches k m := by
  induction h with
  | done => exact .inl hm
  | known _ _ ih =>
    exact (ih hm).imp_right fun ⟨k, hk, hr⟩ => ⟨k, List.mem_cons_of_mem _ hk, hr⟩
  | @new s t u k ks _ _ _ ihbelow ihrest =>
    rcases ihrest hm with hm | ⟨j, hj, hr⟩
    · rcases ihbelow hm with hm | ⟨j, hj, hr⟩
      · rcases List.mem_cons.mp hm with rfl | hm
        · exact .inr ⟨m, List.mem_cons_self, .refl⟩
        · exact .inl hm
      · exact .inr ⟨k, List.mem_cons_self, .head (mem_successors.mp hj) hr⟩
    · exact .inr ⟨j, List.mem_cons_of_mem _ hj, hr⟩

/-- All that is seen on the way leads to what is seen in the end. -/
theorem Searches.settles {g : Graph} {ks : List Nat} {s t : Search} (h : g.Searches ks s t) {m : Nat}
    (hm : m ∈ t.seen) (hs : m ∉ s.seen) : g.successors m ⊆ t.seen := by
  induction h with
  | done => exact absurd hm hs
  | known _ _ ih => exact ih hm hs
  | @new s t u k ks _ below rest ihbelow ihrest =>
    by_cases hmt : m ∈ t.seen
    · refine List.Subset.trans ?_ rest.keeps
      by_cases hmk : m = k
      · rw [hmk]
        exact below.sees
      · exact ihbelow hmt fun h => (List.mem_cons.mp h).elim hmk hs
    · exact ihrest hm hmt

def unseen (g : Graph) (s : Search) : Finset Nat := (Finset.range g.size).filter (· ∉ s.seen)

theorem unseen_mono {g : Graph} {s t : Search} (h : s.seen ⊆ t.seen) : g.unseen t ⊆ g.unseen s :=
  Finset.monotone_filter_right _ fun _ _ hn hm => hn (h hm)

theorem foldl_searches {g : Graph} {fuel : Nat} (start : Search)
    (hexplore : ∀ {k t}, k < g.size → k ∉ t.seen → start.seen ⊆ t.seen →
      g.Searches [k] t (g.explore fuel k t))
    {ks : List Nat} (hks : ∀ k ∈ ks, k < g.size) {t : Search} (ht : start.seen ⊆ t.seen) :
    g.Searches ks t (ks.foldl (fun s m => if s.seen.contains m then s else g.explore fuel m s) t) := by
  induction ks generalizing t with
  | nil => exact .done
  | cons k ks ih =>
    have hrest : ∀ j ∈ ks, j < g.size := fun j hj => hks j (List.mem_cons_of_mem _ hj)
    rw [List.foldl_cons]
    split
    · next hin => exact .known (List.contains_iff_mem.mp hin) (ih hrest ht)
    · next hin =>
      have hone := hexplore (hks k List.mem_cons_self) (fun hm => hin (List.contains_iff_mem.mpr hm)) ht
      exact hone.cons (ih hrest (List.Subset.trans ht hone.keeps))

/-- With fuel for every block that is not seen yet, a search goes on to its end. -/
theorem explore_searches {g : Graph} (hg : g.Closed) {fuel n : Nat} {s : Search} (hn : n < g.size)
    (hs : n ∉ s.seen) (hfuel : (g.unseen s).card ≤ fuel) : g.Searches [n] s (g.explore fuel n s) := by
  have hmem : n ∈ g.unseen s := Finset.mem_filter.mpr ⟨Finset.mem_range.mpr hn, hs⟩
  induction fuel generalizing n s with
  | zero => exact absurd (Finset.card_pos.mpr ⟨n, hmem⟩) (by omega)
  | succ fuel ih =>
    let start : Search := { s with seen := n :: s.seen }
    have hless : (g.unseen start).card < (g.unseen s).card := by
      refine Finset.card_lt_card ⟨unseen_mono (List.subset_cons_self n s.seen), fun hsub => ?_⟩
      exact (Finset.mem_filter.mp (hsub hmem)).2 List.mem_cons_self
    have hsucc : ∀ k ∈ g.successors n, k < g.size := by
      intro k hk
      obtain ⟨e, he, -, rfl⟩ := mem_successors.mp hk
      exact hg.dst_lt e he
    have hexplore : ∀ {k t}, k < g.size → k ∉ t.seen → start.seen ⊆ t.seen →
        g.Searches [k] t (g.explore fuel k t) := by
      intro k t hk hout ht
      have hle := Finset.card_le_card (unseen_mono (g := g) ht)
      exact ih hk hout (by omega) (Finset.mem_filter.mpr ⟨Finset.mem_range.mpr hk, hout⟩)
    exact .new hs (foldl_searches start hexplore hsucc (List.Subset.refl _)) .done

theorem exploreFrom_searches {g : Graph} (hg : g.Closed) {starts : List Nat}
    (hstarts : ∀ k ∈ starts, k < g.size) : g.Searches starts {} (g.exploreFrom starts) := by
  refine foldl_searches {} (fun hk hout _ => explore_searches hg hk hout ?_) hstarts
    (List.Subset.refl _)
  exact (Finset.card_filter_le _ _).trans (Finset.card_range _).le

/-- A search from several blocks sees exactly the blocks that one of them leads to. -/
theorem mem_exploreFrom {g : Graph} (hg : g.Closed) {starts : List Nat} (hstarts : ∀ k ∈ starts, k < g.size)
    {n : Nat} : n ∈ (g.exploreFrom starts).seen ↔ ∃ k ∈ starts, g.Reaches k n := by
  have hsearch := exploreFrom_searches hg hstarts
  constructor
  · exact fun h => (hsearch.found h).resolve_left List.not_mem_nil
  · rintro ⟨k, hk, hr⟩
    induction hr with
    | refl => exact hsearch.sees hk
    | tail _ hl ih => exact hsearch.settles ih List.not_mem_nil (mem_successors.mpr hl)

/-- The search finds exactly the blocks that control can get to. -/
theorem mem_reachable {g : Graph} (hg : g.Closed) {start n : Nat} (hstart : start < g.size) :
    n ∈ g.reachable start ↔ g.Reaches start n := by
  have hseen : n ∈ (g.exploreFrom [start]).seen ↔ g.Reaches start n := by
    rw [mem_exploreFrom hg (by simpa using hstart)]
    simp
  simp only [reachable, List.mem_filter, mem_positions, List.contains_iff_mem, hseen]
  exact and_iff_right_of_imp (hg.lt_of_reaches hstart)

end SignFlow.Graph

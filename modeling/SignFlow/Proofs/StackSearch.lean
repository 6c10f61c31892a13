import Mathlib.Logic.Function.Iterate
import SignFlow.Proofs.Dominance
import SignFlow.Proofs.Postorder

/-! Depth-first search as a loop.

The search that lists blocks in reverse post-order calls itself for every new block. Written as a loop, it
keeps a stack of the blocks it is busy with. The loop ends, and with the same list. -/

namespace SignFlow

structure StackSearch extends Search where
  /-- The blocks that are not finished, each with the number of its successors that have been looked at. -/
  stack : List (Nat × Nat)

def StackSearch.start : StackSearch := ⟨⟨[Graph.entry], []⟩, [(Graph.entry, 0)]⟩

namespace Graph

/-- One turn of the loop looks at the next successor of the block on top, which comes on top itself if it
is new. If there is none, the block is finished. -/
def turn (g : Graph) (s : StackSearch) : StackSearch :=
  match s.stack with
  | [] => s
  | (n, i) :: rest =>
    match (g.successors n)[i]? with
    | some m =>
      if s.seen.contains m then { s with stack := (n, i + 1) :: rest }
      else { s with seen := m :: s.seen, stack := (m, 0) :: (n, i + 1) :: rest }
    | none => { s with order := n :: s.order, stack := rest }

def turns (g : Graph) : List Nat → Nat
  | [] => 0
  | n :: order => (g.successors n).length + 1 + g.turns order

variable {g : Graph} {s t : Search} {n m i : Nat} {rest : List (Nat × Nat)}

theorem turn_known (h : (g.successors n)[i]? = some m) (hm : m ∈ s.seen) :
    g.turn ⟨s, (n, i) :: rest⟩ = ⟨s, (n, i + 1) :: rest⟩ := by
  simp only [turn, h, if_pos (List.contains_iff_mem.mpr hm)]

theorem turn_new (h : (g.successors n)[i]? = some m) (hm : m ∉ s.seen) :
    g.turn ⟨s, (n, i) :: rest⟩ = ⟨{ s with seen := m :: s.seen }, (m, 0) :: (n, i + 1) :: rest⟩ := by
  simp only [turn, h, if_neg (mt List.contains_iff_mem.mp hm)]

theorem turn_finish (h : (g.successors n)[i]? = none) :
    g.turn ⟨s, (n, i) :: rest⟩ = ⟨{ s with order := n :: s.order }, rest⟩ := by
  simp only [turn, h]

/-- A search through the successors that are left of the block on top is what the loop does until that
block is off the stack. What is under it on the stack is not touched. -/
theorem Searches.turns {ks : List Nat} (h : g.Searches ks s t) (n i : Nat) (rest : List (Nat × Nat))
    (hks : (g.successors n).drop i = ks) :
    ∃ k, k + g.turns s.order = ks.length + 1 + g.turns t.order ∧
      g.turn^[k] ⟨s, (n, i) :: rest⟩ = ⟨{ t with order := n :: t.order }, rest⟩ := by
  induction h generalizing n i rest with
  | @done s =>
    have hnone : (g.successors n)[i]? = none := by rw [← List.head?_drop, hks]; rfl
    exact ⟨1, by simp, turn_finish hnone⟩
  | @known s t k ks hk _ ih =>
    have hnext : (g.successors n)[i]? = some k := by rw [← List.head?_drop, hks]; rfl
    obtain ⟨j, hj, hrun⟩ := ih n (i + 1) rest (by rw [← List.tail_drop, hks]; rfl)
    refine ⟨j + 1, by rw [List.length_cons]; omega, ?_⟩
    rw [Function.iterate_succ_apply, turn_known hnext hk, hrun]
  | @new s t u k ks hk _ _ ihbelow ihrest =>
    have hnext : (g.successors n)[i]? = some k := by rw [← List.head?_drop, hks]; rfl
    obtain ⟨a, ha, hbelow⟩ := ihbelow k 0 ((n, i + 1) :: rest) rfl
    obtain ⟨b, hb, hrest⟩ := ihrest n (i + 1) rest (by rw [← List.tail_drop, hks]; rfl)
    refine ⟨b + (a + 1), ?_, ?_⟩
    · simp only [Graph.turns, List.length_cons] at ha hb ⊢
      omega
    · rw [Function.iterate_add_apply, Function.iterate_succ_apply, turn_new hnext hk, hbelow, hrest]

theorem exploreFrom_entry (hg : g.Closed) : ∃ t, g.Searches (g.successors entry) { seen := [entry] } t ∧
    g.exploreFrom [entry] = { t with order := entry :: t.order } := by
  have h : g.Searches [entry] {} (g.exploreFrom [entry]) :=
    exploreFrom_searches hg (by simpa using hg.entry_lt)
  generalize g.exploreFrom [entry] = u at h ⊢
  cases h with
  | known h _ => exact absurd h List.not_mem_nil
  | new _ below rest =>
    cases rest
    exact ⟨_, below, rfl⟩

theorem reaches_of_idxOf_le (hg : g.Closed) {u v : Nat} (hu : u ∈ g.reversePostorder) (hl : g.Leads u v)
    (hle : g.reversePostorder.idxOf v ≤ g.reversePostorder.idxOf u) : g.Reaches v u := by
  obtain ⟨before, rest, horder⟩ := List.append_of_mem hu
  have hsuffix : u :: rest <:+ g.reversePostorder := ⟨before, horder.symm⟩
  refine (forward_reversePostorder hg hsuffix hl).resolve_left fun hv => ?_
  exact absurd (idxOf_lt_of_suffix (nodup_reversePostorder hg) hsuffix hv) (Nat.not_lt.mpr hle)

/-- Reverse post-order is right. The loop that computes it ends, after one turn for each block that is
reached and one for each edge that leaves such a block. The list holds exactly the blocks that can be
reached from the entry, once each, and the entry first. Of an edge between listed blocks, the destination
stands behind the source, or it leads back to the source. -/
theorem reversePostorder_exact (hg : g.Closed) :
    (∃ seen, g.turn^[g.turns g.reversePostorder] .start = ⟨⟨seen, g.reversePostorder⟩, []⟩) ∧
    g.reversePostorder.Nodup ∧
    (∀ n, (n ∈ g.reversePostorder ↔ n ∈ g.reachable entry) ∧
      (n ∈ g.reversePostorder ↔ g.Reaches entry n)) ∧
    g.reversePostorder.head? = some entry ∧
    ∀ e ∈ g.edges, e.src ∈ g.reversePostorder → e.dst ∈ g.reversePostorder →
      g.reversePostorder.idxOf e.dst ≤ g.reversePostorder.idxOf e.src → g.Reaches e.dst e.src := by
  obtain ⟨t, hsearch, hexplore⟩ := exploreFrom_entry hg
  have horder : g.reversePostorder = entry :: t.order := congrArg Search.order hexplore
  refine ⟨⟨t.seen, ?_⟩, nodup_reversePostorder hg, fun n => ⟨?_, mem_reversePostorder hg⟩, ?_, ?_⟩
  · obtain ⟨k, hk, hrun⟩ := hsearch.turns entry 0 [] rfl
    have hturns : g.turns g.reversePostorder = k := by
      simp only [Graph.turns, horder] at hk ⊢
      omega
    rw [hturns, horder]
    exact hrun
  · rw [mem_reversePostorder hg, mem_reachable hg hg.entry_lt]
  · rw [horder]
    rfl
  · exact fun e he hsrc _ hle => reaches_of_idxOf_le hg hsrc ⟨e, he, rfl, rfl⟩ hle

/-- Of eight turns three finish a block, and two look at the edge from the loop to itself and at the one back
to the entry. -/
theorem reversePostorder_exact_tangle :
    tangle.Closed ∧ tangle.reversePostorder = [0, 2, 1] ∧ tangle.turns [0, 2, 1] = 8 ∧
      (∃ seen, tangle.turn^[8] .start = ⟨⟨seen, [0, 2, 1]⟩, []⟩) ∧ tangle.Reaches 0 2 := by
  have horder : tangle.reversePostorder = [0, 2, 1] := by decide
  have hturns : tangle.turns [0, 2, 1] = 8 := by decide
  obtain ⟨hloop, -, -, -, hback⟩ := reversePostorder_exact tangle_closed
  rw [horder] at hloop hback
  rw [hturns] at hloop
  exact ⟨tangle_closed, horder, hturns, hloop,
    hback ⟨2, 0, .goto, none⟩ (by decide) (by decide) (by decide) (by decide)⟩

end Graph

end SignFlow

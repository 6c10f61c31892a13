import SignFlow.Proofs.Convergence

/-! One pass over a graph without cycles.

In reverse post-order every block of such a graph comes after all that lead to it. A run that starts with this
order as its worklist finds the successors of a visited block still waiting, so it puts nothing back and is
through when the list is. Nothing is asked of the domain or of the transfers. -/

namespace SignFlow

namespace Graph

variable {g : Graph} {a b n k : Nat} {rest : List Nat}

def Acyclic (g : Graph) : Prop := ∀ n, g.Reaches entry n → ¬Relation.TransGen g.Leads n n

theorem acyclic_of_rank (rank : Nat → Nat) (h : ∀ e ∈ g.edges, rank e.src < rank e.dst) : g.Acyclic := by
  have hstep : ∀ a b, g.Leads a b → rank a < rank b := by
    rintro _ _ ⟨e, he, rfl, rfl⟩
    exact h e he
  have hpath : ∀ a b, Relation.TransGen g.Leads a b → rank a < rank b := by
    intro a b hpath
    induction hpath with
    | single hl => exact hstep _ _ hl
    | tail _ hl ih => exact ih.trans (hstep _ _ hl)
  exact fun n _ hcycle => Nat.lt_irrefl _ (hpath n n hcycle)

theorem Acyclic.mem_rest (h : g.Acyclic) (hg : g.Closed) (hsuffix : n :: rest <:+ g.reversePostorder)
    (hl : g.Leads n k) : k ∈ rest := by
  refine (forward_reversePostorder hg hsuffix hl).resolve_right fun hback => ?_
  have hn : g.Reaches entry n := (mem_reversePostorder hg).mp (hsuffix.subset List.mem_cons_self)
  exact h n hn (.head' hl hback)

theorem Acyclic.idxOf_lt (h : g.Acyclic) (hg : g.Closed) (ha : g.Reaches entry a) (hl : g.Leads a b) :
    g.reversePostorder.idxOf a < g.reversePostorder.idxOf b := by
  obtain ⟨before, rest, horder⟩ := List.append_of_mem ((mem_reversePostorder hg).mpr ha)
  have hsuffix : a :: rest <:+ g.reversePostorder := ⟨before, horder.symm⟩
  exact idxOf_lt_of_suffix (nodup_reversePostorder hg) hsuffix (h.mem_rest hg hsuffix hl)

end Graph

theorem Strategy.foldl_add_eq {strategy : Strategy} {w ns : List Nat} (h : ns ⊆ w) :
    ns.foldl strategy.add w = w := by
  induction ns with
  | nil => rfl
  | cons n ns ih =>
    have hn : strategy.add w n = w := if_pos (List.contains_iff_mem.mpr (h List.mem_cons_self))
    rw [List.foldl_cons, hn]
    exact ih (List.subset_of_cons_subset h)

/-- From one state to the next the run comes to its end, or it visits a block: this block and maybe some
before it are taken off the worklist, and nothing is put on it. -/
def Progress.TakesOff {α : Type} (s s' : Progress α) : Prop :=
  s' = { s with worklist := [] } ∨ ∃ n, s'.visits = n :: s.visits ∧ n :: s'.worklist <:+ s.worklist

namespace Problem

variable {α : Type} {p : Problem Id α}

theorem nextVisit_suffix {s : Progress α} {w : List Nat} {n : Nat} {merged : α} {rest : List Nat}
    (h : p.nextVisit s w = some (n, merged, rest)) : n :: rest <:+ w := by
  induction w with
  | nil => cases h
  | cons k w ih =>
    obtain ⟨found, -, h⟩ := Returning.id.of_bind h
    split at h
    · exact (ih h).trans (List.suffix_cons k w)
    · obtain ⟨rfl, rfl, rfl⟩ : k = n ∧ found = merged ∧ w = rest := by
        simpa using Returning.id.pure_inj h
      exact List.suffix_refl _

theorem run_one_takesOff (hg : p.graph.Closed) (ha : p.graph.Acyclic) {s : Progress α}
    (hs : s.worklist <:+ p.graph.reversePostorder) : s.TakesOff (p.run .rpo 1 s) := by
  rw [run_next]
  cases hnext : p.nextVisit s s.worklist with
  | none => exact .inl rfl
  | some next =>
    obtain ⟨n, merged, rest⟩ := next
    have hsuffix := nextVisit_suffix hnext
    have hwaiting : p.graph.successors n ⊆ rest := fun k hk =>
      ha.mem_rest hg (hsuffix.trans hs) (Graph.mem_successors.mp hk)
    have hsame : (p.graph.successors n).foldl (Strategy.add .rpo) rest = rest :=
      Strategy.foldl_add_eq hwaiting
    refine .inr ⟨n, rfl, ?_⟩
    show n :: (p.graph.successors n).foldl (Strategy.add .rpo) rest <:+ s.worklist
    rwa [hsame]

/-- The visits so far and then the worklist are a part of the order. -/
structure Sweeping (p : Problem Id α) (s : Progress α) : Prop where
  suffix : s.worklist <:+ p.graph.reversePostorder
  sublist : (s.visits.reverse ++ s.worklist).Sublist p.graph.reversePostorder

theorem Sweeping.step {s s' : Progress α} (hs : p.Sweeping s) (h : s.TakesOff s') : p.Sweeping s' := by
  rcases h with rfl | ⟨n, hvisits, hsuffix⟩
  · refine ⟨List.nil_suffix, ?_⟩
    rw [List.append_nil]
    exact (List.sublist_append_left _ _).trans hs.sublist
  · refine ⟨((List.suffix_cons n _).trans hsuffix).trans hs.suffix, ?_⟩
    rw [hvisits, List.reverse_cons, List.append_assoc, List.singleton_append]
    exact ((List.Sublist.refl _).append hsuffix.sublist).trans hs.sublist

theorem begin_sweeping : p.Sweeping (p.begin .rpo) := ⟨List.suffix_refl _, List.Sublist.refl _⟩

theorem run_sweeping (hg : p.graph.Closed) (ha : p.graph.Acyclic) (limit : Nat) :
    p.Sweeping (p.run .rpo limit (p.begin .rpo)) := by
  induction limit with
  | zero => exact begin_sweeping
  | succ limit ih =>
    rw [run_succ]
    exact ih.step (run_one_takesOff hg ha ih.suffix)

theorem reached_eq_length (hg : p.graph.Closed) : p.reached = p.graph.reversePostorder.length := by
  have hset : { n | p.graph.Reaches Graph.entry n } = ↑p.graph.reversePostorder.toFinset := by
    ext n
    simp [Graph.mem_reversePostorder hg]
  rw [reached, hset, Set.ncard_coe_finset, List.toFinset_card_of_nodup (Graph.nodup_reversePostorder hg)]

/-- On a graph without cycles, reverse post-order lists exactly the blocks that the entry leads to, once
each and after all that lead to them. A run in this order calls the transfer at blocks of the list in that
order, so at most once at each; from one visit to the next it only takes blocks off the worklist; and if its
limit is no less than the number of these blocks it converges, to a solution of the equations where the
domain's equality is exact. -/
theorem solve_sweeps_once {α : Type} (p : Problem Id α) (hg : p.graph.Closed) (ha : p.graph.Acyclic)
    (limit : Int) :
    let order := p.graph.reversePostorder
    (order.Nodup ∧ (∀ n, n ∈ order ↔ p.graph.Reaches Graph.entry n) ∧
      ∀ a b, p.graph.Reaches Graph.entry a → p.graph.Leads a b → order.idxOf a < order.idxOf b) ∧
    (∃ calls : List Nat,
      ((p.watched List.cons).solve .rpo limit).run [] = (p.solve .rpo limit, calls) ∧
      calls.reverse.Sublist order) ∧
    (∀ k, (p.run .rpo k (p.begin .rpo)).TakesOff (p.run .rpo (k + 1) (p.begin .rpo))) ∧
    (p.reached ≤ limit → (p.solve .rpo limit).converged = true ∧
      (p.domain.Exact → p.Balanced (p.solve .rpo limit))) := by
  intro order
  obtain ⟨s, hrun, hr⟩ : ∃ s, p.run .rpo limit.toNat (p.begin .rpo) = s ∧
      p.solve .rpo limit = s.finish := ⟨_, rfl, rfl⟩
  have hs : p.Sweeping s := hrun ▸ run_sweeping hg ha limit.toNat
  refine ⟨⟨Graph.nodup_reversePostorder hg, fun n => Graph.mem_reversePostorder hg,
    fun a b => ha.idxOf_lt hg⟩, ⟨_, watched_solve p List.cons .rpo limit [], ?_⟩, fun k => ?_, fun hle => ?_⟩
  · rw [List.foldr_cons_nil, List.reverse_reverse, hr]
    exact (List.sublist_append_left _ _).trans hs.sublist
  · rw [run_succ]
    exact run_one_takesOff hg ha (run_sweeping hg ha k).suffix
  · have hconv : (p.solve .rpo limit).converged = true := by
      rw [hr, Progress.converged_finish]
      -- at the limit all blocks have been visited, so none can be left
      refine (run_drains hrun).elim id fun hfull => ?_
      have hlength := hs.sublist.length_le
      rw [reached_eq_length hg] at hle
      simp only [begin, List.length_nil, List.length_append, List.length_reverse] at hfull hlength
      exact List.length_eq_zero_iff.mp (by omega)
    exact ⟨hconv, fun hD => solve_balanced hg hD hconv⟩

/-- Two ways that meet in block 4, one of them with two edges from the entry to block 3. Block 5 leads to
block 4 and nothing leads to it. -/
def meetingGraph : Graph where
  blocks := [⟨.entry, []⟩, ⟨.exit, []⟩, ⟨.ifTrue, []⟩, ⟨.ifFalse, []⟩, ⟨.ifMerge, []⟩, ⟨.unreachable, []⟩]
  edges := [⟨0, 3, .branchTrue, none⟩, ⟨0, 3, .branchFalse, none⟩, ⟨3, 4, .fallThrough, none⟩,
    ⟨0, 2, .fallThrough, none⟩, ⟨2, 3, .goto, none⟩, ⟨2, 4, .fallThrough, none⟩,
    ⟨4, 1, .fallThrough, none⟩, ⟨5, 4, .fallThrough, none⟩]

theorem meetingGraph_closed : meetingGraph.Closed := ⟨by decide, by decide, by decide⟩

def meetingRank (n : Nat) : Nat := [1, 5, 2, 3, 4, 0].getD n 0

/-- Sets of integers on these ways; each block takes out what the one before it has put in. -/
def meetingProblem : Problem Id IntSet where
  graph := meetingGraph
  domain := IntSet.domain
  transfer n s := (s.insert n).erase (n - 1)
  along _ s := s
  initial := .empty

theorem solve_sweeps_once_meeting :
    meetingGraph.Closed ∧ meetingGraph.Acyclic ∧ meetingGraph.reversePostorder = [0, 2, 3, 4, 1] ∧
      (meetingProblem.reached : Int) ≤ 5 ∧ (meetingProblem.solve .rpo 5).converged = true ∧
      meetingProblem.Balanced (meetingProblem.solve .rpo 5) := by
  have hc := meetingGraph_closed
  have ha : meetingGraph.Acyclic := Graph.acyclic_of_rank meetingRank (by decide)
  have horder : meetingGraph.reversePostorder = [0, 2, 3, 4, 1] := by decide
  have hreached : (meetingProblem.reached : Int) ≤ 5 := by
    rw [reached_eq_length (p := meetingProblem) hc]
    show (meetingGraph.reversePostorder.length : Int) ≤ 5
    rw [horder]
    decide
  obtain ⟨hconv, hequations⟩ := (solve_sweeps_once meetingProblem hc ha 5).2.2.2 hreached
  exact ⟨hc, ha, horder, hreached, hconv, hequations IntSet.domain_exact⟩

end Problem

end SignFlow

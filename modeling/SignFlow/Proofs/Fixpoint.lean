import Mathlib.Data.List.Sort
import Mathlib.Tactic
import SignFlow.Dataflow.IntSet
import SignFlow.Proofs.Worklist

/-! A converged solution is a fixpoint.

No law of the domain is used but that its equality test is exact: transfers may lower facts, and joining
need not be a bound. Blocks the entry does not lead to never get facts, and the transfer is called once
for each visit counted. Verification checks the equations of every block, so it finds any one fact changed. -/

namespace SignFlow

theorem Sign.domain_exact : Sign.domain.Exact := fun a b => decide_eq_true_iff (p := a = b)

theorem Store.domain_exact : Store.domain.Exact := fun s t => decide_eq_true_iff (p := s = t)

theorem IntSet.subset_iff {s t : IntSet} : s.subset t = true ↔ ∀ n ∈ s.members, n ∈ t.members := by
  simp [subset]

theorem IntSet.domain_exact : IntSet.domain.Exact := by
  intro s t
  show (s.subset t && t.subset s) = true ↔ s = t
  rw [Bool.and_eq_true, subset_iff, subset_iff]
  constructor
  · rintro ⟨hst, hts⟩
    have hmem : s.members = t.members :=
      s.increasing.eq_of_mem_iff t.increasing fun n => ⟨hst n, hts n⟩
    cases s; cases t; cases hmem; rfl
  · rintro rfl
    exact ⟨fun _ h => h, fun _ h => h⟩

theorem allM_pure {m : Type → Type} [Monad m] [LawfulMonad m] {α : Type} {f : α → m Bool} {l : List α}
    (h : ∀ a ∈ l, f a = pure true) : l.allM f = pure true := by
  induction l with
  | nil => rfl
  | cons a l ih =>
    rw [List.allM, h a List.mem_cons_self, pure_bind]
    exact ih fun b hb => h b (List.mem_cons_of_mem _ hb)

theorem allM_id {α : Type} {f : α → Id Bool} {l : List α} : l.allM f = true ↔ ∀ a ∈ l, f a = true := by
  induction l with
  | nil => simp [List.allM, pure]
  | cons a l ih =>
    rw [List.forall_mem_cons, ← ih, List.allM]
    cases hb : (f a : Bool) with
    | false => exact ⟨fun h => absurd h Bool.false_ne_true, fun h => absurd h.1 Bool.false_ne_true⟩
    | true => exact ⟨fun h => ⟨rfl, h⟩, fun h => h.2⟩

namespace Problem

section Equations

variable {m : Type → Type} {α : Type} {p : Problem m α}

theorem getElem?_eq_fact {facts : List α} {n : Nat} (h : n < facts.length) :
    facts[n]? = some (p.fact facts n) := by
  simp [fact, h]

variable [Monad m]

theorem Invariant.equations {s : Progress α} (hs : p.Invariant s) (hw : s.worklist = []) (n : Nat) :
    p.incoming s.outputs n = pure (p.fact s.inputs n) ∧
      (p.fact s.inputs n ≠ p.domain.bottom →
        p.transfer n (p.fact s.inputs n) = pure (p.fact s.outputs n)) := by
  refine ⟨hs.settled n (by simp [hw]), fun hne => ?_⟩
  by_cases hv : n ∈ s.visits
  · exact (hs.visited n hv).2
  · exact absurd (hs.unvisited n hv).1 hne

theorem Invariant.verify [LawfulMonad m] (hD : p.domain.Exact) {s : Progress α} (hs : p.Invariant s)
    (hw : s.worklist = []) : p.verify s.finish = pure true := by
  apply allM_pure
  intro n _
  obtain ⟨hmerged, htransfer⟩ := hs.equations hw n
  have hmerged : p.incoming s.finish.outputs n = pure (p.fact s.inputs n) := hmerged
  have heq : p.domain.eq (p.fact s.inputs n) (s.finish.inputs.getD n p.domain.bottom) = true :=
    (hD _ _).mpr rfl
  rw [hmerged, pure_bind, heq]
  by_cases hb : p.fact s.inputs n = p.domain.bottom
  · simp [hD.isBottom.mpr hb]
  · have hb' : p.domain.isBottom (p.fact s.inputs n) = false :=
      Bool.eq_false_iff.mpr fun h => hb (hD.isBottom.mp h)
    have heq' : p.domain.eq (p.fact s.outputs n) (s.finish.outputs.getD n p.domain.bottom) = true :=
      (hD _ _).mpr rfl
    simp only [Bool.not_true, Bool.false_eq_true, if_false, hb', htransfer hb, pure_bind, heq']

theorem Invariant.unreached {s : Progress α} (hs : p.Invariant s) {n : Nat}
    (hn : ¬p.graph.Reaches Graph.entry n) :
    p.fact s.inputs n = p.domain.bottom ∧ p.fact s.outputs n = p.domain.bottom :=
  hs.unvisited n fun hv => hn (hs.visited n hv).1

end Equations

section Watching

variable {α : Type}

/-- The same problem with a state that changes at every call of its transfer. -/
def watched {σ : Type} (p : Problem Id α) (see : Nat → σ → σ) : Problem (StateM σ) α where
  graph := p.graph
  domain := p.domain
  transfer n a := do
    modify (see n)
    pure (p.transfer n a)
  along e a := pure (p.along e a)
  initial := p.initial

variable {σ : Type} (p : Problem Id α) (see : Nat → σ → σ)

theorem watched_incoming (outputs : List α) (n : Nat) :
    (p.watched see).incoming outputs n = pure (p.incoming outputs n) := by
  rw [incoming_eq, incoming_eq]
  have hc : ∀ acc e, (p.watched see).carry outputs acc e = pure (p.carry outputs acc e) := by
    intro acc e
    by_cases hb : p.domain.isBottom (outputs.getD e.src p.domain.bottom) = true
    · exact (if_pos hb).trans (congrArg pure (if_pos hb).symm)
    · refine (if_neg hb).trans ?_
      rw [show p.carry outputs acc e = _ from if_neg hb]
      exact pure_bind _ _
  show List.foldlM _ (p.own n) (p.graph.entering n) = _
  generalize p.own n = acc
  induction p.graph.entering n generalizing acc with
  | nil => rfl
  | cons e es ih =>
    rw [List.foldlM_cons, hc, pure_bind, ih]
    rfl

theorem watched_nextVisit (s : Progress α) (w : List Nat) :
    (p.watched see).nextVisit s w = pure (p.nextVisit s w) := by
  induction w with
  | nil => rfl
  | cons n rest ih =>
    rw [nextVisit, watched_incoming, pure_bind, ih, nextVisit]
    by_cases hc : (p.domain.eq (p.incoming s.outputs n) (s.inputs.getD n p.domain.bottom)
        && !(n == Graph.entry && s.visits.isEmpty)) = true
    · exact (if_pos hc).trans (congrArg pure (if_pos hc).symm)
    · exact (if_neg hc).trans (congrArg pure (if_neg hc).symm)

/-- A run calls the transfer once for each block it adds to the visits, in that order. -/
theorem watched_run (strategy : Strategy) (limit : Nat) (start : σ) (s : Progress α) :
    ((p.watched see).run strategy limit s).run (s.visits.foldr see start) =
      (p.run strategy limit s, (p.run strategy limit s).visits.foldr see start) := by
  induction limit generalizing s with
  | zero => rfl
  | succ limit ih =>
    unfold run
    rw [watched_nextVisit, pure_bind]
    cases p.nextVisit s s.worklist with
    | none => rfl
    | some next => exact ih _

theorem watched_solve (strategy : Strategy) (limit : Int) (start : σ) :
    ((p.watched see).solve strategy limit).run start =
      (p.solve strategy limit, (p.solve strategy limit).visits.reverse.foldr see start) := by
  have h := watched_run p see strategy limit.toNat start (p.begin strategy)
  have hvisits : (p.solve strategy limit).visits.reverse =
      (p.run strategy limit.toNat (p.begin strategy)).visits := List.reverse_reverse _
  rw [hvisits]
  exact congrArg (fun x : Progress α × σ =>
    (({ inputs := x.1.inputs, outputs := x.1.outputs, visits := x.1.visits.reverse,
        converged := x.1.worklist.isEmpty } : Solution α), x.2)) h

theorem watched_solve_iterations (strategy : Strategy) (limit : Int) :
    ((p.watched fun _ => (· + 1)).solve strategy limit).run 0 =
      (p.solve strategy limit, (p.solve strategy limit).iterations) := by
  have hlength : ∀ ns : List Nat, ns.foldr (fun _ calls => calls + 1) 0 = ns.length := by
    intro ns
    induction ns with
    | nil => rfl
    | cons n ns ih => rw [List.foldr_cons, ih, List.length_cons]
  rw [watched_solve, hlength, List.length_reverse]
  rfl

end Watching

section Checking

variable {α : Type} {p : Problem Id α}

/-- The equations of a block: its input is what its edges carry, and with an input its output is the transfer
of that. -/
def BalancedAt (p : Problem Id α) (r : Solution α) (n : Nat) : Prop :=
  p.incoming r.outputs n = p.fact r.inputs n ∧
    (p.fact r.inputs n ≠ p.domain.bottom → p.transfer n (p.fact r.inputs n) = p.fact r.outputs n)

def Balanced (p : Problem Id α) (r : Solution α) : Prop := ∀ n < p.graph.size, p.BalancedAt r n

theorem solve_balanced (hg : p.graph.Closed) (hD : p.domain.Exact) {strategy : Strategy} {limit : Int}
    (hc : (p.solve strategy limit).converged = true) : p.Balanced (p.solve strategy limit) := by
  obtain ⟨s, hrun, hr⟩ : ∃ s, p.run strategy limit.toNat (p.begin strategy) = s ∧
      p.solve strategy limit = s.finish := ⟨_, rfl, rfl⟩
  rw [hr] at hc ⊢
  have hs := run_invariant Returning.id hg hD hrun
  exact fun n _ => hs.equations (Progress.converged_finish.mp hc) n

theorem verify_iff (hD : p.domain.Exact) {r : Solution α} : p.verify r = true ↔ p.Balanced r := by
  rw [verify, allM_id, Balanced]
  simp only [Graph.mem_positions]
  refine forall₂_congr fun n _ => ?_
  show (if !p.domain.eq (p.incoming r.outputs n) (p.fact r.inputs n) then false
    else if p.domain.isBottom (p.incoming r.outputs n) then true
    else p.domain.eq (p.transfer n (p.incoming r.outputs n)) (p.fact r.outputs n)) = true ↔ _
  unfold BalancedAt
  by_cases hin : p.incoming r.outputs n = p.fact r.inputs n
  · rw [hin, (hD _ _).mpr rfl]
    by_cases hb : p.fact r.inputs n = p.domain.bottom
    · simp [hD.isBottom.mpr, hb]
    · have hb' : p.domain.isBottom (p.fact r.inputs n) = false :=
        Bool.eq_false_iff.mpr fun h => hb (hD.isBottom.mp h)
      simp [hb', hb, hD _ _]
  · have hne : p.domain.eq (p.incoming r.outputs n) (p.fact r.inputs n) = false :=
      Bool.eq_false_iff.mpr fun h => hin ((hD _ _).mp h)
    simp [hne, hin]

theorem verify_eq_false (hD : p.domain.Exact) {r : Solution α} {n : Nat} (hn : n < p.graph.size)
    (h : ¬p.BalancedAt r n) : p.verify r = false :=
  Bool.eq_false_iff.mpr fun hv => h ((verify_iff hD).mp hv n hn)

end Checking

/-- For any graph, any domain with an exact equality and any transfers: blocks out of reach of the entry
keep no facts, the transfer is called at most as often as the limit allows, and a converged solution
passes verification, since it satisfies the equations at every block. -/
theorem solve_verifies {α : Type} (p : Problem Id α) (hg : p.graph.Built) (hD : p.domain.Exact)
    (strategy : Strategy) (limit : Nat) :
    let r : Solution α := p.solve strategy limit
    (∀ n < p.graph.size, ¬p.graph.Reaches Graph.entry n →
      r.inputs[n]? = some p.domain.bottom ∧ r.outputs[n]? = some p.domain.bottom) ∧
    (((p.watched fun _ => (· + 1)).solve strategy limit).run 0 = (r, r.iterations) ∧
      r.iterations ≤ limit) ∧
    (r.converged = true → p.verify r = true ∧ ∀ n < p.graph.size,
      r.inputs[n]? = some (p.incoming r.outputs n) ∧
      (p.incoming r.outputs n ≠ p.domain.bottom →
        r.outputs[n]? = some (p.transfer n (p.incoming r.outputs n)))) := by
  intro r
  have hcount : ((p.watched fun _ => (· + 1)).solve strategy limit).run 0 = (r, r.iterations) :=
    watched_solve_iterations p strategy limit
  have hsolve : p.solve strategy limit = pure r := rfl
  clear_value r
  obtain ⟨s, hrun, rfl⟩ := solve_run Returning.id hsolve
  have hs := run_invariant Returning.id hg.closed hD hrun
  have hin : ∀ n < p.graph.size, s.finish.inputs[n]? = some (p.fact s.inputs n) := fun n hn =>
    getElem?_eq_fact (hn.trans_eq hs.inputs_length.symm)
  have hout : ∀ n < p.graph.size, s.finish.outputs[n]? = some (p.fact s.outputs n) := fun n hn =>
    getElem?_eq_fact (hn.trans_eq hs.outputs_length.symm)
  refine ⟨fun n hn hreach => ?_, ⟨hcount, ?_⟩, fun hc => ?_⟩
  · obtain ⟨hi, ho⟩ := hs.unreached hreach
    rw [hin n hn, hout n hn, hi, ho]
    exact ⟨rfl, rfl⟩
  · have hlen := run_visits Returning.id hrun
    rw [Solution.iterations, Progress.finish, List.length_reverse]
    simpa [begin] using hlen
  · rw [Progress.converged_finish] at hc
    refine ⟨hs.verify hD hc, fun n hn => ?_⟩
    obtain ⟨hmerged, htransfer⟩ := hs.equations hc n
    have hmerged : p.incoming s.finish.outputs n = p.fact s.inputs n := hmerged
    refine ⟨by rw [hin n hn, hmerged], fun hne => ?_⟩
    rw [hout n hn, hmerged]
    exact congrArg some (htransfer (hmerged ▸ hne)).symm

/-- A loop through block 2, an exit behind it, and block 3 that nothing leads to. -/
def loopGraph : Graph where
  blocks := [⟨.entry, []⟩, ⟨.exit, []⟩, ⟨.loopBody, []⟩, ⟨.unreachable, []⟩]
  edges := [⟨0, 2, .fallThrough, none⟩, ⟨2, 2, .backEdge, none⟩, ⟨2, 1, .fallThrough, none⟩,
    ⟨3, 1, .fallThrough, none⟩]

theorem loopGraph_built : loopGraph.Built :=
  .edge (.edge (.edge (.edge (.block ⟨.unreachable, []⟩ (.block ⟨.loopBody, []⟩ (.start none 0)))
    (by decide) (by decide)) (by decide) (by decide)) (by decide) (by decide)) (by decide) (by decide)

/-- Sets of integers on the loop. The loop's body takes 0 out, so its transfer lowers some facts. -/
def loopProblem : Problem Id IntSet where
  graph := loopGraph
  domain := IntSet.domain
  transfer n s := if n = 2 then (s.insert 5).erase 0 else s.insert 0
  along _ s := s
  initial := .empty

theorem solve_verifies_loop :
    Sign.domain.Exact ∧ Store.domain.Exact ∧ IntSet.domain.Exact ∧ loopProblem.graph.Built ∧
      (loopProblem.solve .lifo 10).converged = true ∧
      loopProblem.verify (loopProblem.solve .lifo 10) = true := by
  have hc : (loopProblem.solve .lifo 10).converged = true := by decide
  exact ⟨Sign.domain_exact, Store.domain_exact, IntSet.domain_exact, loopGraph_built, hc,
    ((solve_verifies loopProblem loopGraph_built IntSet.domain_exact .lifo 10).2.2 hc).1⟩

/-- A converged solution passes verification, and no longer does so once a single fact of it is another: the
fact before any block, or the fact after a block that has facts before it. This is so even where the changed
output flows back into its own block. -/
theorem verify_detects_change {α : Type} (p : Problem Id α) (hg : p.graph.Closed) (hD : p.domain.Exact)
    (strategy : Strategy) (limit : Int) :
    let r : Solution α := p.solve strategy limit
    r.converged = true → p.verify r = true ∧ ∀ n < p.graph.size, ∀ a,
      (r.inputs[n]? ≠ some a → p.verify { r with inputs := r.inputs.set n a } = false) ∧
      (r.inputs[n]? ≠ some p.domain.bottom → r.outputs[n]? ≠ some a →
        p.verify { r with outputs := r.outputs.set n a } = false) := by
  intro r hc
  have hsolve : p.solve strategy limit = pure r := rfl
  clear_value r
  obtain ⟨s, hrun, rfl⟩ := solve_run Returning.id hsolve
  have hs := run_invariant Returning.id hg hD hrun
  rw [Progress.converged_finish] at hc
  refine ⟨hs.verify hD hc, fun n hn a => ?_⟩
  obtain ⟨hinput, houtput⟩ := hs.equations hc n
  have hin : n < s.inputs.length := hn.trans_eq hs.inputs_length.symm
  have hout : n < s.outputs.length := hn.trans_eq hs.outputs_length.symm
  show (s.inputs[n]? ≠ some a → _) ∧ (s.inputs[n]? ≠ some p.domain.bottom → s.outputs[n]? ≠ some a → _)
  rw [getElem?_eq_fact (p := p) hin, getElem?_eq_fact (p := p) hout]
  refine ⟨fun hne => verify_eq_false hD hn fun hb => hne ?_,
    fun hsome hne => verify_eq_false hD hn fun hb => hne ?_⟩
  · -- what comes in has not changed
    have hnew : p.incoming s.outputs n = p.fact (s.inputs.set n a) n := hb.1
    rw [fact_set hin, if_pos rfl] at hnew
    exact congrArg some (Eq.trans hinput.symm hnew)
  · -- what comes in is the old input again, so the transfer gives the old output
    have hnew : p.fact s.inputs n ≠ p.domain.bottom →
        p.transfer n (p.fact s.inputs n) = p.fact (s.outputs.set n a) n := hb.2
    have hold : p.fact s.inputs n ≠ p.domain.bottom := fun h => hsome (congrArg some h)
    rw [fact_set hout, if_pos rfl] at hnew
    exact congrArg some (Eq.trans (houtput hold).symm (hnew hold))

/-- The solution of the loop with another output of its body, one that leaves the input of the body as it is. -/
def changedSolution : Solution IntSet :=
  let r : Solution IntSet := loopProblem.solve .fifo 10
  { r with outputs := r.outputs.set 2 ((IntSet.empty.insert 0).insert 5) }

theorem verify_detects_change_loop :
    loopProblem.graph.Closed ∧ IntSet.domain.Exact ∧ (loopProblem.solve .fifo 10).converged = true ∧
      IntSet.domain.eq (loopProblem.incoming changedSolution.outputs 2)
        (changedSolution.inputs.getD 2 .empty) = true ∧
      loopProblem.verify changedSolution = false := by
  have hg := loopGraph_built.closed
  have hc : (loopProblem.solve .fifo 10).converged = true := by decide
  have hchange := (verify_detects_change loopProblem hg IntSet.domain_exact .fifo 10 hc).2 2 (by decide)
  exact ⟨hg, IntSet.domain_exact, hc, by decide, (hchange _).2 (by decide) (by decide)⟩

end Problem

end SignFlow

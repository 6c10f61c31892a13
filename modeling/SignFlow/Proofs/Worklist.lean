import Mathlib.Tactic
import SignFlow.Dataflow.Solver
import SignFlow.Proofs.Postorder

/-! What the worklist keeps true between two visits.

A block that is not on the worklist has the input that its edges carry; a visited block has the transfer
of its input as its output; the others have no facts. The entry is the first block visited. Steps may
have effects, so all of it is said of steps that return. -/

namespace SignFlow

/-- A computation returns one value, and only if each of its steps returns. -/
structure Returning (m : Type → Type) [Monad m] : Prop where
  pure_inj : ∀ {α : Type} {a b : α}, (pure a : m α) = pure b → a = b
  of_bind : ∀ {α β : Type} {x : m α} {f : α → m β} {b : β},
    x >>= f = pure b → ∃ a, x = pure a ∧ f a = pure b

theorem Returning.id : Returning Id := ⟨fun h => h, fun h => ⟨_, rfl, h⟩⟩

theorem Returning.except (ε : Type) : Returning (Except ε) := by
  refine ⟨fun h => by injection h, fun {α β x f b} h => ?_⟩
  cases x with
  | error e => cases h
  | ok a => exact ⟨a, rfl, h⟩

/-- The domain's test for equal facts finds exactly the equal ones. -/
def Domain.Exact {α : Type} (D : Domain α) : Prop := ∀ a b, D.eq a b = true ↔ a = b

theorem Domain.Exact.isBottom {α : Type} {D : Domain α} (h : D.Exact) {a : α} :
    D.isBottom a = true ↔ a = D.bottom := h a D.bottom

theorem Strategy.mem_add {strategy : Strategy} {w : List Nat} {n k : Nat} :
    k ∈ strategy.add w n ↔ k ∈ w ∨ k = n := by
  unfold Strategy.add
  split
  · rename_i h
    have h : n ∈ w := by simpa using h
    constructor
    · exact .inl
    · rintro (hk | rfl)
      · exact hk
      · exact h
  · cases strategy <;> simp [or_comm]

theorem Strategy.mem_foldl_add {strategy : Strategy} {w ns : List Nat} {k : Nat} :
    k ∈ ns.foldl strategy.add w ↔ k ∈ w ∨ k ∈ ns := by
  induction ns generalizing w with
  | nil => simp
  | cons n ns ih => rw [List.foldl_cons, ih, mem_add, List.mem_cons, or_assoc]

theorem Strategy.mem_start {strategy : Strategy} {g : Graph} (h : g.Closed) :
    Graph.entry ∈ strategy.start g ∧ ∀ n ∈ strategy.start g, g.Reaches Graph.entry n := by
  cases strategy with
  | rpo =>
    exact ⟨(Graph.mem_reversePostorder h).mpr .refl, fun _ => (Graph.mem_reversePostorder h).mp⟩
  | fifo => simp [start, Graph.Reaches, Relation.ReflTransGen.refl]
  | lifo => simp [start, Graph.Reaches, Relation.ReflTransGen.refl]

theorem getD_set {α : Type} {l : List α} {i j : Nat} {a d : α} (h : i < l.length) :
    (l.set i a).getD j d = if i = j then a else l.getD j d := by
  simp only [List.getD_eq_getElem?_getD, List.getElem?_set, h, if_true]
  split <;> rfl

def Progress.finish {α : Type} (s : Progress α) : Solution α where
  inputs := s.inputs
  outputs := s.outputs
  visits := s.visits.reverse
  converged := s.worklist.isEmpty

theorem Progress.converged_finish {α : Type} {s : Progress α} :
    s.finish.converged = true ↔ s.worklist = [] := List.isEmpty_iff

namespace Problem

variable {m : Type → Type} {α : Type} {p : Problem m α}

def fact (p : Problem m α) (facts : List α) (n : Nat) : α := facts.getD n p.domain.bottom

theorem fact_set {facts : List α} {n : Nat} (h : n < facts.length) (a : α) (k : Nat) :
    p.fact (facts.set n a) k = if n = k then a else p.fact facts k := getD_set h

theorem fact_blank (p : Problem m α) (n : Nat) :
    p.fact (p.graph.blocks.map fun _ => p.domain.bottom) n = p.domain.bottom := by
  simp only [fact, List.getD_eq_getElem?_getD, List.getElem?_map]
  cases p.graph.blocks[n]? <;> rfl

def own (p : Problem m α) (n : Nat) : α := if n == Graph.entry then p.initial else p.domain.bottom

def begin (p : Problem m α) (strategy : Strategy) : Progress α :=
  let blank := p.graph.blocks.map fun _ => p.domain.bottom
  { inputs := blank, outputs := blank, worklist := strategy.start p.graph }

def visit (p : Problem m α) (strategy : Strategy) (s : Progress α) (n : Nat) (merged out : α)
    (rest : List Nat) : Progress α where
  inputs := s.inputs.set n merged
  outputs := s.outputs.set n out
  worklist := (p.graph.successors n).foldl strategy.add rest
  visits := n :: s.visits

theorem unchanged_iff (hD : p.domain.Exact) {s : Progress α} {n : Nat} {merged : α} :
    (p.domain.eq merged (s.inputs.getD n p.domain.bottom)
        && !(n == Graph.entry && s.visits.isEmpty)) = true ↔
      merged = p.fact s.inputs n ∧ ¬(n = Graph.entry ∧ s.visits = []) := by
  rw [Bool.and_eq_true, hD, Bool.not_eq_true', ← Bool.not_eq_true, Bool.and_eq_true, beq_iff_eq,
    List.isEmpty_iff]
  rfl

variable [Monad m]

/-- The joining of one edge's fact in `incoming`. -/
def carry (p : Problem m α) (outputs : List α) (acc : α) (e : Edge) : m α :=
  let fact := outputs.getD e.src p.domain.bottom
  if p.domain.isBottom fact then pure acc
  else do
    let carried ← p.along e fact
    pure (p.domain.join acc carried)

theorem incoming_eq (p : Problem m α) (outputs : List α) (n : Nat) :
    p.incoming outputs n = (p.graph.entering n).foldlM (p.carry outputs) (p.own n) := rfl

theorem incoming_congr {outputs outputs' : List α} {n : Nat}
    (h : ∀ k, p.graph.Leads k n → p.fact outputs k = p.fact outputs' k) :
    p.incoming outputs n = p.incoming outputs' n := by
  have key : ∀ (es : List Edge), (∀ e ∈ es, p.fact outputs e.src = p.fact outputs' e.src) →
      ∀ acc, es.foldlM (p.carry outputs) acc = es.foldlM (p.carry outputs') acc := by
    intro es
    induction es with
    | nil => intro _ acc; rfl
    | cons e es ih =>
      intro hes acc
      have he : outputs.getD e.src p.domain.bottom = outputs'.getD e.src p.domain.bottom :=
        hes e List.mem_cons_self
      have hc : p.carry outputs acc e = p.carry outputs' acc e := by simp only [carry, he]
      rw [List.foldlM_cons, List.foldlM_cons, hc]
      congr 1
      funext a
      exact ih (fun e' he' => hes e' (List.mem_cons_of_mem _ he')) a
  rw [incoming_eq, incoming_eq]
  apply key
  intro e he
  obtain ⟨hm, hd⟩ := Graph.mem_entering.mp he
  exact h e.src ⟨e, hm, rfl, hd⟩

theorem incoming_blank [LawfulMonad m] (hD : p.domain.Exact) {outputs : List α} {n : Nat}
    (h : ∀ k, p.fact outputs k = p.domain.bottom) : p.incoming outputs n = pure (p.own n) := by
  rw [incoming_eq]
  have hc : ∀ acc e, p.carry outputs acc e = pure acc := by
    intro acc e
    have he : outputs.getD e.src p.domain.bottom = p.domain.bottom := h e.src
    simp only [carry, he, hD.isBottom.mpr, if_true]
  induction p.graph.entering n with
  | nil => rfl
  | cons e es ih => rw [List.foldlM_cons, hc, pure_bind, ih]

/-- What holds between two visits. -/
structure Invariant (p : Problem m α) (s : Progress α) : Prop where
  inputs_length : s.inputs.length = p.graph.size
  outputs_length : s.outputs.length = p.graph.size
  listed : ∀ n ∈ s.worklist, p.graph.Reaches Graph.entry n
  visited : ∀ n ∈ s.visits, p.graph.Reaches Graph.entry n ∧
    p.transfer n (p.fact s.inputs n) = pure (p.fact s.outputs n)
  unvisited : ∀ n, n ∉ s.visits →
    p.fact s.inputs n = p.domain.bottom ∧ p.fact s.outputs n = p.domain.bottom
  settled : ∀ n, n ∉ s.worklist → p.incoming s.outputs n = pure (p.fact s.inputs n)
  entered : s.visits = [] → Graph.entry ∈ s.worklist
  entry_first : s.visits ≠ [] → Graph.entry ∈ s.visits

/-- Nothing new comes in, and it is not the entry's first visit. -/
def Passes (p : Problem m α) (s : Progress α) (n : Nat) : Prop :=
  p.incoming s.outputs n = pure (p.fact s.inputs n) ∧ ¬(n = Graph.entry ∧ s.visits = [])

/-- The input is new, or it is the entry's first visit. -/
def Due (p : Problem m α) (s : Progress α) (n : Nat) (merged : α) : Prop :=
  p.incoming s.outputs n = pure merged ∧
    (merged ≠ p.fact s.inputs n ∨ n = Graph.entry ∧ s.visits = [])

theorem nextVisit_none [LawfulMonad m] (hm : Returning m) (hD : p.domain.Exact) {s : Progress α}
    {w : List Nat} (h : p.nextVisit s w = pure none) : ∀ n ∈ w, p.Passes s n := by
  induction w with
  | nil => simp
  | cons n rest ih =>
    obtain ⟨merged, hmerged, h⟩ := hm.of_bind h
    split at h
    · rename_i hc
      obtain ⟨rfl, hne⟩ := (unchanged_iff hD).mp hc
      intro k hk
      rcases List.mem_cons.mp hk with rfl | hk
      · exact ⟨hmerged, hne⟩
      · exact ih h k hk
    · exact absurd (hm.pure_inj h) (by simp)

theorem nextVisit_some [LawfulMonad m] (hm : Returning m) (hD : p.domain.Exact) {s : Progress α}
    {w : List Nat} {n : Nat} {merged : α} {rest : List Nat}
    (h : p.nextVisit s w = pure (some (n, merged, rest))) :
    ∃ skipped, w = skipped ++ n :: rest ∧ (∀ k ∈ skipped, p.Passes s k) ∧ p.Due s n merged := by
  induction w with
  | nil => exact absurd (hm.pure_inj h) (by simp)
  | cons k w ih =>
    obtain ⟨found, hfound, h⟩ := hm.of_bind h
    split at h
    · rename_i hc
      obtain ⟨rfl, hne⟩ := (unchanged_iff hD).mp hc
      obtain ⟨skipped, rfl, hs, hdue⟩ := ih h
      refine ⟨k :: skipped, rfl, fun j hj => ?_, hdue⟩
      rcases List.mem_cons.mp hj with rfl | hj
      · exact ⟨hfound, hne⟩
      · exact hs j hj
    · rename_i hc
      rw [unchanged_iff hD, not_and, not_not] at hc
      have heq := hm.pure_inj h
      simp only [Option.some.injEq, Prod.mk.injEq] at heq
      obtain ⟨rfl, rfl, rfl⟩ := heq
      refine ⟨[], rfl, by simp, hfound, ?_⟩
      by_cases he : found = p.fact s.inputs k
      · exact .inr (hc he)
      · exact .inl he

theorem begin_invariant [LawfulMonad m] (hg : p.graph.Closed) (hD : p.domain.Exact)
    (strategy : Strategy) : p.Invariant (p.begin strategy) := by
  obtain ⟨hentry, hreach⟩ := @Strategy.mem_start strategy _ hg
  refine ⟨by simp [begin, Graph.size], by simp [begin, Graph.size], hreach, by simp [begin],
    fun n _ => ⟨p.fact_blank n, p.fact_blank n⟩, ?_, fun _ => hentry, by simp [begin]⟩
  intro n hn
  have hne : n ≠ Graph.entry := by rintro rfl; exact hn hentry
  have hblank : p.incoming (p.begin strategy).outputs n = pure (p.own n) :=
    incoming_blank hD p.fact_blank
  rw [hblank, own, if_neg (by simpa using hne)]
  exact congrArg pure (p.fact_blank n).symm

/-- The first block visited is the entry: before that no other block has anything coming in. -/
theorem Invariant.first_visit [LawfulMonad m] (hm : Returning m) (hD : p.domain.Exact)
    {s : Progress α} (hs : p.Invariant s) {n : Nat} {merged : α} (hdue : p.Due s n merged)
    (hv : s.visits = []) : n = Graph.entry := by
  obtain ⟨hmerged, hnew | ⟨he, -⟩⟩ := hdue
  · by_contra hne
    have hblank : ∀ k, p.fact s.outputs k = p.domain.bottom :=
      fun k => (hs.unvisited k (by simp [hv])).2
    rw [incoming_blank hD hblank, own, if_neg (by simpa using hne)] at hmerged
    have hin := (hs.unvisited n (by simp [hv])).1
    exact hnew ((hm.pure_inj hmerged).symm.trans hin.symm)
  · exact he

theorem visit_invariant [LawfulMonad m] (hm : Returning m) (hg : p.graph.Closed)
    (hD : p.domain.Exact) (strategy : Strategy) {s : Progress α} {skipped : List Nat} {n : Nat}
    {rest : List Nat} {merged out : α} (hs : p.Invariant s) (hw : s.worklist = skipped ++ n :: rest)
    (hskip : ∀ k ∈ skipped, p.Passes s k) (hdue : p.Due s n merged)
    (hout : p.transfer n merged = pure out) :
    p.Invariant (p.visit strategy s n merged out rest) := by
  have hreach : p.graph.Reaches Graph.entry n := hs.listed n (by simp [hw])
  have hn : n < p.graph.size := hg.lt_of_reaches hg.entry_lt hreach
  have hin := fact_set (p := p) (by rw [hs.inputs_length]; exact hn) merged
  have hou := fact_set (p := p) (by rw [hs.outputs_length]; exact hn) out
  constructor
  case inputs_length => simp [visit, hs.inputs_length]
  case outputs_length => simp [visit, hs.outputs_length]
  case listed =>
    intro k hk
    rcases Strategy.mem_foldl_add.mp hk with hk | hk
    · exact hs.listed k (by simp [hw, hk])
    · exact hreach.tail (Graph.mem_successors.mp hk)
  case visited =>
    intro k hk
    simp only [visit, hin, hou]
    rcases List.mem_cons.mp hk with rfl | hk
    · simpa using ⟨hreach, hout⟩
    · split
      · rename_i hnk
        subst hnk
        exact ⟨hreach, hout⟩
      · exact hs.visited k hk
  case unvisited =>
    intro k hk
    simp only [visit, List.mem_cons, not_or] at hk
    simp only [visit, hin, hou, if_neg (Ne.symm hk.1)]
    exact hs.unvisited k hk.2
  case settled =>
    -- a block whose predecessor changed is on the worklist, the others keep their input
    intro k hk
    simp only [visit, Strategy.mem_foldl_add, not_or] at hk
    have hsame : p.incoming (s.outputs.set n out) k = p.incoming s.outputs k := by
      apply incoming_congr
      intro j hj
      rw [hou, if_neg]
      rintro rfl
      exact hk.2 (Graph.mem_successors.mpr hj)
    simp only [visit, hsame, hin]
    split
    · rename_i hnk
      subst hnk
      exact hdue.1
    · rename_i hnk
      by_cases hks : k ∈ skipped
      · exact (hskip k hks).1
      · apply hs.settled
        simp [hw, hks, hk.1, Ne.symm hnk]
  case entered => simp [visit]
  case entry_first =>
    intro _
    by_cases hv : s.visits = []
    · rw [hs.first_visit hm hD hdue hv]
      exact List.mem_cons_self
    · exact List.mem_cons_of_mem _ (hs.entry_first hv)

/-- Once no block is due, the worklist can be dropped. -/
theorem drained_invariant {s : Progress α} (hs : p.Invariant s)
    (hpass : ∀ n ∈ s.worklist, p.Passes s n) : p.Invariant { s with worklist := [] } := by
  refine ⟨hs.inputs_length, hs.outputs_length, by simp, hs.visited, hs.unvisited, ?_, ?_,
    hs.entry_first⟩
  · intro n _
    by_cases hn : n ∈ s.worklist
    · exact (hpass n hn).1
    · exact hs.settled n hn
  · intro hv
    exact absurd ⟨rfl, hv⟩ (hpass _ (hs.entered hv)).2

/-- What holds at the start and is kept by every visit, and when the worklist is dropped, holds at the
end of a run. -/
theorem run_induction [LawfulMonad m] (hm : Returning m) (hD : p.domain.Exact) {strategy : Strategy}
    {Q : Progress α → Prop}
    (visit : ∀ {s skipped n rest merged out}, Q s → s.worklist = skipped ++ n :: rest →
      (∀ k ∈ skipped, p.Passes s k) → p.Due s n merged → p.transfer n merged = pure out →
      Q (p.visit strategy s n merged out rest))
    (drain : ∀ {s}, Q s → (∀ n ∈ s.worklist, p.Passes s n) → Q { s with worklist := [] })
    {limit : Nat} {s s' : Progress α} (hs : Q s) (h : p.run strategy limit s = pure s') : Q s' := by
  induction limit generalizing s with
  | zero =>
    obtain rfl := hm.pure_inj h
    exact hs
  | succ limit ih =>
    obtain ⟨next, hnext, h⟩ := hm.of_bind h
    match next with
    | none =>
      obtain rfl := hm.pure_inj h
      exact drain hs (nextVisit_none hm hD hnext)
    | some (n, merged, rest) =>
      obtain ⟨out, hout, h⟩ := hm.of_bind h
      obtain ⟨skipped, hw, hskip, hdue⟩ := nextVisit_some hm hD hnext
      exact ih (visit hs hw hskip hdue hout) h

theorem run_visits [LawfulMonad m] (hm : Returning m) {strategy : Strategy} {limit : Nat}
    {s s' : Progress α} (h : p.run strategy limit s = pure s') :
    s'.visits.length ≤ s.visits.length + limit := by
  induction limit generalizing s with
  | zero =>
    obtain rfl := hm.pure_inj h
    exact Nat.le_refl _
  | succ limit ih =>
    obtain ⟨next, -, h⟩ := hm.of_bind h
    match next with
    | none =>
      obtain rfl := hm.pure_inj h
      exact Nat.le_add_right _ _
    | some (n, merged, rest) =>
      obtain ⟨out, -, h⟩ := hm.of_bind h
      have := ih h
      simp only [List.length_cons] at this
      omega

theorem run_invariant [LawfulMonad m] (hm : Returning m) (hg : p.graph.Closed)
    (hD : p.domain.Exact) {strategy : Strategy} {limit : Nat} {s : Progress α}
    (h : p.run strategy limit (p.begin strategy) = pure s) : p.Invariant s :=
  run_induction hm hD (visit_invariant hm hg hD strategy) drained_invariant
    (begin_invariant hg hD strategy) h

theorem solve_run [LawfulMonad m] (hm : Returning m) {strategy : Strategy} {limit : Int}
    {r : Solution α} (h : p.solve strategy limit = pure r) :
    ∃ s, p.run strategy limit.toNat (p.begin strategy) = pure s ∧ r = s.finish := by
  obtain ⟨s, hrun, h⟩ := hm.of_bind h
  exact ⟨s, hrun, (hm.pure_inj h).symm⟩

end Problem

end SignFlow

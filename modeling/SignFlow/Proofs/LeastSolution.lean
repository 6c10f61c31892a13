import SignFlow.Proofs.Fixpoint

/-! Monotone problems have one answer.

A solution of a problem's equations gives every block the least bound of what flows into it. With
monotone transfers facts only rise, and never above those of any solution; so a converged run is the
least solution, and which block was visited when makes no difference. -/

namespace SignFlow

structure Domain.Lawful {α : Type} (D : Domain α) : Prop where
  exact : D.Exact
  le_refl : ∀ a, D.le a a = true
  le_trans : ∀ {a b c}, D.le a b = true → D.le b c = true → D.le a c = true
  le_antisymm : ∀ {a b}, D.le a b = true → D.le b a = true → a = b
  bottom_le : ∀ a, D.le D.bottom a = true
  le_join_left : ∀ a b, D.le a (D.join a b) = true
  le_join_right : ∀ a b, D.le b (D.join a b) = true
  join_le : ∀ {a b c}, D.le a c = true → D.le b c = true → D.le (D.join a b) c = true

theorem Domain.Lawful.eq_bottom {α : Type} {D : Domain α} (hD : D.Lawful) {a : α}
    (h : D.le a D.bottom = true) : a = D.bottom := hD.le_antisymm h (hD.bottom_le a)

theorem Sign.domain_lawful : Sign.domain.Lawful where
  exact := Sign.domain_exact
  le_refl a := by cases a <;> rfl
  le_trans {a b c} := by cases a <;> cases b <;> cases c <;> decide
  le_antisymm {a b} := by cases a <;> cases b <;> decide
  bottom_le a := by cases a <;> rfl
  le_join_left a b := by cases a <;> cases b <;> rfl
  le_join_right a b := by cases a <;> cases b <;> rfl
  join_le {a b c} := by cases a <;> cases b <;> cases c <;> decide

namespace Problem

variable {α : Type}

/-- The facts that flow into a block: the initial one into the entry, and along every edge from a block
with facts. -/
inductive Feeds (p : Problem Id α) (outs : Nat → α) (n : Nat) : α → Prop
  | initial (h : n = Graph.entry) : Feeds p outs n p.initial
  | edge {e : Edge} (he : e ∈ p.graph.edges) (hd : e.dst = n) (hb : outs e.src ≠ p.domain.bottom) :
    Feeds p outs n (p.along e (outs e.src))

/-- The fact is the least bound of all that flows into the block. -/
structure Merges (p : Problem Id α) (outs : Nat → α) (n : Nat) (a : α) : Prop where
  above : ∀ {b}, p.Feeds outs n b → p.domain.le b a = true
  least : ∀ {c}, (∀ {b}, p.Feeds outs n b → p.domain.le b c = true) → p.domain.le a c = true

/-- The equations of a problem. Only the entry has a transfer of nothing. -/
structure Solves (p : Problem Id α) (ins outs : Nat → α) : Prop where
  input : ∀ n < p.graph.size, p.Merges outs n (ins n)
  output : ∀ n < p.graph.size, n = Graph.entry ∨ ins n ≠ p.domain.bottom →
    outs n = p.transfer n (ins n)
  output_none : ∀ n < p.graph.size, n ≠ Graph.entry → ins n = p.domain.bottom →
    outs n = p.domain.bottom

structure Monotone (p : Problem Id α) : Prop where
  transfer : ∀ n {a b : α}, p.domain.le a b = true →
    p.domain.le (p.transfer n a) (p.transfer n b) = true
  along : ∀ e {a b : α}, p.domain.le a b = true → p.domain.le (p.along e a) (p.along e b) = true

variable {p : Problem Id α}

/-- Folding edges into a fact: above it and above what they carry, below every bound of these. -/
theorem foldlM_carry (hD : p.domain.Lawful) (outputs : List α) (es : List Edge) (acc : α) :
    let r : α := es.foldlM (p.carry outputs) acc
    (p.domain.le acc r = true ∧ ∀ e ∈ es, p.fact outputs e.src ≠ p.domain.bottom →
        p.domain.le (p.along e (p.fact outputs e.src)) r = true) ∧
      ∀ c, p.domain.le acc c = true → (∀ e ∈ es, p.fact outputs e.src ≠ p.domain.bottom →
        p.domain.le (p.along e (p.fact outputs e.src)) c = true) → p.domain.le r c = true := by
  induction es generalizing acc with
  | nil => exact ⟨⟨hD.le_refl acc, by simp⟩, fun c hc _ => hc⟩
  | cons e es ih =>
    intro r
    by_cases hb : p.fact outputs e.src = p.domain.bottom
    · have hc : p.carry outputs acc e = acc := if_pos (hD.exact.isBottom.mpr hb)
      obtain ⟨⟨h1, h2⟩, h3⟩ := ih acc
      have hr : r = es.foldlM (p.carry outputs) acc := by
        show List.foldlM (p.carry outputs) (p.carry outputs acc e) es = _
        rw [hc]
      rw [hr]
      refine ⟨⟨h1, fun f hf hne => ?_⟩, fun c hc hcs => h3 c hc fun f hf => hcs f (by simp [hf])⟩
      rcases List.mem_cons.mp hf with rfl | hf
      · exact absurd hb hne
      · exact h2 f hf hne
    · set carried : α := p.along e (p.fact outputs e.src)
      have hc : p.carry outputs acc e = p.domain.join acc carried :=
        if_neg fun h => hb (hD.exact.isBottom.mp h)
      obtain ⟨⟨h1, h2⟩, h3⟩ := ih (p.domain.join acc carried)
      have hr : r = es.foldlM (p.carry outputs) (p.domain.join acc carried) := by
        show List.foldlM (p.carry outputs) (p.carry outputs acc e) es = _
        rw [hc]
      rw [hr]
      refine ⟨⟨hD.le_trans (hD.le_join_left _ _) h1, fun f hf hne => ?_⟩, fun c hc hcs => ?_⟩
      · rcases List.mem_cons.mp hf with rfl | hf
        · exact hD.le_trans (hD.le_join_right _ _) h1
        · exact h2 f hf hne
      · exact h3 c (hD.join_le hc (hcs e (by simp) hb)) fun f hf => hcs f (by simp [hf])

theorem incoming_merges (hD : p.domain.Lawful) (outputs : List α) (n : Nat) :
    p.Merges (p.fact outputs) n (p.incoming outputs n) := by
  obtain ⟨⟨hown, hedges⟩, hleast⟩ := foldlM_carry hD outputs (p.graph.entering n) (p.own n)
  constructor
  case above =>
    intro b hb
    cases hb with
    | initial h =>
      have : p.own n = p.initial := if_pos (by simp [h])
      rw [← this]
      exact hown
    | edge he hd hne => exact hedges _ (Graph.mem_entering.mpr ⟨he, hd⟩) hne
  case least =>
    intro c hc
    apply hleast
    · unfold own
      split
      · rename_i h
        exact hc (.initial (by simpa using h))
      · exact hD.bottom_le c
    · intro e he hne
      obtain ⟨hm, hd⟩ := Graph.mem_entering.mp he
      exact hc (.edge hm hd hne)

theorem Merges.mono (hD : p.domain.Lawful) (hp : p.Monotone) {outs outs' : Nat → α} {n : Nat}
    {a a' : α} (h : p.Merges outs n a) (h' : p.Merges outs' n a')
    (hle : ∀ k, p.domain.le (outs k) (outs' k) = true) : p.domain.le a a' = true := by
  apply h.least
  intro b hb
  cases hb with
  | initial hn => exact h'.above (.initial hn)
  | @edge e he hd hne =>
    refine hD.le_trans (hp.along e (hle e.src)) (h'.above (.edge he hd fun hb => hne ?_))
    exact hD.eq_bottom (hb ▸ hle e.src)

def Below (p : Problem Id α) (ins outs : Nat → α) (s : Progress α) : Prop :=
  ∀ n, p.domain.le (p.fact s.inputs n) (ins n) = true ∧
    p.domain.le (p.fact s.outputs n) (outs n) = true

structure Rising (p : Problem Id α) (s : Progress α) : Prop where
  input_le : ∀ n, p.domain.le (p.fact s.inputs n) (p.incoming s.outputs n) = true
  live : ∀ n ∈ s.visits, n ≠ Graph.entry → p.fact s.inputs n ≠ p.domain.bottom

theorem begin_below (hD : p.domain.Lawful) (strategy : Strategy) (ins outs : Nat → α) :
    p.Below ins outs (p.begin strategy) := by
  intro n
  have hb : p.fact (p.begin strategy).inputs n = p.domain.bottom := p.fact_blank n
  have hb' : p.fact (p.begin strategy).outputs n = p.domain.bottom := p.fact_blank n
  rw [hb, hb']
  exact ⟨hD.bottom_le _, hD.bottom_le _⟩

theorem begin_rising (hD : p.domain.Lawful) (strategy : Strategy) : p.Rising (p.begin strategy) := by
  refine ⟨fun n => ?_, by simp [begin]⟩
  have hb : p.fact (p.begin strategy).inputs n = p.domain.bottom := p.fact_blank n
  rw [hb]
  exact hD.bottom_le _

section Visit

variable {strategy : Strategy} {s : Progress α} {n : Nat} {merged out : α} {rest : List Nat}

/-- A visit brings nothing that a solution does not have. -/
theorem visit_below (hD : p.domain.Lawful) (hp : p.Monotone)
    {ins outs : Nat → α} (hsol : p.Solves ins outs) (hs : p.Invariant s) (hb : p.Below ins outs s)
    (hn : n < p.graph.size) (hdue : p.Due s n merged) (hout : p.transfer n merged = out) :
    p.Below ins outs (p.visit strategy s n merged out rest) := by
  have hmerged : p.incoming s.outputs n = merged := hdue.1
  have hle : p.domain.le merged (ins n) = true := by
    rw [← hmerged]
    exact (incoming_merges hD s.outputs n).mono hD hp (hsol.input n hn) fun k => (hb k).2
  have hole : p.domain.le out (outs n) = true := by
    by_cases hlive : n = Graph.entry ∨ ins n ≠ p.domain.bottom
    · rw [hsol.output n hn hlive, ← hout]
      exact hp.transfer n hle
    · -- a block that has no facts in the solution has none coming in, and is not visited
      obtain ⟨hne, hin⟩ := not_or.mp hlive
      rw [not_not] at hin
      have hi := (hb n).1
      rw [hin] at hle hi
      rcases hdue.2 with h | ⟨h, -⟩
      · exact absurd ((hD.eq_bottom hle).trans (hD.eq_bottom hi).symm) h
      · exact absurd h hne
  intro k
  simp only [visit, fact_set (hn.trans_eq hs.inputs_length.symm),
    fact_set (hn.trans_eq hs.outputs_length.symm)]
  split_ifs with hk
  · subst hk; exact ⟨hle, hole⟩
  · exact hb k

theorem visit_rising (hD : p.domain.Lawful) (hp : p.Monotone) (hs : p.Invariant s) (hr : p.Rising s)
    (hn : n < p.graph.size) (hdue : p.Due s n merged) (hout : p.transfer n merged = out) :
    p.Rising (p.visit strategy s n merged out rest) := by
  have hmerged : p.incoming s.outputs n = merged := hdue.1
  have hup : p.domain.le (p.fact s.inputs n) merged = true := hmerged ▸ hr.input_le n
  have hin := fact_set (p := p) (hn.trans_eq hs.inputs_length.symm) merged
  have hou := fact_set (p := p) (hn.trans_eq hs.outputs_length.symm) out
  -- the block had the transfer of a smaller input, or nothing
  have hole : p.domain.le (p.fact s.outputs n) out = true := by
    by_cases hv : n ∈ s.visits
    · have htransfer : p.transfer n (p.fact s.inputs n) = p.fact s.outputs n := (hs.visited n hv).2
      rw [← htransfer, ← hout]
      exact hp.transfer n hup
    · rw [(hs.unvisited n hv).2]
      exact hD.bottom_le out
  have hgrow : ∀ k, p.domain.le (p.fact s.outputs k) (p.fact (s.outputs.set n out) k) = true := by
    intro k
    rw [hou]
    split_ifs with hk
    · subst hk; exact hole
    · exact hD.le_refl _
  have hmono : ∀ k, p.domain.le (p.incoming s.outputs k) (p.incoming (s.outputs.set n out) k) = true :=
    fun k => (incoming_merges hD s.outputs k).mono hD hp (incoming_merges hD _ k) hgrow
  constructor
  case input_le =>
    intro k
    simp only [visit, hin]
    split_ifs with hk
    · subst hk
      rw [← hmerged]
      exact hmono n
    · exact hD.le_trans (hr.input_le k) (hmono k)
  case live =>
    intro k hk hne
    simp only [visit, hin]
    split_ifs with hnk
    · subst hnk
      rintro rfl
      rcases hdue.2 with h | ⟨h, -⟩
      · exact h (hD.eq_bottom hup).symm
      · exact hne h
    · rcases List.mem_cons.mp hk with rfl | hk
      · exact absurd rfl hnk
      · exact hr.live k hk hne

end Visit

theorem run_below (hg : p.graph.Closed) (hD : p.domain.Lawful) (hp : p.Monotone)
    {ins outs : Nat → α} (hsol : p.Solves ins outs) {strategy : Strategy} {limit : Nat}
    {s : Progress α} (h : p.run strategy limit (p.begin strategy) = pure s) : p.Below ins outs s := by
  have := run_induction (p := p) (Q := fun s => p.Invariant s ∧ p.Below ins outs s) Returning.id
    hD.exact ?_ ?_ ⟨begin_invariant hg hD.exact strategy, begin_below hD strategy ins outs⟩ h
  · exact this.2
  · intro s skipped n rest merged out hs hw hskip hdue hout
    have hn := hg.lt_of_reaches hg.entry_lt (hs.1.listed n (by simp [hw]))
    exact ⟨visit_invariant Returning.id hg hD.exact strategy hs.1 hw hskip hdue hout,
      visit_below hD hp hsol hs.1 hs.2 hn hdue hout⟩
  · intro s hs hpass
    exact ⟨drained_invariant hs.1 hpass, hs.2⟩

theorem run_rising (hg : p.graph.Closed) (hD : p.domain.Lawful) (hp : p.Monotone)
    {strategy : Strategy} {limit : Nat} {s : Progress α}
    (h : p.run strategy limit (p.begin strategy) = pure s) : p.Rising s := by
  have := run_induction (p := p) (Q := fun s => p.Invariant s ∧ p.Rising s) Returning.id hD.exact
    ?_ ?_ ⟨begin_invariant hg hD.exact strategy, begin_rising hD strategy⟩ h
  · exact this.2
  · intro s skipped n rest merged out hs hw hskip hdue hout
    have hn := hg.lt_of_reaches hg.entry_lt (hs.1.listed n (by simp [hw]))
    exact ⟨visit_invariant Returning.id hg hD.exact strategy hs.1 hw hskip hdue hout,
      visit_rising hD hp hs.1 hs.2 hn hdue hout⟩
  · intro s hs hpass
    exact ⟨drained_invariant hs.1 hpass, hs.2.input_le, hs.2.live⟩

theorem solves_of_drained (hD : p.domain.Lawful) {s : Progress α} (hs : p.Invariant s)
    (hr : p.Rising s) (hw : s.worklist = []) : p.Solves (p.fact s.inputs) (p.fact s.outputs) := by
  constructor
  case input =>
    intro n _
    have hin : p.incoming s.outputs n = p.fact s.inputs n := (hs.equations hw n).1
    rw [← hin]
    exact incoming_merges hD s.outputs n
  case output =>
    intro n _ hlive
    rcases hlive with rfl | hne
    · have hv : s.visits ≠ [] := fun h => by simpa [hw] using hs.entered h
      exact (hs.visited _ (hs.entry_first hv)).2.symm
    · exact ((hs.equations hw n).2 hne).symm
  case output_none =>
    intro n _ hne hin
    exact (hs.unvisited n fun hv => hr.live n hv hne hin).2

theorem eq_of_fact {facts facts' : List α} (hl : facts.length = p.graph.size)
    (hl' : facts'.length = p.graph.size) (h : ∀ n < p.graph.size, p.fact facts n = p.fact facts' n) :
    facts = facts' := by
  apply List.ext_getElem?
  intro n
  by_cases hn : n < p.graph.size
  · rw [getElem?_eq_fact (p := p) (hn.trans_eq hl.symm), getElem?_eq_fact (p := p) (hn.trans_eq hl'.symm),
      h n hn]
  · rw [List.getElem?_eq_none (by omega), List.getElem?_eq_none (by omega)]

/-- A converged run on a monotone problem solves its equations with the least facts there are. Any two
converged runs agree at every block, whatever their strategies and limits. -/
theorem converged_least (p : Problem Id α) (hg : p.graph.Built) (hD : p.domain.Lawful)
    (hp : p.Monotone) :
    (∀ (strategy : Strategy) (limit : Int), (p.solve strategy limit).converged = true →
      p.Solves (p.fact (p.solve strategy limit).inputs) (p.fact (p.solve strategy limit).outputs) ∧
      ∀ ins outs, p.Solves ins outs → ∀ n < p.graph.size,
        p.domain.le (p.fact (p.solve strategy limit).inputs n) (ins n) = true ∧
        p.domain.le (p.fact (p.solve strategy limit).outputs n) (outs n) = true) ∧
    ∀ (strategy strategy' : Strategy) (limit limit' : Int),
      (p.solve strategy limit).converged = true → (p.solve strategy' limit').converged = true →
      (p.solve strategy limit).inputs = (p.solve strategy' limit').inputs ∧
      (p.solve strategy limit).outputs = (p.solve strategy' limit').outputs := by
  have hrun : ∀ (strategy : Strategy) (limit : Int), ∃ s,
      p.run strategy limit.toNat (p.begin strategy) = s ∧ p.solve strategy limit = s.finish ∧
      p.Invariant s := by
    intro strategy limit
    obtain ⟨s, hrun, hr⟩ := solve_run Returning.id (rfl : p.solve strategy limit = pure _)
    exact ⟨s, hrun, hr, run_invariant Returning.id hg.closed hD.exact hrun⟩
  have hleast : ∀ (strategy : Strategy) (limit : Int) ins outs, p.Solves ins outs → ∀ n,
      p.domain.le (p.fact (p.solve strategy limit).inputs n) (ins n) = true ∧
      p.domain.le (p.fact (p.solve strategy limit).outputs n) (outs n) = true := by
    intro strategy limit ins outs hsol
    obtain ⟨s, hs, hr, -⟩ := hrun strategy limit
    rw [hr]
    exact run_below hg.closed hD hp hsol hs
  have hsolves : ∀ (strategy : Strategy) (limit : Int), (p.solve strategy limit).converged = true →
      p.Solves (p.fact (p.solve strategy limit).inputs) (p.fact (p.solve strategy limit).outputs) := by
    intro strategy limit hc
    obtain ⟨s, hs, hr, hinv⟩ := hrun strategy limit
    rw [hr] at hc ⊢
    exact solves_of_drained hD hinv (run_rising hg.closed hD hp hs) (Progress.converged_finish.mp hc)
  refine ⟨fun strategy limit hc => ⟨hsolves strategy limit hc, fun ins outs hsol n _ =>
    hleast strategy limit ins outs hsol n⟩, ?_⟩
  intro strategy strategy' limit limit' hc hc'
  have hle := hleast strategy limit _ _ (hsolves strategy' limit' hc')
  have hge := hleast strategy' limit' _ _ (hsolves strategy limit hc)
  obtain ⟨s, -, hr, hinv⟩ := hrun strategy limit
  obtain ⟨s', -, hr', hinv'⟩ := hrun strategy' limit'
  rw [hr, hr'] at hle hge ⊢
  exact ⟨eq_of_fact hinv.inputs_length hinv'.inputs_length fun n _ =>
      hD.le_antisymm (hle n).1 (hge n).1,
    eq_of_fact hinv.outputs_length hinv'.outputs_length fun n _ =>
      hD.le_antisymm (hle n).2 (hge n).2⟩

def signProblem : Problem Id Sign where
  graph := loopGraph
  domain := Sign.domain
  transfer n a := if n = 2 then a.join .pos else a
  along _ a := a
  initial := .zero

theorem signProblem_monotone : signProblem.Monotone := by
  refine ⟨fun n {a b} => ?_, fun _ {a b} h => h⟩
  by_cases hn : n = 2
  · simp only [signProblem, hn, if_true]
    cases a <;> cases b <;> decide
  · simp only [signProblem, hn, if_false]
    exact id

theorem converged_least_loop :
    loopGraph.Built ∧ Sign.domain.Lawful ∧ signProblem.Monotone ∧
      (signProblem.solve .fifo 9).outputs = [.zero, .top, .top, .bottom] ∧
      (signProblem.solve .lifo 9).outputs = (signProblem.solve .rpo 7).outputs := by
  have h := (converged_least signProblem loopGraph_built Sign.domain_lawful signProblem_monotone).2
  exact ⟨loopGraph_built, Sign.domain_lawful, signProblem_monotone, by decide,
    (h .lifo .rpo 9 7 (by decide) (by decide)).2⟩

end Problem

end SignFlow

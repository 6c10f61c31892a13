import Mathlib.Data.Set.Card
import SignFlow.Proofs.LeastSolution
import SignFlow.Proofs.StoreOrder

/-! How long a run takes.

On a monotone problem every visit of a block raises the fact before it, but for the first visit of the
entry. So a block is visited no more often than facts can rise, and a run with a larger limit than that
allows comes to its end. -/

namespace SignFlow

namespace Domain

variable {α : Type}

/-- Through facts of the set, so many strict steps lead up from the least fact to this one. -/
inductive Climbs (D : Domain α) (facts : Set α) : Nat → α → Prop
  | bottom : Climbs D facts 0 D.bottom
  | step {n : Nat} {a b : α} (h : Climbs D facts n a) (hb : b ∈ facts) (hle : D.le a b = true)
    (hne : a ≠ b) : Climbs D facts (n + 1) b

/-- No strictly ascending chain of facts of the set that starts with the least fact has more steps. -/
def HeightOn (D : Domain α) (facts : Set α) (h : Nat) : Prop := ∀ ⦃n a⦄, D.Climbs facts n a → n ≤ h

theorem Climbs.mono {D : Domain α} {facts larger : Set α} (h : facts ⊆ larger) {n : Nat} {a : α}
    (hclimb : D.Climbs facts n a) : D.Climbs larger n a := by
  induction hclimb with
  | bottom => exact .bottom
  | step _ hb hle hne ih => exact ih.step (h hb) hle hne

theorem HeightOn.mono {D : Domain α} {facts larger : Set α} {h : Nat} (hh : D.HeightOn larger h)
    (hsub : facts ⊆ larger) : D.HeightOn facts h := fun _ _ hclimb => hh (hclimb.mono hsub)

/-- A rank that rises with every strict step bounds the steps. -/
theorem heightOn_of_rank {D : Domain α} {facts : Set α} {h : Nat} (rank : α → Nat)
    (bottom : D.bottom ∈ facts) (bound : ∀ a ∈ facts, rank a ≤ h)
    (rises : ∀ a ∈ facts, ∀ b ∈ facts, D.le a b = true → a ≠ b → rank a < rank b) :
    D.HeightOn facts h := by
  intro n a hclimb
  have key : a ∈ facts ∧ n ≤ rank a := by
    induction hclimb with
    | bottom => exact ⟨bottom, Nat.zero_le _⟩
    | step _ hb hle hne ih => exact ⟨hb, Nat.lt_of_le_of_lt ih.2 (rises _ ih.1 _ hb hle hne)⟩
  exact Nat.le_trans key.2 (bound a key.1)

end Domain

def Sign.rank : Sign → Nat
  | bottom => 0
  | neg | zero | pos => 1
  | nonzero => 2
  | top => 3

theorem Sign.rank_lt {a b : Sign} : a ≤ b → a ≠ b → a.rank < b.rank := by
  cases a <;> cases b <;> decide

theorem Sign.rank_le {a b : Sign} : a ≤ b → a.rank ≤ b.rank := by
  cases a <;> cases b <;> decide

theorem Sign.domain_height : Sign.domain.HeightOn Set.univ 3 :=
  Domain.heightOn_of_rank Sign.rank trivial (fun a _ => by cases a <;> decide)
    fun _ _ _ _ => Sign.rank_lt

namespace Store

def binding (keys : Finset Key) : Set Store := { s | ∀ k ∈ s.keys, k ∈ keys }

variable {keys : Finset Key} {s t : Store}

theorem lookup_outside (h : s ∈ binding keys) (hs : s.isReachable = true) {k : Key} (hk : k ∉ keys) :
    s.lookup k = .top := by
  cases s with
  | unreachable => cases hs
  | reachable f => exact lookup_of_not_mem fun hmem => hk (h k hmem)

theorem domain_lawful : Store.domain.Lawful where
  exact := domain_exact
  le_refl := le_refl
  le_trans := le_trans
  le_antisymm := le_antisymm
  bottom_le := unreachable_le
  le_join_left := le_join_left
  le_join_right := le_join_right
  join_le := join_le

/-- One step makes a store reachable, and after that each key can rise twice. -/
def rank (keys : Finset Key) (s : Store) : Nat :=
  if s.isReachable then 1 + ∑ k ∈ keys, ((s.lookup k).rank - 1) else 0

theorem rank_bound (keys : Finset Key) (s : Store) : s.rank keys ≤ 2 * keys.card + 1 := by
  unfold rank
  split
  · have hsum := Finset.sum_le_card_nsmul keys (fun k => (s.lookup k).rank - 1) 2 fun k _ => by
      cases s.lookup k <;> decide
    rw [smul_eq_mul] at hsum
    omega
  · exact Nat.zero_le _

theorem rank_rises (hs : s ∈ binding keys) (ht : t ∈ binding keys) (hle : s ≤ t) (hne : s ≠ t) :
    s.rank keys < t.rank keys := by
  cases hr : s.isReachable with
  | false =>
    have htr : t.isReachable = true := by
      cases htr : t.isReachable with
      | true => rfl
      | false => exact absurd ((eq_unreachable hr).trans (eq_unreachable htr).symm) hne
    simp only [rank, hr, htr]
    simp
  | true =>
    have htr := isReachable_mono hle hr
    simp only [rank, hr, htr, if_true]
    -- some key's sign rises, and it is one of the keys since others are free in both stores
    obtain ⟨k, hk⟩ : ∃ k, s.lookup k ≠ t.lookup k := by
      by_contra h
      exact hne (ext_lookup fun k => not_not.mp (not_exists.mp h k))
    have hmem : k ∈ keys := by
      by_contra hout
      exact hk ((lookup_outside hs hr hout).trans (lookup_outside ht htr hout).symm)
    refine Nat.add_lt_add_left (Finset.sum_lt_sum (fun l _ => ?_) ⟨k, hmem, ?_⟩) 1
    · exact Nat.sub_le_sub_right (Sign.rank_le (le_iff.mp hle l)) 1
    · have hlt := Sign.rank_lt (le_iff.mp hle k) hk
      have hpos : 1 ≤ (s.lookup k).rank := by
        have : s.lookup k ≠ .bottom := fun hb => by
          rw [lookup_eq_bottom.mp hb] at hr
          cases hr
        revert this
        cases s.lookup k <;> decide
      omega

theorem domain_height (keys : Finset Key) :
    Store.domain.HeightOn (binding keys) (2 * keys.card + 1) :=
  Domain.heightOn_of_rank (rank keys) (fun _ hk => nomatch hk) (fun s _ => rank_bound keys s)
    fun _ hs _ ht => rank_rises hs ht

end Store

namespace Problem

variable {α : Type}

/-- The facts before blocks in the course of a run: runs with a smaller limit are its beginnings. -/
def produced (p : Problem Id α) (strategy : Strategy) (limit : Int) : Set α :=
  { a | ∃ k ≤ limit, a ∈ (p.solve strategy k).inputs }

noncomputable def reached (p : Problem Id α) : Nat := { n | p.graph.Reaches Graph.entry n }.ncard

/-- The run calls the transfer at most `h` times for each block that the entry leads to and once more, at
most `h` times at a block other than the entry, and if its limit is above that it converges, to a solution of
the equations. -/
def EndsWithin (p : Problem Id α) (h : Nat) (strategy : Strategy) (limit : Int) : Prop :=
  ∃ calls : List Nat,
    ((p.watched List.cons).solve strategy limit).run [] = (p.solve strategy limit, calls) ∧
    calls.length ≤ h * p.reached + 1 ∧
    (∀ n ≠ Graph.entry, calls.count n ≤ h) ∧
    ((h * p.reached + 1 : Nat) < limit →
      (p.solve strategy limit).converged = true ∧ p.Balanced (p.solve strategy limit))

variable {p : Problem Id α} {facts : Set α}

def Counted (p : Problem Id α) (facts : Set α) (s : Progress α) : Prop :=
  ∀ n, ∃ k, p.domain.Climbs facts k (p.fact s.inputs n) ∧
    s.visits.count n ≤ k + if n = Graph.entry then 1 else 0

theorem begin_counted (strategy : Strategy) : p.Counted facts (p.begin strategy) := by
  intro n
  have hblank : p.fact (p.begin strategy).inputs n = p.domain.bottom := p.fact_blank n
  rw [hblank]
  exact ⟨0, .bottom, by simp [begin]⟩

/-- A visit raises the fact before the block, or it is the entry's first. -/
theorem visit_counted {strategy : Strategy} {s : Progress α} {n : Nat} {merged out : α}
    {rest : List Nat} (hs : p.Invariant s) (hr : p.Rising s) (hc : p.Counted facts s)
    (hn : n < p.graph.size) (hdue : p.Due s n merged) (hmem : merged ∈ facts) :
    p.Counted facts (p.visit strategy s n merged out rest) := by
  have hmerged : p.incoming s.outputs n = merged := hdue.1
  intro k
  obtain ⟨steps, hclimb, hcount⟩ := hc k
  simp only [visit, fact_set (p := p) (hn.trans_eq hs.inputs_length.symm) merged, List.count_cons,
    beq_iff_eq]
  by_cases hk : n = k
  · subst hk
    simp only [if_true]
    by_cases hnew : p.fact s.inputs n = merged
    · -- the input is the old one, so this is the entry's first visit
      obtain ⟨hentry, hnone⟩ := hdue.2.resolve_left fun h => h hnew.symm
      refine ⟨steps, hnew ▸ hclimb, ?_⟩
      simp [hentry, hnone]
    · have hup : p.domain.le (p.fact s.inputs n) merged = true := hmerged ▸ hr.input_le n
      exact ⟨steps + 1, hclimb.step hmem hup hnew, by omega⟩
  · simp only [if_neg hk, Nat.add_zero]
    exact ⟨steps, hclimb, hcount⟩

theorem run_next (strategy : Strategy) (limit : Nat) (s : Progress α) :
    p.run strategy (limit + 1) s =
      match p.nextVisit s s.worklist with
      | none => { s with worklist := [] }
      | some (n, merged, rest) =>
        p.run strategy limit (p.visit strategy s n merged (p.transfer n merged) rest) := rfl

theorem run_succ (strategy : Strategy) (limit : Nat) (s : Progress α) :
    p.run strategy (limit + 1) s = p.run strategy 1 (p.run strategy limit s) := by
  induction limit generalizing s with
  | zero => rfl
  | succ limit ih =>
    rw [run_next, run_next strategy limit s]
    cases p.nextVisit s s.worklist with
    | none => rfl
    | some next => exact ih _

/-- One step visits a block that is due, or drops the worklist. -/
theorem run_one (hD : p.domain.Exact) (strategy : Strategy) (s : Progress α) :
    p.run strategy 1 s = { s with worklist := [] } ∨
      ∃ n ∈ s.worklist, ∃ merged rest, p.Due s n merged ∧
        p.run strategy 1 s = p.visit strategy s n merged (p.transfer n merged) rest := by
  rw [run_next]
  match hnext : p.nextVisit s s.worklist with
  | none => exact .inl rfl
  | some (n, merged, rest) =>
    obtain ⟨skipped, hw, -, hdue⟩ := nextVisit_some Returning.id hD hnext
    exact .inr ⟨n, by simp [hw], merged, rest, hdue, rfl⟩

theorem run_counted (hg : p.graph.Closed) (hD : p.domain.Lawful) (hm : p.Monotone)
    {strategy : Strategy} {limit : Nat}
    (hfacts : ∀ k ≤ limit, ∀ a ∈ (p.run strategy k (p.begin strategy)).inputs, a ∈ facts) :
    p.Counted facts (p.run strategy limit (p.begin strategy)) := by
  induction limit with
  | zero => exact begin_counted strategy
  | succ limit ih =>
    have hc := ih fun k hk => hfacts k (Nat.le_succ_of_le hk)
    have hs := run_invariant Returning.id hg hD.exact (rfl : p.run strategy limit _ = pure _)
    have hr := run_rising hg hD hm (rfl : p.run strategy limit _ = pure _)
    have hlast := hfacts (limit + 1) (Nat.le_refl _)
    rw [run_succ] at hlast ⊢
    rcases run_one hD.exact strategy (p.run strategy limit (p.begin strategy)) with
      h | ⟨n, hlisted, merged, rest, hdue, h⟩
    · rw [h]
      exact hc
    · rw [h] at hlast ⊢
      have hn := hg.lt_of_reaches hg.entry_lt (hs.listed n hlisted)
      refine visit_counted hs hr hc hn hdue (hlast merged ?_)
      exact List.mem_set (hn.trans_eq hs.inputs_length.symm) merged

theorem run_drains {strategy : Strategy} {limit : Nat} {s s' : Progress α}
    (h : p.run strategy limit s = pure s') :
    s'.worklist = [] ∨ s'.visits.length = s.visits.length + limit := by
  induction limit generalizing s with
  | zero =>
    obtain rfl : s = s' := h
    exact .inr rfl
  | succ limit ih =>
    obtain ⟨next, -, h⟩ := Returning.id.of_bind h
    match next with
    | none =>
      obtain rfl : { s with worklist := [] } = s' := h
      exact .inl rfl
    | some (n, merged, rest) =>
      obtain ⟨out, -, h⟩ := Returning.id.of_bind h
      refine (ih h).imp_right fun hlen => ?_
      simp only [List.length_cons] at hlen
      omega

theorem finite_reached (hg : p.graph.Closed) : { n | p.graph.Reaches Graph.entry n }.Finite :=
  (Set.finite_lt_nat p.graph.size).subset fun _ hn => hg.lt_of_reaches hg.entry_lt hn

theorem reached_le (hg : p.graph.Closed) : p.reached ≤ p.graph.size := by
  have hsub : { n | p.graph.Reaches Graph.entry n } ⊆ ↑(Finset.range p.graph.size) := fun n hn =>
    Finset.mem_coe.mpr (Finset.mem_range.mpr (hg.lt_of_reaches hg.entry_lt hn))
  exact (Set.ncard_le_ncard hsub).trans_eq (by rw [Set.ncard_coe_finset, Finset.card_range])

theorem visits_length_le (hg : p.graph.Closed) {s : Progress α} (hs : p.Invariant s) {h : Nat}
    (hcount : ∀ n, s.visits.count n ≤ h + if n = Graph.entry then 1 else 0) :
    s.visits.length ≤ h * p.reached + 1 := by
  have hfin := finite_reached hg
  have hsub : s.visits.toFinset ⊆ hfin.toFinset := by
    intro n hn
    exact hfin.mem_toFinset.mpr (hs.visited n (List.mem_toFinset.mp hn)).1
  have hentry : Graph.entry ∈ hfin.toFinset := hfin.mem_toFinset.mpr .refl
  calc s.visits.length
      = ∑ n ∈ s.visits.toFinset, s.visits.count n := (List.sum_toFinset_count_eq_length _).symm
    _ ≤ ∑ n ∈ hfin.toFinset, s.visits.count n := Finset.sum_le_sum_of_subset hsub
    _ ≤ ∑ n ∈ hfin.toFinset, (h + if n = Graph.entry then 1 else 0) :=
        Finset.sum_le_sum fun n _ => hcount n
    _ = h * p.reached + 1 := by
        rw [Finset.sum_add_distrib, Finset.sum_const, Finset.sum_ite_eq', if_pos hentry, smul_eq_mul,
          Nat.mul_comm, reached, Set.ncard_eq_toFinset_card _ hfin]

/-- On a monotone problem the height of the facts that a run produces bounds the run. -/
theorem endsWithin_of_height (hg : p.graph.Closed) (hD : p.domain.Lawful) (hm : p.Monotone) {h : Nat}
    {strategy : Strategy} {limit : Int} (hh : p.domain.HeightOn (p.produced strategy limit) h) :
    p.EndsWithin h strategy limit := by
  refine ⟨(p.solve strategy limit).visits.reverse, ?_, ?_⟩
  · rw [watched_solve, List.foldr_cons_nil]
  obtain ⟨s, hrun, hr⟩ : ∃ s, p.run strategy limit.toNat (p.begin strategy) = s ∧
      p.solve strategy limit = s.finish := ⟨_, rfl, rfl⟩
  have hs := run_invariant Returning.id hg hD.exact hrun
  have hcounted : p.Counted (p.produced strategy limit) s := by
    rw [← hrun]
    refine run_counted hg hD hm fun k hk a ha => ⟨min k limit, min_le_right _ _, ?_⟩
    have hmin : (min (k : Int) limit).toNat = k := by omega
    have hsolve : (p.solve strategy (min (k : Int) limit)).inputs =
        (p.run strategy (min (k : Int) limit).toNat (p.begin strategy)).inputs := rfl
    rwa [hsolve, hmin]
  have hcount : ∀ n, s.visits.count n ≤ h + if n = Graph.entry then 1 else 0 := by
    intro n
    obtain ⟨k, hclimb, hk⟩ := hcounted n
    exact Nat.le_trans hk (Nat.add_le_add_right (hh hclimb) _)
  have hlength := visits_length_le hg hs hcount
  have hvisits : (p.solve strategy limit).visits.reverse = s.visits := by
    rw [hr]
    exact List.reverse_reverse _
  rw [hvisits]
  refine ⟨hlength, fun n hn => ?_, fun hlimit => ?_⟩
  · simpa [hn] using hcount n
  · have hconv : (p.solve strategy limit).converged = true := by
      rw [hr, Progress.converged_finish]
      refine (run_drains hrun).resolve_right fun hfull => ?_
      simp only [begin, List.length_nil] at hfull
      omega
    exact ⟨hconv, solve_balanced hg hD.exact hconv⟩

/-- A run over a domain of height `h` with monotone transfers calls the transfer at most `h` times for
each block that the entry leads to and once more, at most `h` times at a block other than the entry, and if
its limit is above that it converges, to a solution of the equations. Signs have height 3; stores that bind
`k` keys have height `2 * k + 1`. -/
theorem solve_ends :
    (∀ {α : Type} (p : Problem Id α) (h : Nat), p.graph.Built → p.domain.Lawful → p.Monotone →
      p.domain.HeightOn Set.univ h → ∀ strategy limit, p.EndsWithin h strategy limit) ∧
    (Sign.domain.Lawful ∧ Sign.domain.HeightOn Set.univ 3) ∧
    (Store.domain.Lawful ∧ ∀ keys : Finset Key,
      Store.domain.HeightOn (Store.binding keys) (2 * keys.card + 1) ∧
      ∀ p : Problem Id Store, p.domain = Store.domain → p.graph.Built → p.Monotone →
        ∀ strategy limit, p.produced strategy limit ⊆ Store.binding keys →
          p.EndsWithin (2 * keys.card + 1) strategy limit) := by
  refine ⟨fun p h hg hD hm hh strategy limit => ?_, ⟨Sign.domain_lawful, Sign.domain_height⟩,
    Store.domain_lawful, fun keys => ⟨Store.domain_height keys, fun p hd hg hm strategy limit hkeys => ?_⟩⟩
  · exact endsWithin_of_height hg.closed hD hm (hh.mono (Set.subset_univ _))
  · exact endsWithin_of_height hg.closed (hd ▸ Store.domain_lawful) hm
      (.mono (hd ▸ Store.domain_height keys) hkeys)

def counter : Key := .id 1

def storeProblem : Problem Id Store where
  graph := loopGraph
  domain := Store.domain
  transfer n s := if n = 2 then s.bind counter ((s.lookup counter).add .pos) else s
  along _ s := s
  initial := Store.empty.bind counter .zero

theorem storeProblem_monotone : storeProblem.Monotone := by
  refine ⟨fun n {s t} h => ?_, fun _ {s t} h => h⟩
  by_cases hn : n = 2
  · simp only [storeProblem, hn, if_true]
    exact Store.bind_mono h (Sign.add_mono (Store.le_iff.mp h counter) (Sign.le_refl .pos))
  · simp only [storeProblem, hn, if_false]
    exact h

theorem storeProblem_produced : storeProblem.produced .fifo 14 ⊆ Store.binding {counter} := by
  rintro s ⟨k, hk, hs⟩
  have hall : ∀ limit < 15, ∀ s ∈ (storeProblem.solve .fifo (limit : Nat)).inputs, ∀ k ∈ s.keys,
      k = counter := by decide
  have hsolve : storeProblem.solve .fifo k = storeProblem.solve .fifo (k.toNat : Nat) := rfl
  rw [hsolve] at hs
  exact fun key hkey => Finset.mem_singleton.mpr (hall k.toNat (by omega) s hs key hkey)

/-- On the loop, signs settle within `3 * 4 + 1` calls, and so do stores of one counter. -/
theorem solve_ends_loop :
    (loopGraph.Built ∧ signProblem.Monotone ∧ (signProblem.solve .lifo 14).converged = true ∧
      signProblem.Balanced (signProblem.solve .lifo 14)) ∧
    storeProblem.Monotone ∧ storeProblem.produced .fifo 14 ⊆ Store.binding {counter} ∧
    (storeProblem.solve .fifo 14).converged = true ∧
    storeProblem.Balanced (storeProblem.solve .fifo 14) := by
  have hlimit : ∀ {α : Type} (p : Problem Id α), p.graph = loopGraph →
      (3 * p.reached + 1 : Nat) < (14 : Int) := by
    intro α p hp
    have hle : p.reached ≤ loopGraph.size := hp ▸ reached_le (p := p) (hp ▸ loopGraph_built.closed)
    have hsize : loopGraph.size = 4 := rfl
    omega
  obtain ⟨_, -, -, -, hsign⟩ := solve_ends.1 signProblem 3 loopGraph_built Sign.domain_lawful
    signProblem_monotone Sign.domain_height .lifo 14
  obtain ⟨_, -, -, -, hstore⟩ := (solve_ends.2.2.2 {counter}).2 storeProblem rfl loopGraph_built
    storeProblem_monotone .fifo 14 storeProblem_produced
  exact ⟨⟨loopGraph_built, signProblem_monotone, hsign (hlimit signProblem rfl)⟩,
    storeProblem_monotone, storeProblem_produced, hstore (hlimit storeProblem rfl)⟩

end Problem

end SignFlow

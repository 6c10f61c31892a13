import SignFlow.Proofs.LayoutShape

/-! The paths through a body's graph, from the entry to the exit, show exactly its executions. -/

namespace SignFlow

theorem lookup_of_mem {names : List (String × Nat)} (h : (names.map Prod.fst).Nodup) {x : String × Nat}
    (hx : x ∈ names) : names.lookup x.1 = some x.2 := by
  induction names with
  | nil => simp at hx
  | cons y names ih =>
    rw [List.map_cons, List.nodup_cons] at h
    rcases List.mem_cons.mp hx with rfl | hx
    · rw [List.lookup_cons, beq_self_eq_true]
    · have hne : x.1 ≠ y.1 := fun he => h.1 (he ▸ List.mem_map_of_mem hx)
      rw [List.lookup_cons, beq_false_of_ne hne]
      exact ih h.2 hx

namespace Layout

theorem resolve_ways (l : Layout) (b : Nat) :
    (l.view l.target).ways b =
      {w | ∃ e ∈ l.resolve.edges, e.src = b ∧ (e.kind.events e.label, e.dst) = w} := by
  ext w
  rw [resolve_eq]
  simp only [view, exits, Set.mem_ofPred_eq, List.mem_append, List.mem_map, Prod.mk.injEq]
  constructor
  · rintro (⟨e, he, hsrc, hw⟩ | ⟨j, hj, hsrc, hw⟩)
    · exact ⟨e, .inl he, hsrc, hw⟩
    · exact ⟨_, .inr ⟨j, hj, rfl⟩, hsrc, hw⟩
  · rintro ⟨e, he | ⟨j, hj, rfl⟩, hsrc, hw⟩
    · exact .inl ⟨e, he, hsrc, hw⟩
    · exact .inr ⟨j, hj, hsrc, hw⟩

end Layout

section trace

variable {g : Graph} {M : Shape} (ht : ∀ b, M.tokens b = (g.block b).tokens)
  (hw : ∀ b, M.ways b = {w | ∃ e ∈ g.edges, e.src = b ∧ (e.kind.events e.label, e.dst) = w})
include ht hw

theorem Graph.Trace.shows {b : Nat} {t : List Event} (h : g.Trace b t) : M.Shows (b, 0) t := by
  induction h with
  | exit =>
    rw [← ht, M.tokens_exit]
    exact ⟨0, .exit⟩
  | @step e t he _ ih =>
    have hway : (e.kind.events e.label, e.dst) ∈ M.ways e.src := by
      rw [hw]
      exact ⟨e, he, rfl, rfl⟩
    rw [← ht]
    exact (Shape.At.start rfl rfl).shows hway ih

/-- A walk from inside a block is a path from the block, less the tokens passed. -/
theorem Shape.Walk.trace {n : Nat} {x : Place} {t : List Event} (h : M.Walk n x t) :
    g.Trace x.1 (Event.passing ((M.tokens x.1).take x.2) ++ t) := by
  induction h with
  | exit =>
    have hexit : (g.block Graph.exit).tokens = [] := (ht _).symm.trans M.tokens_exit
    have htrace := Graph.Trace.exit (g := g)
    rwa [hexit] at htrace
  | token hp _ ih =>
    rw [List.take_add_one, hp] at ih
    simpa [Event.passing] using ih
  | @way n b m e d t hm hmem _ ih =>
    rw [hw] at hmem
    obtain ⟨e, he, rfl, heq⟩ := hmem
    obtain ⟨rfl, rfl⟩ := Prod.mk.inj heq
    rw [hm, List.take_length, ht]
    exact .step he ih

theorem Graph.trace_iff_shows {b : Nat} {t : List Event} : g.Trace b t ↔ M.Shows (b, 0) t :=
  ⟨fun h => h.shows ht hw, fun ⟨_, h⟩ => h.trace ht hw⟩

end trace

def View.blank : View := ⟨2, fun _ => [], fun _ => ∅, []⟩

def View.start : View := blank.fresh.connect Graph.entry ([], 2)

theorem View.start_fits : start.Fits :=
  (grows_fresh.trans (grows_connect (by decide))).fits fun _ _ => ⟨rfl, rfl⟩

theorem View.start_open : start.Open (some 2) := by
  have hblank : blank.Fits := fun _ _ => ⟨rfl, rfl⟩
  exact hblank.open_fresh.connect (by decide)

theorem Layout.view_blank (label : String → Nat) {function : Option String} {firstId : Nat} :
    { graph := { function := function, firstId := firstId } : Layout }.view label = .blank := by
  refine View.ext rfl (funext fun b => ?_) (funext fun b => ?_) rfl
  · match b with
    | 0 | 1 | _ + 2 => rfl
  · exact Set.eq_empty_of_forall_notMem fun w hw => by simp [view, exits] at hw

namespace Stmts

variable {body : Stmts} {function : Option String} {firstId : Nat}

/-- A body is laid out from the first block behind the entry, and then leads to the exit. -/
theorem layout_lain (body : Stmts) (function : Option String) (firstId : Nat) (label : String → Nat)
    (labels : List String) :
    ∃ last v', Lain label labels body {} (some 2) .start last v' ∧
      (body.layout function firstId).view label = v'.link last Graph.exit := by
  obtain ⟨last, l', hmakes, hlayout⟩ := body.layout_makes function firstId
  have hlays := hmakes.lays label labels
  rw [Layout.opening, Layout.view_wire, Layout.view_add, Layout.view_blank] at hlays
  refine ⟨last, l'.view label, hlays View.start_fits View.start_open, ?_⟩
  rw [hlayout, Layout.view_lead rfl]

/-- The paths from the entry to the exit show exactly the executions of the body. -/
theorem graph_trace_iff (h : body.Proper) {t : List Event} :
    (body.graph function firstId).Trace Graph.entry t ↔ body.Executes t := by
  obtain ⟨last, v', hlain, hview⟩ :=
    body.layout_lain function firstId (body.layout function firstId).target body.labels
  have hlast : ∀ b ∈ last, 2 ≤ b := by
    intro b hb
    rcases hlain.extend.recent b hb with hm | hm
    · exact (Option.mem_some.mp hm).le
    · exact Nat.le_of_succ_le hm
  have hold : ∀ b < 2, (v'.link last Graph.exit).tokens b = [] ∧
      (v'.link last Graph.exit).ways b = View.start.ways b := by
    intro b hb
    have hb' : b < View.start.size := Nat.lt_succ_of_lt hb
    have hne : b ∉ some 2 := fun hm => hb.ne (Option.mem_some.mp hm).symm
    constructor
    · rw [View.tokens_link, hlain.extend.grows.tokens b hb' hne]
      rfl
    · rw [View.ways_link_of_not_mem fun hm => hb.not_ge (hlast b hm),
        hlain.extend.grows.ways b hb' hne]
  let M : Shape :=
    { tokens := (v'.link last Graph.exit).tokens
      ways := (v'.link last Graph.exit).ways
      label := (body.layout function firstId).target
      tokens_exit := (hold _ (by decide)).1
      ways_exit := (hold _ (by decide)).2.trans (View.ways_connect_of_ne (by decide)) }
  have hnames : ∀ x ∈ v'.names, M.label x.1 = x.2 := by
    intro x hx
    have hlabels : (body.layout function firstId).labels = v'.names :=
      (congrArg View.names hview).trans View.names_link
    have hnodup : (v'.names.map Prod.fst).Nodup := by
      rw [hlain.names]
      exact (List.append_nil _).symm ▸ (List.reverse_perm _).nodup_iff.mpr h.nodup
    show (((body.layout function firstId).labels.lookup x.1).getD Graph.exit) = x.2
    rw [hlabels, lookup_of_mem hnodup hx, Option.getD_some]
  have hkept : (v'.link last Graph.exit).Kept ∅ M :=
    ⟨fun _ _ _ => rfl, fun _ _ _ => rfl, fun _ _ => List.prefix_rfl, by simpa using hnames⟩
  have hlaid := hlain.laid M rfl h.placed
    ((hkept.of_grows (View.grows_link fun b hb => (hlain.last_mem b hb).1)).mono fun b _ hm =>
      .inl (hm.resolve_right id))
  have hshows := Shape.shows_iff (t := t) hlaid (hkept.enters hlain.extend.opens fun _ _ => id)
  have hentry : M.Enters (some (Graph.entry, 0)) 2 := by
    refine Shape.At.enters (.start (hold _ (by decide)).1 ?_)
    exact (hold _ (by decide)).2.trans (View.ways_connect_self.trans (insert_empty_eq _))
  have htokens : ∀ b, M.tokens b = ((body.graph function firstId).block b).tokens := fun b =>
    (congrFun (congrArg View.tokens hview) b).symm.trans
      (congrArg Block.tokens (Layout.resolve_block _ b)).symm
  have hways := fun b => (congrFun (congrArg View.ways hview) b).symm.trans
    (Layout.resolve_ways (body.layout function firstId) b)
  refine (Graph.trace_iff_shows (M := M) htokens hways).trans (Iff.trans ⟨?_, ?_⟩ hshows)
  · rintro ⟨n, hw⟩
    obtain ⟨n', -, hw'⟩ := hentry.of_walk hw
    exact ⟨n', hw'⟩
  · exact hentry.shows

end Stmts

end SignFlow

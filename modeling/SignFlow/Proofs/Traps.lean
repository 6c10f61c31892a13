import SignFlow.Proofs.Evaluation
import SignFlow.Proofs.Fixpoint

/-! No division by zero is missed.

A graph's blocks hold integer expressions. A run goes through the graph as the values of its conditions
allow. Wherever a run can arrive, a converged analysis covers its environment; so where a run divides by
zero, the analysis has a site for it. -/

namespace SignFlow

/-- What a token on top of its expression stands for. A declaration leaves its variable with any
value. -/
inductive Item
  | skip
  | declare (k : Key)
  | compute (t : Term)

namespace Item

def run : Item → Run (Option Int)
  | skip => pure none
  | declare k => do
    let v ← Run.choose fun _ : Int => True
    .write k v
    pure none
  | compute t => do
    let v ← t.run
    pure (some v)

def namesTargets : Item → Bool
  | skip | declare _ => true
  | compute t => t.namesTargets

def runAll : List Item → Option Int → Run (Option Int)
  | [], last => pure last
  | item :: rest, last => do
    let v ← item.run
    runAll rest (v.or last)

/-- The items hold one expression and nothing else that does anything. -/
def Decide (items : List Item) (t : Term) : Prop :=
  ∃ before after, items = before ++ compute t :: after ∧
    (∀ item ∈ before, item = skip) ∧ ∀ item ∈ after, item = skip

theorem runAll_skip {items : List Item} (h : ∀ item ∈ items, item = skip) {last v : Option Int}
    {ρ ρ' : Env} (hrun : runAll items last ρ (.value v ρ')) : v = last ∧ ρ' = ρ := by
  induction items with
  | nil => exact Run.pure_value.mp hrun
  | cons item rest ih =>
    obtain rfl := h item (by simp)
    obtain ⟨w, ρ₁, hw, hrest⟩ := Run.bind_value.mp hrun
    obtain ⟨rfl, rfl⟩ := Run.pure_value.mp hw
    exact ih (fun i hi => h i (by simp [hi])) hrest

theorem Decide.value {items : List Item} {t : Term} (h : Decide items t) {v : Option Int}
    {ρ ρ' : Env} (hrun : runAll items none ρ (.value v ρ')) :
    ∃ x, v = some x ∧ t.run ρ (.value x ρ') := by
  obtain ⟨before, after, rfl, hb, ha⟩ := h
  generalize (none : Option Int) = last at hrun
  induction before generalizing last with
  | nil =>
    obtain ⟨w, ρ₁, hw, hrest⟩ := Run.bind_value.mp hrun
    obtain ⟨x, ρ₂, hx, hlast⟩ := Run.bind_value.mp hw
    obtain ⟨rfl, rfl⟩ := Run.pure_value.mp hlast
    obtain ⟨rfl, rfl⟩ := runAll_skip ha hrest
    exact ⟨x, rfl, hx⟩
  | cons item rest ih =>
    obtain rfl := hb item (by simp)
    obtain ⟨w, ρ₁, hw, hrest⟩ := Run.bind_value.mp hrun
    obtain ⟨rfl, rfl⟩ := Run.pure_value.mp hw
    exact ih (fun i hi => hb i (by simp [hi])) _ hrest

end Item

namespace Code

/-- The token at a position, on top of its expression, stands for the item. -/
inductive Stands (c : Code) (i : Nat) : Item → Prop
  | inert (left : (c.token i).left = none) (right : (c.token i).right = none)
    (type : (c.token i).isNumeric = false) (plain : (c.token i).IsPlain) : Stands c i .skip
  | declaration {k : Key} (left : (c.token i).left = none) (right : (c.token i).right = none)
    (names : (c.token i).Names k) (declared : (c.token i).declaredAt = some i)
    (parent : (c.token i).parent = none) (text : c.text i ∉ [";", "\x7b", "\x7d"]) :
    Stands c i (.declare k)
  | expression {t : Term} (tree : Reads (c.tree (some i)) t) (pure : t.testsPure = true)
    (used : ¬((c.token i).declaredAt = some i ∧ (c.token i).parent = none))
    (text : c.text i ∉ [";", "\x7b", "\x7d"]) : Stands c i (.compute t)

/-- The graph's blocks hold the items. A block that decides holds one pure expression, and case labels
are integers. -/
structure Holds (c : Code) (g : Graph) (items : Nat → List Item) : Prop where
  closed : g.Closed
  stands : ∀ n < g.size, List.Forall₂ (Stands c) (c.roots (g.block n).tokens) (items n)
  decides : ∀ e ∈ g.edges, e.kind ∈ [.branchTrue, .branchFalse, .switchCase, .switchDefault] →
    ∃ t, Item.Decide (items e.src) t ∧ t.isPure = true
  labels : ∀ e ∈ g.edges, e.kind = .switchCase → ∃ ds n, Literal.Writes (e.label.getD "") ds n

end Code

def Graph.Takes (g : Graph) (e : Edge) (v : Option Int) : Prop :=
  match e.kind with
  | .branchTrue => ∃ x, v = some x ∧ x ≠ 0
  | .branchFalse => v = some 0
  | .switchCase => ∃ ds x, v = some x ∧ Literal.Writes (e.label.getD "") ds x
  | .switchDefault => ∃ x, v = some x ∧ ∀ other ∈ g.edges, other.src = e.src →
      other.kind = .switchCase → ∀ ds, ¬Literal.Writes (other.label.getD "") ds x
  | _ => True

/-- A run that starts at the entry can arrive at the block with the environment. -/
inductive Graph.Arrives (g : Graph) (items : Nat → List Item) (ρ₀ : Env) : Nat → Env → Prop
  | start : Arrives g items ρ₀ Graph.entry ρ₀
  | step {n : Nat} {ρ ρ' : Env} {v : Option Int} {e : Edge} (h : Arrives g items ρ₀ n ρ)
    (block : Item.runAll (items n) none ρ (.value v ρ')) (edge : e ∈ g.edges) (src : e.src = n)
    (takes : g.Takes e v) : Arrives g items ρ₀ e.dst ρ'

namespace Code

variable {c : Code} {g : Graph} {items : Nat → List Item}

theorem tree_leaf {i : Nat} (hl : (c.token i).left = none) (hr : (c.token i).right = none) :
    c.tree (some i) = .absent ∨ c.tree (some i) = .node i (c.token i) .absent .absent := by
  unfold tree
  cases c.size with
  | zero => exact .inl rfl
  | succ n =>
    right
    rw [treeWithin, hl, hr]
    cases n <;> rfl

theorem eval_inert {i : Nat} (hl : (c.token i).left = none) (hr : (c.token i).right = none)
    (hn : (c.token i).isNumeric = false) (hp : (c.token i).IsPlain) :
    (c.tree (some i)).eval = pure none := by
  rcases tree_leaf hl hr with h | h
  · rw [h]; rfl
  · rw [h, Expr.eval_node hp.values]
    show Eval.leaf (c.token i) = _
    simp [Eval.leaf, hn]

theorem statement_accounts {i : Nat} {item : Item} (h : c.Stands i item)
    (hn : item.namesTargets = true) {s : Store} {ρ : Env} (hs : s.Covers ρ) :
    (c.statement i s).Accounts (fun _ _ => True) (item.run ρ) := by
  cases h with
  | inert left right type plain =>
    have hpure : c.statement i = pure () := by
      simp only [statement, plain.declared, eval_inert left right type plain]
      split <;> rfl
    rw [hpure]
    exact .pure trivial hs
  | @declaration k left right names declared parent text =>
    have hforget : c.statement i = Walk.change (·.forget k) := by
      rw [statement, if_neg (by simpa [Code.text] using text), declared, parent, names.key]
      simp
    rw [hforget]
    constructor
    · intro _ v ρ' _ hv
      obtain ⟨x, ρ₁, hx, hrest⟩ := Run.bind_value.mp hv
      obtain ⟨_, ρ₂, hw, hlast⟩ := Run.bind_value.mp hrest
      have hρ : ρ₁ = ρ := (Run.choose_value.mp hx).2
      rw [(Run.pure_value.mp hlast).2, Run.write_value.mp hw, hρ]
      exact ⟨trivial, hs.forget k x⟩
    · intro _ p _ hp
      simp [Item.run] at hp
  | @expression t tree pure used text =>
    have heval : c.statement i = (do let _ ← (c.tree (some i)).eval) := by
      rw [statement, if_neg (by simpa [Code.text] using text), if_neg (by simpa using used)]
    rw [heval]
    exact ((tree.sound pure hn).value hs).bind fun _ v s₁ ρ₁ _ hs₁ _ => .pure trivial hs₁

theorem statements_accounts {roots : List Nat} {is : List Item} (h : List.Forall₂ c.Stands roots is)
    (hn : ∀ item ∈ is, item.namesTargets = true) {s : Store} {ρ : Env} (hs : s.Covers ρ)
    (last : Option Int) :
    (roots.forM c.statement s).Accounts (fun _ _ => True) (Item.runAll is last ρ) := by
  induction h generalizing s ρ last with
  | nil => exact .pure trivial hs
  | cons hi _ ih =>
    obtain ⟨hfirst, hrest⟩ := List.forall_mem_cons.mp hn
    exact (statement_accounts hi hfirst hs).bind fun _ v s₁ ρ₁ _ hs₁ _ => ih hrest hs₁ _

theorem Holds.block (h : c.Holds g items) {n : Nat} (hn : n < g.size)
    (hnames : ∀ item ∈ items n, item.namesTargets = true) {s : Store} {ρ : Env} (hs : s.Covers ρ) :
    (c.runBlock (g.block n).tokens s).Accounts (fun _ _ => True) (Item.runAll (items n) none ρ) := by
  unfold runBlock
  rw [hs.isReachable]
  exact statements_accounts (h.stands n hn) hnames hs none

theorem exists_of_forall₂ {α β : Type} {R : α → β → Prop} {l : List α} {m : List β}
    (h : List.Forall₂ R l m) {a : α} (ha : a ∈ l) : ∃ b ∈ m, R a b := by
  induction h with
  | nil => cases ha
  | cons hab _ ih =>
    rcases List.mem_cons.mp ha with rfl | ha
    · exact ⟨_, List.mem_cons_self, hab⟩
    · obtain ⟨b, hb, hr⟩ := ih ha
      exact ⟨b, List.mem_cons_of_mem _ hb, hr⟩

/-- A root of a block that decides is inert, or it is the expression that decides. -/
theorem Holds.root (h : c.Holds g items) {n : Nat} (hn : n < g.size) {t : Term}
    (hd : Item.Decide (items n) t) {i : Nat} (hi : i ∈ c.roots (g.block n).tokens) :
    c.Stands i .skip ∨ c.Stands i (.compute t) := by
  obtain ⟨item, hmem, hstands⟩ := exists_of_forall₂ (h.stands n hn) hi
  obtain ⟨before, after, hitems, hb, ha⟩ := hd
  rw [hitems, List.mem_append, List.mem_cons] at hmem
  rcases hmem with hmem | rfl | hmem
  · exact .inl (hb item hmem ▸ hstands)
  · exact .inr hstands
  · exact .inl (ha item hmem ▸ hstands)

theorem assume_inert {i : Nat} (h : c.Stands i .skip) (truth : Bool) (s : Store) :
    (c.tree (some i)).assume truth s = .ok s := by
  cases h with
  | inert left right type plain =>
    rcases tree_leaf left right with h | h
    · rw [h]; rfl
    · rw [h]
      show Eval.assumeNode _ (c.token i) .absent .absent _ _ _ truth s = _
      simp only [Eval.assumeNode, Expr.isAbsent, Expr.binaryOf?, type]
      simp
      rfl

theorem compareWith_inert {i : Nat} (h : c.Stands i .skip) (op : Comparison) (sign : Sign) (s : Store) :
    (c.tree (some i)).compareWith op sign s = .ok s := by
  cases h with
  | inert left right type plain =>
    have hfact : Eval.factOf (c.tree (some i)) (c.tree (some i)).eval s = .ok none := by
      rw [Eval.factOf, eval_inert left right type plain]
      have hnum : (c.tree (some i)).isNumeric = false := by
        rcases tree_leaf left right with h | h
        · rw [h]; rfl
        · rw [h]; exact type
      rw [hnum]
      split <;> rfl
    rw [Expr.compareWith, Eval.compareWith, hfact]
    rfl

theorem otherwise_covers {e : Expr} {cases : List Edge} {ρ : Env}
    (hstep : ∀ edge ∈ cases, Literal.sign (edge.label.getD "") = .ok .zero → ∀ {s s' : Store},
      s.Covers ρ → e.compareWith .ne .zero s = .ok s' → s'.Covers ρ) {s s' : Store} (hs : s.Covers ρ)
    (h : otherwise e cases s = .ok s') : s'.Covers ρ := by
  unfold otherwise at h
  induction cases generalizing s with
  | nil =>
    cases h
    exact hs
  | cons edge rest ih =>
    rw [List.foldlM_cons] at h
    obtain ⟨s₁, hs₁, hrest⟩ := (Returning.except Fault).of_bind h
    obtain ⟨value, hvalue, hnext⟩ := (Returning.except Fault).of_bind hs₁
    refine ih (fun e he => hstep e (by simp [he])) ?_ hrest
    split at hnext
    · rename_i hzero
      subst hzero
      exact hstep edge (by simp) hvalue hs hnext
    · cases hnext
      exact hs

theorem along_inert {e : Edge} {root : Nat} (hroot : c.conditionRoot (g.block e.src).tokens = some root)
    (hskip : c.Stands root .skip) {ρ : Env} {s s' : Store} (hs : s.Covers ρ)
    (halong : c.along g e s = .ok s') : s'.Covers ρ := by
  rw [Code.along, hs.isReachable, hroot] at halong
  simp only [Bool.not_true, Bool.false_eq_true, if_false, assume_inert hskip] at halong
  split at halong
  · cases halong; exact hs
  · cases halong; exact hs
  · obtain ⟨value, _, hnext⟩ := (Returning.except Fault).of_bind halong
    split at hnext
    · rw [compareWith_inert hskip] at hnext
      cases hnext
      exact hs
    · cases hnext
      exact hs
  · refine otherwise_covers (fun edge _ _ s s' hs h => ?_) hs halong
    rw [compareWith_inert hskip] at h
    cases h
    exact hs
  · cases halong; exact hs

theorem Holds.tested (h : c.Holds g items) {e : Edge} (he : e ∈ g.edges)
    (hkind : e.kind ∈ [.branchTrue, .branchFalse, .switchCase, .switchDefault]) {ρ ρ' : Env}
    {v : Option Int} (hrun : Item.runAll (items e.src) none ρ (.value v ρ')) {root : Nat}
    (hroot : root ∈ c.roots (g.block e.src).tokens) :
    c.Stands root .skip ∨ ∃ t x, v = some x ∧ Reads (c.tree (some root)) t ∧
      Sound (c.tree (some root)) t ∧ t.isPure = true ∧ t.run ρ' (.value x ρ') := by
  obtain ⟨t, hd, hp⟩ := h.decides e he hkind
  rcases h.root (h.closed.src_lt e he) hd hroot with hskip | hcomp
  · exact .inl hskip
  · obtain ⟨x, rfl, hx⟩ := hd.value hrun
    obtain rfl := Term.run_still hp hx
    cases hcomp with
    | expression tree pure used text => exact .inr ⟨t, x, rfl, tree, tree.sound_of_isPure hp, hp, hx⟩

/-- What an edge assumes holds wherever control takes it. -/
theorem Holds.along (h : c.Holds g items) {e : Edge} (he : e ∈ g.edges) {ρ ρ' : Env} {v : Option Int}
    (hrun : Item.runAll (items e.src) none ρ (.value v ρ')) (htakes : g.Takes e v) {s s' : Store}
    (hs : s.Covers ρ') (halong : c.along g e s = .ok s') : s'.Covers ρ' := by
  cases hroot : c.conditionRoot (g.block e.src).tokens with
  | none =>
    rw [Code.along, hs.isReachable, hroot] at halong
    cases halong
    exact hs
  | some root =>
  have tested := fun hkind => h.tested he hkind hrun (conditionRoot_mem hroot)
  have inert := fun hskip => along_inert hroot hskip hs halong
  rw [Code.along, hs.isReachable, hroot] at halong
  simp only [Bool.not_true, Bool.false_eq_true, if_false] at halong
  unfold Graph.Takes at htakes
  split at halong
  · rename_i hk
    rcases tested (by simp [hk]) with hskip | ⟨t, x, rfl, tree, hsound, hp, hx⟩
    · exact inert hskip
    simp only [hk, Option.some.injEq, exists_eq_left'] at htakes
    exact hsound.assume hp hs hx ((decide_eq_true htakes).symm ▸ halong)
  · rename_i hk
    rcases tested (by simp [hk]) with hskip | ⟨t, x, rfl, tree, hsound, hp, hx⟩
    · exact inert hskip
    simp only [hk, Option.some.injEq] at htakes
    exact hsound.assume hp hs hx ((decide_eq_false (not_not.mpr htakes)).symm ▸ halong)
  · rename_i hk
    rcases tested (by simp [hk]) with hskip | ⟨t, x, rfl, tree, hsound, hp, hx⟩
    · exact inert hskip
    simp only [hk, Option.some.injEq, exists_eq_left'] at htakes
    obtain ⟨ds, hw⟩ := htakes
    rw [hw.sign] at halong
    split at halong
    · cases halong
    · dsimp only [Bind.bind, Except.bind] at halong
      rw [tree.fit] at halong
      have heq : Comparison.eq.holds x x = true := by simp [Comparison.holds]
      exact Sound.compareWith hsound.value tree hs hx (Sign.covers_ofInt x) heq halong
  · rename_i hk
    rcases tested (by simp [hk]) with hskip | ⟨t, x, rfl, tree, hsound, hp, hx⟩
    · exact inert hskip
    simp only [hk, Option.some.injEq, exists_eq_left'] at htakes
    refine otherwise_covers (fun edge hedge hzero s s' hs hnext => ?_) hs halong
    obtain ⟨hmem, hcase⟩ := List.mem_filter.mp hedge
    obtain ⟨hin, hsrc⟩ := Graph.mem_leaving.mp hmem
    have hcase : edge.kind = .switchCase := by simpa using hcase
    obtain ⟨ds, n, hw⟩ := h.labels edge hin hcase
    have hn : n = 0 := by
      rw [hw.sign] at hzero
      split at hzero
      · cases hzero
      · have hcov := Sign.covers_ofInt n
        rw [Except.ok.inj hzero] at hcov
        exact Sign.covers_zero.mp hcov
    have hne : Comparison.ne.holds x 0 = true := by
      have : x ≠ 0 := fun hx0 => htakes edge hin hsrc hcase ds (by rw [hx0, ← hn]; exact hw)
      simpa [Comparison.holds] using this
    exact Sound.compareWith hsound.value tree hs hx (Sign.covers_ofInt 0) hne hnext
  · cases halong
    exact hs

end Code

namespace Analysis

variable {c : Code} {g : Graph} {items : Nat → List Item}

theorem foldlM_carry_covers {outputs : List Store} {es : List Edge} {acc r : Store} {ρ : Env}
    (h : es.foldlM ((problem c g).carry outputs) acc = .ok r) :
    (acc.Covers ρ → r.Covers ρ) ∧
      ∀ e ∈ es, ∀ {ρ' : Env}, ((problem c g).fact outputs e.src).Covers ρ' →
        ∃ s', c.along g e ((problem c g).fact outputs e.src) = .ok s' ∧ (s'.Covers ρ → r.Covers ρ) := by
  induction es generalizing acc with
  | nil =>
    cases h
    exact ⟨id, by simp⟩
  | cons e es ih =>
    rw [List.foldlM_cons] at h
    obtain ⟨acc₁, hacc, hrest⟩ := (Returning.except Fault).of_bind h
    obtain ⟨hkeep, hothers⟩ := ih hrest
    by_cases hb : (problem c g).fact outputs e.src = .unreachable
    · have hskip : (problem c g).carry outputs acc e = .ok acc :=
        if_pos (Store.domain_exact.isBottom.mpr hb)
      cases hskip.symm.trans hacc
      refine ⟨hkeep, fun e' he' ρ' hcov => ?_⟩
      rcases List.mem_cons.mp he' with rfl | he'
      · rw [hb] at hcov
        exact absurd hcov (Store.not_covers_unreachable ρ')
      · exact hothers e' he' hcov
    · have hjoin : (problem c g).carry outputs acc e = (do
          let carried ← c.along g e ((problem c g).fact outputs e.src)
          pure (acc.join carried)) :=
        if_neg fun h => hb (Store.domain_exact.isBottom.mp h)
      rw [hjoin] at hacc
      obtain ⟨carried, hcarried, hacc⟩ := (Returning.except Fault).of_bind hacc
      cases hacc
      refine ⟨fun hc => hkeep (hc.join_left carried), fun e' he' ρ' hcov => ?_⟩
      rcases List.mem_cons.mp he' with rfl | he'
      · exact ⟨carried, hcarried, fun hc => hkeep (hc.join_right acc)⟩
      · exact hothers e' he' hcov

/-- A converged analysis covers whatever a run arrives with. -/
theorem arrives_covers (h : c.Holds g items)
    (hnames : ∀ n < g.size, ∀ item ∈ items n, item.namesTargets = true) {s : Progress Store}
    (hs : (problem c g).Invariant s) (hw : s.worklist = []) {ρ₀ ρ : Env} {n : Nat}
    (ha : g.Arrives items ρ₀ n ρ) :
    n < g.size ∧ ((problem c g).fact s.inputs n).Covers ρ := by
  induction ha with
  | start =>
    refine ⟨h.closed.entry_lt, ?_⟩
    exact (foldlM_carry_covers (hs.equations hw Graph.entry).1).1 (Store.covers_empty ρ₀)
  | @step n ρ ρ' v e _ block edge src takes ih =>
    obtain ⟨hn, hcov⟩ := ih
    subst src
    have hne : (problem c g).fact s.inputs e.src ≠ .unreachable := by
      intro hb
      rw [hb] at hcov
      exact Store.not_covers_unreachable ρ hcov
    obtain ⟨u, hvalue, hstore⟩ := Code.transfer_ok ((hs.equations hw e.src).2 hne)
    have hafter : ((problem c g).fact s.outputs e.src).Covers ρ' := by
      rw [← hstore]
      exact ((h.block hn (hnames e.src hn) hcov).value hvalue block).2
    obtain ⟨s', halong, hmerged⟩ := (foldlM_carry_covers (hs.equations hw e.dst).1).2 e
      (Graph.mem_entering.mpr ⟨edge, rfl⟩) hafter
    exact ⟨h.closed.dst_lt e edge, hmerged (h.along edge block takes hafter halong)⟩

theorem mapM_ok {α β : Type} {f : α → Except Fault β} {l : List α} (h : ∀ a ∈ l, ∃ b, f a = .ok b) :
    ∃ bs, l.mapM f = .ok bs ∧ ∀ a ∈ l, ∀ b, f a = .ok b → b ∈ bs := by
  induction l with
  | nil => exact ⟨[], rfl, by simp⟩
  | cons a l ih =>
    obtain ⟨b, hb⟩ := h a (by simp)
    obtain ⟨bs, hbs, hmem⟩ := ih fun x hx => h x (by simp [hx])
    refine ⟨b :: bs, by rw [List.mapM_cons, hb, hbs]; rfl, fun x hx y hy => ?_⟩
    rcases List.mem_cons.mp hx with rfl | hx
    · cases hb.symm.trans hy
      exact List.mem_cons_self
    · exact List.mem_cons_of_mem _ (hmem x hx y hy)

theorem runBlock_ok {s : Progress Store} (hs : (problem c g).Invariant s) (n : Nat) :
    ∃ u, (c.runBlock (g.block n).tokens ((problem c g).fact s.inputs n)).value = .ok u := by
  by_cases hv : n ∈ s.visits
  · obtain ⟨u, hu, _⟩ := Code.transfer_ok (hs.visited n hv).2
    exact ⟨u, hu⟩
  · rw [(hs.unvisited n hv).1]
    exact ⟨(), rfl⟩

theorem sites_ok {s : Progress Store} (hs : (problem c g).Invariant s) :
    ∃ sites, (Analysis.mk c g s.finish).sites = .ok sites ∧ ∀ n < g.size,
      ∀ site ∈ (c.runBlock (g.block n).tokens ((problem c g).fact s.inputs n)).sites,
        site ∈ sites := by
  obtain ⟨found, hfound, hmem⟩ := mapM_ok (l := g.positions) (f := fun n =>
    let r := c.runBlock (g.block n).tokens ((problem c g).fact s.inputs n)
    r.value.map fun _ => r.sites) fun n _ => by
      obtain ⟨u, hu⟩ := runBlock_ok hs n
      exact ⟨_, by dsimp only; rw [hu]; rfl⟩
  refine ⟨found.flatten, ?_, fun n hn site hsite => ?_⟩
  · exact congrArg (fun x : Except Fault (List (List Site)) => x >>= fun l => pure l.flatten) hfound
  · obtain ⟨u, hu⟩ := runBlock_ok hs n
    refine List.mem_flatten.mpr ⟨_, hmem n (Graph.mem_positions.mpr hn) _ ?_, hsite⟩
    dsimp only
    rw [hu]
    rfl

end Analysis

theorem Expr.not_faulty_leaf {pos : Nat} {t : Token} {f : Fault} (hv : t.values = [])
    (hl : Eval.isLiteral t = false) : ¬(Expr.node pos t .absent .absent).Faulty f := by
  rintro (⟨hlit, _⟩ | hk | h | h)
  · simp [hl] at hlit
  · simp [Token.known?_of_values hv] at hk
  · exact h
  · exact h

/-- A term's expression fails to be read only for a literal of too many digits. -/
theorem Reads.faulty {e : Expr} {t : Term} (h : Reads e t) {f : Fault} (hf : e.Faulty f) :
    ∃ digits ∈ t.literals, Fault.maxDigits < digits.length ∧ f = .tooManyDigits digits.length := by
  have known : ∀ {t : Token}, t.values = [] → t.known? ≠ .error f := by
    intro t ht
    simp [Token.known?_of_values ht]
  have node : ∀ {pos : Nat} {t : Token} {l r : Expr}, t.values = [] →
      (l.isAbsent && r.isAbsent) = false → (Expr.node pos t l r).Faulty f → l.Faulty f ∨ r.Faulty f := by
    rintro pos t l r hv ha (⟨hlit, _⟩ | hk | h)
    · simp [ha] at hlit
    · exact absurd hk (known hv)
    · exact h
  induction h with
  | literal ht =>
    rcases hf with ⟨_, hsign⟩ | hk | hl | hr
    · rw [ht.writes.sign] at hsign
      split at hsign
      · cases hsign
        exact ⟨_, by simp [Term.literals], by assumption, rfl⟩
      · cases hsign
    · exact absurd hk (known ht.values)
    · exact hl.elim
    · exact hr.elim
  | var ht =>
    exact absurd hf (Expr.not_faulty_leaf ht.values (by simp [Eval.isLiteral, ht.notNumber, ht.notChar]))
  | arithmetic ht type rl rr ihl ihr | assign ht type rl rr ihl ihr | compound ht type rl rr ihl ihr
  | comparison ht type rl rr ihl ihr | logical ht type rl rr ihl ihr | comma ht type rl rr ihl ihr =>
    rcases node ht.values (by simp [rl.isAbsent]) hf with hf | hf
    · obtain ⟨ds, hmem, h⟩ := ihl hf
      exact ⟨ds, List.mem_append_left _ hmem, h⟩
    · obtain ⟨ds, hmem, h⟩ := ihr hf
      exact ⟨ds, List.mem_append_right _ hmem, h⟩
  | stepAfter ht type rr ihr =>
    rcases node ht.values (by simp [rr.isAbsent]) hf with hf | hf
    · exact hf.elim
    · exact ihr hf
  | stepBefore ht type rl ihl | minus ht type rl ihl | plus ht type rl ihl | not ht type rl ihl =>
    rcases node ht.values (by simp [rl.isAbsent]) hf with hf | hf
    · exact ihl hf
    · exact hf.elim
  | conditional ht type hc hv rl ry rn ihl ihy ihn =>
    rcases node ht.values (by simp [rl.isAbsent]) hf with hf | hf
    · obtain ⟨ds, hmem, h⟩ := ihl hf
      exact ⟨ds, List.mem_append_left _ (List.mem_append_left _ hmem), h⟩
    · rcases node hv (by simp [ry.isAbsent]) hf with hf | hf
      · obtain ⟨ds, hmem, h⟩ := ihy hf
        exact ⟨ds, List.mem_append_left _ (List.mem_append_right _ hmem), h⟩
      · obtain ⟨ds, hmem, h⟩ := ihn hf
        exact ⟨ds, List.mem_append_right _ hmem, h⟩

/-- A literal or a case label of the graph is written with so many digits. -/
def Graph.Writes (g : Graph) (items : Nat → List Item) (count : Nat) : Prop :=
  (∃ n < g.size, ∃ t, .compute t ∈ items n ∧ ∃ digits ∈ t.literals, digits.length = count) ∨
    ∃ e ∈ g.edges, e.kind = .switchCase ∧
      ∃ digits n, Literal.Writes (e.label.getD "") digits n ∧ digits.length = count

/-- An analysis of integer expressions fails only on a literal or a label of too many digits. -/
theorem Code.Holds.faulty {c : Code} {g : Graph} {items : Nat → List Item} (h : c.Holds g items)
    {f : Fault} (hf : c.Faulty g f) :
    ∃ count, f = .tooManyDigits count ∧ Fault.maxDigits < count ∧ g.Writes items count := by
  rcases hf with ⟨b, hb, i, hi, hf⟩ | ⟨e, he, hk, hsign⟩
  · obtain ⟨n, hn, rfl⟩ := List.getElem_of_mem hb
    have hblock : g.block n = g.blocks[n] := by simp [Graph.block, hn]
    obtain ⟨item, hitem, hstands⟩ := exists_of_forall₂ (h.stands n hn) (hblock ▸ hi)
    have leaf : (c.token i).left = none → (c.token i).right = none → (c.token i).values = [] →
        Eval.isLiteral (c.token i) = false → False := by
      intro hl hr hv hlit
      rcases tree_leaf hl hr with htree | htree
      · rw [htree] at hf
        exact hf
      · rw [htree] at hf
        exact Expr.not_faulty_leaf hv hlit hf
    cases hstands with
    | inert left right type plain =>
      exact (leaf left right plain.values (by simp [Eval.isLiteral, type])).elim
    | declaration left right names declared parent text =>
      exact (leaf left right names.values
        (by simp [Eval.isLiteral, names.notNumber, names.notChar])).elim
    | expression tree pure used text =>
      obtain ⟨ds, hmem, hlong, rfl⟩ := tree.faulty hf
      exact ⟨_, rfl, hlong, .inl ⟨n, hn, _, hitem, ds, hmem, rfl⟩⟩
  · obtain ⟨ds, n, hw⟩ := h.labels e he hk
    rw [hw.sign] at hsign
    split at hsign
    · cases hsign
      exact ⟨_, rfl, by assumption, .inr ⟨e, he, hk, ds, n, hw, rfl⟩⟩
    · cases hsign

/-- Where all targets are variables by their names and a run divides by zero, a converged analysis has a
site with a divisor that may be zero. Only a number of too many digits keeps the analysis from an
answer. -/
theorem Analysis.trap_has_site {c : Code} {g : Graph} {items : Nat → List Item}
    (h : c.Holds g items) (hnames : ∀ n < g.size, ∀ item ∈ items n, item.namesTargets = true)
    (strategy : Strategy) (limit : Int) {ρ₀ ρ : Env} {n p : Nat} (harrives : g.Arrives items ρ₀ n ρ)
    (htrap : Item.runAll (items n) none ρ (.trap p)) :
    (∃ count, ofGraph c strategy limit g = .error (.tooManyDigits count) ∧
        Fault.maxDigits < count ∧ g.Writes items count) ∨
      ∃ a sites, ofGraph c strategy limit g = .ok a ∧ a.sites = .ok sites ∧
        (a.solution.converged = true → ∃ site ∈ sites, site.Flags p) := by
  cases ha : ofGraph c strategy limit g with
  | error f =>
    obtain ⟨count, rfl, hcount⟩ := h.faulty (ofGraph_only c g strategy limit ha)
    exact .inl ⟨count, rfl, hcount⟩
  | ok a =>
    right
    obtain ⟨solution, hsolve, ha⟩ := (Returning.except Fault).of_bind ha
    cases ha
    obtain ⟨s, hrun, rfl⟩ := Problem.solve_run (Returning.except Fault) hsolve
    have hs := Problem.run_invariant (Returning.except Fault) h.closed Store.domain_exact hrun
    obtain ⟨sites, hsites, hmem⟩ := sites_ok hs
    refine ⟨_, sites, rfl, hsites, fun hconv => ?_⟩
    obtain ⟨hn, hcov⟩ := arrives_covers h hnames hs (Progress.converged_finish.mp hconv) harrives
    obtain ⟨u, hu⟩ := runBlock_ok hs n
    obtain ⟨site, hsite, hflags⟩ := (h.block hn (hnames n hn) hcov).trap hu htrap
    exact ⟨site, hmem n hn site hsite, hflags⟩

namespace Sample

def intType : Option ValueType := some { base := .int }

def named (text : String) (k : Key) (parent : Nat) : Token :=
  { text, parent := some parent, variableKey := some k, type := intType }

def decimal (text : String) (parent : Nat) : Token :=
  { text, parent := some parent, isNumber := true, type := intType }

def joined (text : String) (left right : Nat) (parent : Option Nat) : Token :=
  { text, left := some left, right := some right, parent, type := intType }

theorem named_names (text : String) (k : Key) (parent : Nat) : (named text k parent).Names k :=
  ⟨rfl, rfl, rfl, rfl, rfl⟩

theorem decimal_decimal {text : String} {parent : Nat} (hne : text.toList ≠ [])
    (hd : ∀ c ∈ text.toList, c.isDigit = true) : (decimal text parent).IsDecimal text.toList :=
  ⟨⟨rfl, rfl, rfl⟩, rfl, rfl, rfl, hne, hd⟩

theorem joined_operator (text : String) (left right : Nat) (parent : Option Nat) :
    (joined text left right parent).IsOperator text := ⟨⟨rfl, rfl, rfl⟩, rfl⟩

def code : Code := ⟨#[
  -- the tokens of `x == 0` and `y = 10 / x`
  named "x" (.id 1) 1,
  { text := "==", left := some 0, right := some 2, type := some { base := .bool } },
  decimal "0" 1,
  named "y" (.id 2) 4,
  joined "=" 3 6 none,
  decimal "10" 6,
  joined "/" 5 7 (some 4),
  named "x" (.id 1) 6]⟩

/-- If `x` is zero, ten is divided by it. -/
def graph : Graph where
  blocks := [⟨.entry, []⟩, ⟨.exit, []⟩, ⟨.ifCond, [0, 1, 2]⟩, ⟨.ifTrue, [3, 4, 5, 6, 7]⟩]
  edges := [⟨0, 2, .fallThrough, none⟩, ⟨2, 3, .branchTrue, none⟩, ⟨2, 1, .branchFalse, none⟩,
    ⟨3, 1, .fallThrough, none⟩]

def items : Nat → List Item
  | 2 => [.compute (.comparison .eq (.var (.id 1)) (.literal ['0']))]
  | 3 => [.compute (.assign (.var (.id 2)) (.arithmetic 6 .divide (.literal ['1', '0']) (.var (.id 1))))]
  | _ => []

theorem reads_test : Reads (code.tree (some 1))
    (.comparison .eq (.var (.id 1)) (.literal ['0'])) := by
  refine .comparison ⟨⟨rfl, rfl, rfl⟩, rfl⟩ (.inr ⟨false, rfl⟩) (.var (named_names _ _ _)) ?_
  exact .literal (decimal_decimal (by decide) (by decide))

theorem reads_division : Reads (code.tree (some 4))
    (.assign (.var (.id 2)) (.arithmetic 6 .divide (.literal ['1', '0']) (.var (.id 1)))) := by
  refine .assign (joined_operator _ _ _ _) rfl (.var (named_names _ _ _)) ?_
  refine .arithmetic (joined_operator _ _ _ _) rfl ?_ (.var (named_names _ _ _))
  exact .literal (decimal_decimal (by decide) (by decide))

theorem holds : code.Holds graph items where
  closed := ⟨by decide, by decide, by decide⟩
  stands := by
    intro n hn
    have hn : n < 4 := hn
    interval_cases n
    · exact .nil
    · exact .nil
    · exact .cons (.expression reads_test rfl (by decide) (by decide)) .nil
    · exact .cons (.expression reads_division rfl (by decide) (by decide)) .nil
  decides := by
    intro e he hk
    have he : e = ⟨2, 3, .branchTrue, none⟩ ∨ e = ⟨2, 1, .branchFalse, none⟩ := by
      simp [graph] at he
      rcases he with rfl | rfl | rfl | rfl <;> simp_all
    rcases he with rfl | rfl
    all_goals exact ⟨_, ⟨[], [], rfl, by simp, by simp⟩, rfl⟩
  labels := by
    intro e he hk
    simp [graph] at he
    rcases he with rfl | rfl | rfl | rfl <;> simp at hk

theorem arrives : graph.Arrives items (fun _ => 0) 3 fun _ => 0 := by
  have hcond : graph.Arrives items (fun _ => 0) 2 fun _ => 0 :=
    .step (e := ⟨0, 2, .fallThrough, none⟩) .start (v := none) rfl (by decide) rfl trivial
  refine .step (e := ⟨2, 3, .branchTrue, none⟩) hcond (v := some 1) ?_ (by decide) rfl
    ⟨1, rfl, by decide⟩
  simp [items, Item.runAll, Item.run, Term.run, Comparison.holds, Nat.ofDigitChars]

end Sample

theorem Analysis.trap_has_site_sample :
    (Sample.code.Holds Sample.graph Sample.items ∧
      (∀ n < Sample.graph.size, ∀ item ∈ Sample.items n, item.namesTargets = true) ∧
      Sample.graph.Arrives Sample.items (fun _ => 0) 3 (fun _ => 0) ∧
      Item.runAll (Sample.items 3) none (fun _ => 0) (.trap 6)) ∧
    ∃ a sites, ofGraph Sample.code .rpo 100 Sample.graph = .ok a ∧ a.sites = .ok sites ∧
      ∃ site ∈ sites, site.Flags 6 := by
  have htrap : Item.runAll (Sample.items 3) none (fun _ => 0) (.trap 6) := by
    simp [Sample.items, Item.runAll, Item.run, Term.run, Run.compute, Operator.isDivision, Run.trap]
  have hconv : (ofGraph Sample.code .rpo 100 Sample.graph).toOption.map (·.solution.converged) =
      some true := by decide
  have hnames : ∀ n < Sample.graph.size, ∀ item ∈ Sample.items n, item.namesTargets = true := by decide
  refine ⟨⟨Sample.holds, hnames, Sample.arrives, htrap⟩, ?_⟩
  rcases trap_has_site Sample.holds hnames .rpo 100 Sample.arrives htrap with
    ⟨_, h, _⟩ | ⟨a, sites, ha, hs, h⟩
  · rw [h] at hconv
    cases hconv
  · rw [ha] at hconv
    exact ⟨a, sites, ha, hs, h (Option.some.inj hconv)⟩

namespace Sample

def scaled : Code := ⟨#[
  -- the tokens of `x = 1`, `y = 1`, `(x += y) *= z` and `r = 10 / x`
  named "x" (.id 1) 1, joined "=" 0 2 none, decimal "1" 1,
  named "y" (.id 2) 4, joined "=" 3 5 none, decimal "1" 4,
  named "x" (.id 1) 7, joined "+=" 6 8 (some 9), named "y" (.id 2) 7, joined "*=" 7 10 none,
  named "z" (.id 3) 9,
  named "r" (.id 4) 12, joined "=" 11 14 none, decimal "10" 14, joined "/" 13 15 (some 12),
  named "x" (.id 1) 14]⟩

def scaledGraph : Graph where
  blocks := [⟨.entry, []⟩, ⟨.exit, []⟩, ⟨.body, List.range 16⟩]
  edges := [⟨0, 2, .fallThrough, none⟩, ⟨2, 1, .fallThrough, none⟩]

def scaledItems : Nat → List Item
  | 2 => [
    .compute (.assign (.var (.id 1)) (.literal ['1'])),
    .compute (.assign (.var (.id 2)) (.literal ['1'])),
    .compute (.compound 9 .times (.compound 7 .plus (.var (.id 1)) (.var (.id 2))) (.var (.id 3))),
    .compute (.assign (.var (.id 4)) (.arithmetic 14 .divide (.literal ['1', '0']) (.var (.id 1))))]
  | _ => []

theorem reads_one {l : Expr} {k : Key} {i j m : Nat} {t : Token} (hl : Reads l (.var k))
    (ht : t.IsOperator "=") (type : t.IsInt) :
    Reads (.node i t l (.node j (decimal "1" m) .absent .absent)) (.assign (.var k) (.literal ['1'])) :=
  .assign ht type hl (.literal (decimal_decimal (by decide) (by decide)))

theorem reads_scaling : Reads (scaled.tree (some 9))
    (.compound 9 .times (.compound 7 .plus (.var (.id 1)) (.var (.id 2))) (.var (.id 3))) := by
  refine .compound (joined_operator _ _ _ _) rfl ?_ (.var (named_names _ _ _))
  exact .compound (joined_operator _ _ _ _) rfl (.var (named_names _ _ _)) (.var (named_names _ _ _))

theorem reads_quotient : Reads (scaled.tree (some 12))
    (.assign (.var (.id 4)) (.arithmetic 14 .divide (.literal ['1', '0']) (.var (.id 1)))) := by
  refine .assign (joined_operator _ _ _ _) rfl (.var (named_names _ _ _)) ?_
  refine .arithmetic (joined_operator _ _ _ _) rfl ?_ (.var (named_names _ _ _))
  exact .literal (decimal_decimal (by decide) (by decide))

theorem scaled_holds : scaled.Holds scaledGraph scaledItems where
  closed := ⟨by decide, by decide, by decide⟩
  stands := by
    intro n hn
    have hn : n < 3 := hn
    interval_cases n
    · exact .nil
    · exact .nil
    · have hx : Reads (scaled.tree (some 1)) (.assign (.var (.id 1)) (.literal ['1'])) :=
        reads_one (.var (named_names _ _ _)) (joined_operator _ _ _ _) rfl
      have hy : Reads (scaled.tree (some 4)) (.assign (.var (.id 2)) (.literal ['1'])) :=
        reads_one (.var (named_names _ _ _)) (joined_operator _ _ _ _) rfl
      refine .cons (.expression hx rfl (by decide) (by decide)) ?_
      refine .cons (.expression hy rfl (by decide) (by decide)) ?_
      refine .cons (.expression reads_scaling rfl (by decide) (by decide)) ?_
      exact .cons (.expression reads_quotient rfl (by decide) (by decide)) .nil
  decides := by
    intro e he hk
    simp [scaledGraph] at he
    rcases he with rfl | rfl <;> simp at hk
  labels := by
    intro e he hk
    simp [scaledGraph] at he
    rcases he with rfl | rfl <;> simp at hk

theorem scaled_arrives : scaledGraph.Arrives scaledItems (fun _ => 0) 2 fun _ => 0 :=
  .step (e := ⟨0, 2, .fallThrough, none⟩) .start (v := none) rfl (by decide) rfl trivial

theorem scaled_traps : Item.runAll (scaledItems 2) none (fun _ => 0) (.trap 14) := by
  simp [scaledItems, Item.runAll, Item.run, Term.run, Term.place, Run.compute, Operator.isDivision,
    Operator.Gives, Run.trap]

end Sample

/-- The product is written through an assignment, so the write is dropped. The variable is zero where it
divides, and the analysis holds it for positive. -/
theorem Analysis.trap_unflagged_scaled :
    (Sample.scaled.Holds Sample.scaledGraph Sample.scaledItems ∧
      Sample.scaledGraph.Arrives Sample.scaledItems (fun _ => 0) 2 (fun _ => 0) ∧
      Item.runAll (Sample.scaledItems 2) none (fun _ => 0) (.trap 14)) ∧
    ∃ a sites, ofGraph Sample.scaled .rpo 100 Sample.scaledGraph = .ok a ∧
      a.solution.converged = true ∧ a.sites = .ok sites ∧ ∀ site ∈ sites, ¬site.Flags 14 := by
  refine ⟨⟨Sample.scaled_holds, Sample.scaled_arrives, Sample.scaled_traps⟩, ?_⟩
  have hrun : (ofGraph Sample.scaled .rpo 100 Sample.scaledGraph).toOption.map
        (fun a => (a.solution.converged, a.sites.toOption)) =
      some (true, some [⟨14, .divide, .pos, .pos, false, true⟩]) := by
    decide
  cases ha : ofGraph Sample.scaled .rpo 100 Sample.scaledGraph with
  | error f =>
    rw [ha] at hrun
    cases hrun
  | ok a =>
    rw [ha] at hrun
    obtain ⟨hconv, hsites⟩ := Prod.mk.inj (Option.some.inj hrun)
    cases hs : a.sites with
    | error f =>
      rw [hs] at hsites
      cases hsites
    | ok sites =>
      rw [hs] at hsites
      cases hsites
      refine ⟨a, _, rfl, hconv, hs, fun site hmem hflags => ?_⟩
      obtain rfl := List.mem_singleton.mp hmem
      cases hflags.mayBeZero

end SignFlow

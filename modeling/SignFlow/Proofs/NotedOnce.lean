import Mathlib.Data.Fintype.EquivFin
import Mathlib.Data.Fintype.Sets
import Mathlib.Logic.Relation
import SignFlow.Proofs.Faults

/-! Each division of a block is noted at most once.

Conditions are evaluated again to see what their outcomes tell, but that is done without noting anything. So
an evaluation notes a position no more often than the tree has it. The trees of a block do not overlap where
the links between its tokens form a forest. -/

namespace SignFlow

namespace Walk

variable {α β : Type} {p m n : Nat}

/-- The step notes the position at most that often, also where it fails. -/
def Notes (p n : Nat) (x : Walk α) : Prop := ∀ s, ((x s).sites.map Site.pos).count p ≤ n

namespace Notes

theorem mono {x : Walk α} (h : Notes p m x) (hmn : m ≤ n) : Notes p n x := fun s => (h s).trans hmn

theorem pure (a : α) : Notes p 0 (Pure.pure a : Walk α) := fun _ => Nat.le_refl 0

theorem store : Notes p 0 Walk.store := fun _ => Nat.le_refl 0

theorem change (g : Store → Store) : Notes p 0 (Walk.change g) := fun _ => Nat.le_refl 0

theorem lift (x : Except Fault α) : Notes p 0 (Walk.lift x) := fun _ => Nat.le_refl 0

theorem note (site : Site) : Notes p ([site.pos].count p) (Walk.note site) := fun _ => Nat.le_refl _

theorem aside {x : Walk α} (h : Notes p n x) (other : Store) : Notes p n (Walk.aside other x) :=
  fun _ => h other

theorem bind {x : Walk α} {f : α → Walk β} (hx : Notes p m x) (hf : ∀ a, Notes p n (f a)) :
    Notes p (m + n) (x >>= f) := by
  intro s
  cases hv : (x s).value with
  | ok a =>
    rw [bind_of_ok hv, List.map_append, List.count_append]
    exact Nat.add_le_add (hx s) (hf a _)
  | error e =>
    rw [bind_of_error hv]
    exact Nat.le_add_right_of_le (hx s)

/-- What is noted is noted by the first of two steps. -/
theorem before {x : Walk α} {f : α → Walk β} (hx : Notes p n x) (hf : ∀ a, Notes p 0 (f a)) :
    Notes p n (x >>= f) := bind hx hf

theorem after {x : Walk α} {f : α → Walk β} (hx : Notes p 0 x) (hf : ∀ a, Notes p n (f a)) :
    Notes p n (x >>= f) := (bind hx hf).mono (Nat.zero_add n).le

theorem ite {c : Prop} [Decidable c] {x y : Walk α} (hx : Notes p n x) (hy : Notes p n y) :
    Notes p n (if c then x else y) := by
  split
  · exact hx
  · exact hy

theorem assignTo (target : Expr) (value : Fact) : Notes p 0 (Walk.assignTo target value) := by
  unfold Walk.assignTo
  split
  · exact pure ()
  · split
    · exact ite (change _) (change _)
    · exact change _

theorem forgetTarget (target : Expr) : Notes p 0 (Walk.forgetTarget target) := by
  unfold Walk.forgetTarget
  split
  · exact pure ()
  · exact change _

end Notes

end Walk

/-- Evaluating the expression notes the position at most that often, and so do both its operands together. -/
structure Meaning.Notes (p n : Nat) (m : Meaning) : Prop where
  value : m.value.Notes p n
  operands : ∃ i j, m.left.Notes p i ∧ m.right.Notes p j ∧ i + j ≤ n

namespace Eval

open Walk

variable {p a b pos : Nat} {t : Token} {op : Operator} {l r : Expr} {left right : Walk Fact}

theorem leaf_notes : (leaf t).Notes p 0 := by
  refine .ite (.pure _) (.before .store fun s => .ite (.pure _) (.ite ?_ ?_))
  · exact .before (.lift _) fun _ => .pure _
  · split
    · exact .before .store fun _ => .pure _
    · exact .pure _

theorem assign_notes (hl : left.Notes p a) (hr : right.Notes p b) :
    (assign l r left right).Notes p (a + b) := by
  have last : ∀ value : Fact, Walk.Notes p 0 (do
      assignTo l value
      pure (if l.isNumeric then value else none) : Walk Fact) :=
    fun value => .before (.assignTo _ _) fun _ => .pure _
  rw [Nat.add_comm]
  refine .bind hr fun v => .ite (.before hl fun _ => last _) ?_
  exact (last _).mono (Nat.zero_le a)

theorem arithmetic_notes (hl : left.Notes p a) (hr : right.Notes p b) :
    (arithmetic pos t op l r left right).Notes p (a + (b + [pos].count p)) := by
  refine .bind hl fun v => .bind hr fun w => ?_
  dsimp only
  split
  · refine .ite (.before (.note _) fun _ => .pure _) ?_
    exact (Notes.pure _).mono (Nat.zero_le _)
  · exact (Notes.pure _).mono (Nat.zero_le _)

theorem compound_notes (hl : left.Notes p a) (hr : right.Notes p b) :
    (compound pos t op l r left right).Notes p (b + (a + [pos].count p)) := by
  refine .bind hr fun w => .bind hl fun v => ?_
  have last : ∀ value result : Fact, Walk.Notes p 0 (do
      assignTo l value
      pure result : Walk Fact) :=
    fun _ _ => .before (.assignTo _ _) fun _ => .pure _
  dsimp only
  split
  · exact .ite (.before (.note _) fun _ => last _ _) ((last _ _).mono (Nat.zero_le _))
  · exact (last _ _).mono (Nat.zero_le _)

theorem comparison_notes (hl : left.Notes p a) (hr : right.Notes p b) :
    (comparison left right).Notes p (a + b) :=
  .bind hl fun _ => .before hr fun _ => .pure _

theorem step_notes {operand : Expr} {value : Walk Fact} (h : value.Notes p a) :
    (step op operand value).Notes p a := by
  refine .before h fun v => ?_
  split
  · exact .ite (.before (.assignTo _ _) fun _ => .pure _) (.before (.assignTo _ _) fun _ => .pure _)
  · exact .before (.assignTo _ _) fun _ => .pure _

theorem unary_notes {operand : Expr} {value : Walk Fact} (h : value.Notes p a) :
    (unary t operand value).Notes p a := by
  refine .before h fun v => ?_
  split
  · exact .pure _
  · exact .pure _
  · exact .before (.forgetTarget _) fun _ => .pure _
  · exact .pure _
  · exact .pure _

theorem other_notes (hl : left.Notes p a) (hr : right.Notes p b) :
    (other t l left right).Notes p (a + b) := by
  have last : Walk.Notes p b (do
      let _ ← right
      if Expr.assignments.contains t.text then assignTo l (some .top)
      pure t.unknown : Walk Fact) :=
    .before hr fun _ => .ite (.before (.assignTo _ _) fun _ => .pure _) (.pure _)
  exact .ite (.bind hl fun _ => last) (last.mono (Nat.le_add_left b a))

variable {ml mr : Meaning}

theorem shortCircuit_notes {goesOn : Bool} (hl : ml.Notes p a) (hr : mr.Notes p b) :
    (shortCircuit goesOn ml mr).Notes p (a + b) := by
  refine .bind hl.value fun _ => .after .store fun s => .after (.lift _) fun taken => ?_
  refine .before (hr.value.aside taken) fun branch => .before (.change _) fun _ => ?_
  exact .before .store fun _ => .pure _

theorem conditional_notes {hasArms : Bool} (hl : ml.Notes p a) (hr : mr.Notes p b) :
    (conditional t hasArms ml mr).Notes p (a + b) := by
  obtain ⟨i, j, hyes, hno, hij⟩ := hr.operands
  refine .bind hl.value fun _ => .ite (.before hr.value fun _ => .pure _) ?_
  -- the condition is not evaluated again here, only its outcomes are asked for
  apply Notes.mono _ hij
  refine .after .store fun s => .after (.lift _) fun yesStore => .bind (hyes.aside yesStore) fun yes => ?_
  refine .after .store fun s => .after (.lift _) fun noStore => .before (hno.aside noStore) fun no => ?_
  refine .before (.change _) fun _ => ?_
  split
  · exact .pure _
  · exact .pure _

theorem visit_notes (hl : ml.Notes p a) (hr : mr.Notes p b) :
    (visit pos t l r ml mr).Notes p ([pos].count p + (a + b)) := by
  have operand : ∀ {x : Walk Fact} {n : Nat}, x.Notes p n → n ≤ a + b →
      x.Notes p ([pos].count p + (a + b)) :=
    fun h hn => h.mono (Nat.le_add_left_of_le hn)
  have hleft : a ≤ a + b := Nat.le_add_right a b
  have hright : b ≤ a + b := Nat.le_add_left b a
  refine .ite (operand leaf_notes (Nat.zero_le _))
    (.ite (operand (assign_notes hl.value hr.value) (Nat.le_refl _)) ?_)
  split
  · exact (arithmetic_notes hl.value hr.value).mono (by omega)
  · exact (compound_notes hl.value hr.value).mono (by omega)
  · exact operand (comparison_notes hl.value hr.value) (Nat.le_refl _)
  refine .ite (.ite (operand (step_notes hr.value) hright) (operand (step_notes hl.value) hleft)) ?_
  refine .ite (operand (shortCircuit_notes hl hr) (Nat.le_refl _)) ?_
  refine .ite (operand (conditional_notes hl hr) (Nat.le_refl _)) ?_
  refine .ite (operand (.before hl.value fun _ => .pure _) hleft) ?_
  refine .ite (operand (.before hl.value fun _ => .pure _) hleft) ?_
  refine .ite (operand (unary_notes hl.value) hleft) (.ite ?_ ?_)
  · exact operand (.bind hl.value fun _ => hr.value) (Nat.le_refl _)
  · exact operand (other_notes hl.value hr.value) (Nat.le_refl _)

theorem withKnown_notes {visited : Walk Fact} (h : visited.Notes p a) :
    (withKnown t visited).Notes p a := by
  refine .before h fun computed => .before (.lift _) fun known => ?_
  split
  · exact .before .store fun _ => .ite (.pure _) (.pure _)
  · exact .pure _

end Eval

namespace Expr

def positions : Expr → List Nat
  | absent => []
  | node pos _ l r => pos :: (l.positions ++ r.positions)

theorem meaning_notes (e : Expr) (p : Nat) : e.meaning.Notes p (e.positions.count p) := by
  induction e with
  | absent => exact ⟨.pure _, 0, 0, .pure _, .pure _, Nat.le_refl 0⟩
  | node pos t l r ihl ihr =>
    have hcount : (node pos t l r).positions.count p =
        [pos].count p + (l.positions.count p + r.positions.count p) := by
      rw [← List.count_append, ← List.count_append]
      rfl
    rw [hcount]
    exact ⟨Eval.withKnown_notes (Eval.visit_notes ihl ihr), _, _, ihl.value, ihr.value,
      Nat.le_add_left _ _⟩

end Expr

namespace Code

variable {c : Code} {tokens : List Nat} {i j p r : Nat}

theorem statement_notes (c : Code) (root p : Nat) :
    (c.statement root).Notes p ((c.tree (some root)).positions.count p) := by
  have quiet : ∀ {x : Walk Unit} {n : Nat}, x.Notes p 0 → x.Notes p n := fun h => h.mono (Nat.zero_le _)
  refine .ite (quiet (.pure _)) (.ite (quiet ?_) ?_)
  · split
    · exact .change _
    · exact .pure _
  · exact .before ((c.tree (some root)).meaning_notes p).value fun _ => .pure _

/-- If only the tree of one root has the position, and only once, it is noted no more often than that root
comes up. -/
theorem statements_notes {roots : List Nat}
    (h : ∀ x ∈ roots, (c.tree (some x)).positions.count p ≤ [x].count r) :
    (roots.forM c.statement).Notes p (roots.count r) := by
  induction roots with
  | nil => exact .pure ()
  | cons x rest ih =>
    have hx : (c.statement x).Notes p ([x].count r) :=
      (c.statement_notes x p).mono (h x List.mem_cons_self)
    have hcount : (x :: rest).count r = [x].count r + rest.count r := by
      rw [← List.count_append]
      rfl
    rw [List.forM, hcount]
    exact .bind hx fun _ => ih fun y hy => h y (List.mem_cons_of_mem _ hy)

theorem runBlock_notes
    (h : ∀ x ∈ c.roots tokens, (c.tree (some x)).positions.count p ≤ [x].count r) (s : Store) :
    ((c.runBlock tokens s).sites.map Site.pos).count p ≤ (c.roots tokens).count r := by
  unfold runBlock
  split
  · exact statements_notes h s
  · exact Nat.zero_le _

def operands (c : Code) (i : Nat) : List Nat := (c.token i).left.toList ++ (c.token i).right.toList

theorem mem_operands : j ∈ c.operands i ↔ (c.token i).left = some j ∨ (c.token i).right = some j := by
  simp [operands]

def InTree (c : Code) : Nat → Nat → Prop := Relation.ReflTransGen fun i j => j ∈ c.operands i

/-- With a token, the block has its operands. They are two different ones, if there are two, and the block's
tokens have them for operands whose parents they are. No token is an operand of its own, however far down. -/
structure Forest (c : Code) (tokens : List Nat) : Prop where
  closed : ∀ i ∈ tokens, ∀ j ∈ c.operands i, j ∈ tokens
  distinct : ∀ i ∈ tokens, (c.operands i).Nodup
  parent_iff : ∀ i ∈ tokens, ∀ j ∈ tokens, (c.token j).parent = some i ↔ j ∈ c.operands i
  acyclic : ∀ i ∈ tokens, ¬Relation.TransGen (fun i j => j ∈ c.operands i) i i

/-- The second token is the parent of the first, and one of these. -/
def Up (c : Code) (tokens : List Nat) (j i : Nat) : Prop := i ∈ tokens ∧ (c.token j).parent = some i

theorem up_rightUnique (c : Code) (tokens : List Nat) : Relator.RightUnique (c.Up tokens) :=
  fun _ _ _ h h' => Option.some.inj (h.2.symm.trans h'.2)

theorem mem_roots : i ∈ c.roots tokens ↔ i ∈ tokens ∧ ∀ q, ¬c.Up tokens i q := by
  rw [roots, List.mem_filter]
  apply and_congr_right
  intro _
  cases hparent : (c.token i).parent with
  | none => simp [Up, hparent]
  | some q => simp [Up, hparent, imp_not_comm]

namespace Forest

theorem mem_of_inTree (h : c.Forest tokens) (hi : i ∈ tokens) (hij : c.InTree i j) : j ∈ tokens := by
  induction hij with
  | refl => exact hi
  | tail _ hstep ih => exact h.closed _ ih _ hstep

/-- From within a tree one comes up to its root. -/
theorem up_of_inTree (h : c.Forest tokens) (hi : i ∈ tokens) (hij : c.InTree i j) :
    Relation.ReflTransGen (c.Up tokens) j i := by
  induction hij with
  | refl => exact .refl
  | @tail q j hiq hstep ih =>
    have hq : q ∈ tokens := h.mem_of_inTree hi hiq
    exact .head ⟨hq, (h.parent_iff q hq j (h.closed q hq j hstep)).mpr hstep⟩ ih

theorem inTree_of_up (h : c.Forest tokens) (hj : j ∈ tokens)
    (hup : Relation.ReflTransGen (c.Up tokens) j i) : c.InTree i j ∧ i ∈ tokens := by
  induction hup with
  | refl => exact ⟨.refl, hj⟩
  | tail _ hstep ih => exact ⟨.head ((h.parent_iff _ hstep.1 _ ih.2).mp hstep.2) ih.1, hstep.1⟩

/-- Going up from a token, one comes to a root. -/
theorem exists_root (h : c.Forest tokens) (hi : i ∈ tokens) : ∃ r ∈ c.roots tokens, c.InTree r i := by
  let above (a b : { i // i ∈ tokens }) : Prop := Relation.TransGen (fun i j => j ∈ c.operands i) a.1 b.1
  have trans : IsTrans _ above := ⟨fun _ _ _ hab hbc => hab.trans hbc⟩
  have irrefl : Std.Irrefl above := ⟨fun a => h.acyclic a.1 a.2⟩
  have wf : WellFounded above := Finite.wellFounded_of_trans_of_irrefl above
  suffices hall : ∀ a : { i // i ∈ tokens }, ∃ r ∈ c.roots tokens, c.InTree r a.1 from hall ⟨i, hi⟩
  intro a
  induction a using wf.induction with
  | _ a ih =>
  by_cases hroot : a.1 ∈ c.roots tokens
  · exact ⟨a.1, hroot, .refl⟩
  · obtain ⟨q, hq, hparent⟩ : ∃ q, c.Up tokens a.1 q := by
      by_contra hnone
      exact hroot (mem_roots.mpr ⟨a.2, not_exists.mp hnone⟩)
    have hstep : a.1 ∈ c.operands q := (h.parent_iff q hq a.1 a.2).mp hparent
    obtain ⟨r, hr, hrq⟩ := ih ⟨q, hq⟩ (.single hstep)
    exact ⟨r, hr, hrq.tail hstep⟩

theorem root_unique (h : c.Forest tokens) {r r' : Nat} (hr : r ∈ c.roots tokens)
    (hr' : r' ∈ c.roots tokens) (hi : c.InTree r i) (hi' : c.InTree r' i) : r = r' := by
  have top : ∀ {r q : Nat}, r ∈ c.roots tokens → Relation.ReflTransGen (c.Up tokens) r q → r = q := by
    intro r q hr hup
    rcases Relation.ReflTransGen.cases_head hup with heq | ⟨q', hstep, -⟩
    · exact heq
    · exact absurd hstep ((mem_roots.mp hr).2 q')
  have hup := h.up_of_inTree (mem_roots.mp hr).1 hi
  have hup' := h.up_of_inTree (mem_roots.mp hr').1 hi'
  rcases Relation.ReflTransGen.total_of_right_unique (c.up_rightUnique tokens) hup hup' with hrr | hrr
  · exact top hr hrr
  · exact (top hr' hrr).symm

theorem operands_disjoint (h : c.Forest tokens) (hi : i ∈ tokens) {a b : Nat} (ha : a ∈ c.operands i)
    (hb : b ∈ c.operands i) (hne : a ≠ b) (hja : c.InTree a j) (hjb : c.InTree b j) : False := by
  -- going up from one of them to the other, one passes the token they are operands of
  have cycle : ∀ {a b : Nat}, a ∈ c.operands i → b ∈ c.operands i → a ≠ b →
      Relation.ReflTransGen (c.Up tokens) a b → False := by
    intro a b ha hb hne hup
    rcases Relation.ReflTransGen.cases_head hup with heq | ⟨q, hstep, hrest⟩
    · exact hne heq
    · have hparent := (h.parent_iff i hi a (h.closed i hi a ha)).mpr ha
      cases hparent.symm.trans hstep.2
      exact h.acyclic i hi (.head' hb (h.inTree_of_up hi hrest).1)
  have hup := h.up_of_inTree (h.closed i hi a ha) hja
  have hup' := h.up_of_inTree (h.closed i hi b hb) hjb
  rcases Relation.ReflTransGen.total_of_right_unique (c.up_rightUnique tokens) hup hup' with hab | hba
  · exact cycle ha hb hne hab
  · exact cycle hb ha hne.symm hba

end Forest

theorem inTree_of_mem {depth : Nat} {o : Option Nat} (hj : j ∈ (c.treeWithin depth o).positions) :
    ∃ i, o = some i ∧ c.InTree i j := by
  induction depth generalizing o with
  | zero => cases hj
  | succ depth ih =>
    cases o with
    | none => cases hj
    | some i =>
      refine ⟨i, rfl, ?_⟩
      rcases List.mem_cons.mp hj with rfl | hj
      · exact .refl
      rcases List.mem_append.mp hj with hj | hj
      · obtain ⟨k, hk, hkj⟩ := ih hj
        exact .head (mem_operands.mpr (.inl hk)) hkj
      · obtain ⟨k, hk, hkj⟩ := ih hj
        exact .head (mem_operands.mpr (.inr hk)) hkj

namespace Forest

theorem positions_nodup (h : c.Forest tokens) (depth : Nat) {o : Option Nat}
    (ho : ∀ i, o = some i → i ∈ tokens) : (c.treeWithin depth o).positions.Nodup := by
  induction depth generalizing o with
  | zero => exact List.nodup_nil
  | succ depth ih =>
    cases o with
    | none => exact List.nodup_nil
    | some i =>
      have hi : i ∈ tokens := ho i rfl
      have hleft := ih fun k hk => h.closed i hi k (mem_operands.mpr (.inl hk))
      have hright := ih fun k hk => h.closed i hi k (mem_operands.mpr (.inr hk))
      refine List.nodup_cons.mpr ⟨fun hself => ?_, List.nodup_append.mpr ⟨hleft, hright, ?_⟩⟩
      · have hdown : ∃ k ∈ c.operands i, c.InTree k i := by
          rcases List.mem_append.mp hself with hself | hself
          · obtain ⟨k, hk, hki⟩ := inTree_of_mem hself
            exact ⟨k, mem_operands.mpr (.inl hk), hki⟩
          · obtain ⟨k, hk, hki⟩ := inTree_of_mem hself
            exact ⟨k, mem_operands.mpr (.inr hk), hki⟩
        obtain ⟨k, hk, hki⟩ := hdown
        exact h.acyclic i hi (.head' hk hki)
      · rintro j hj _ hj' rfl
        obtain ⟨a, ha, haj⟩ := inTree_of_mem hj
        obtain ⟨b, hb, hbj⟩ := inTree_of_mem hj'
        have hne : a ≠ b := by
          have hdistinct := h.distinct i hi
          simp only [operands, ha, hb] at hdistinct
          simpa using hdistinct
        exact h.operands_disjoint hi (mem_operands.mpr (.inl ha)) (mem_operands.mpr (.inr hb)) hne haj hbj

/-- A position is noted no more often than the block has the root of its tree. -/
theorem count_sites_le (h : c.Forest tokens) (hr : r ∈ c.roots tokens) (hi : c.InTree r i) (s : Store) :
    ((c.runBlock tokens s).sites.map Site.pos).count i ≤ tokens.count r := by
  have hroots : ∀ x ∈ c.roots tokens, (c.tree (some x)).positions.count i ≤ [x].count r := by
    intro x hx
    by_cases hmem : i ∈ (c.tree (some x)).positions
    · obtain ⟨_, ⟨⟩, hxi⟩ := inTree_of_mem hmem
      cases h.root_unique hr hx hi hxi
      rw [List.count_singleton_self]
      apply List.nodup_iff_count_le_one.mp
      exact h.positions_nodup c.size fun _ hk => Option.some.inj hk ▸ (mem_roots.mp hx).1
    · rw [List.count_eq_zero_of_not_mem hmem]
      exact Nat.zero_le _
  exact (runBlock_notes hroots s).trans (List.filter_sublist.count_le r)

theorem count_sites_outside (h : c.Forest tokens) (hi : i ∉ tokens) (s : Store) :
    ((c.runBlock tokens s).sites.map Site.pos).count i = 0 := by
  have hroots : ∀ x ∈ c.roots tokens, (c.tree (some x)).positions.count i ≤ [x].count i := by
    intro x hx
    have hmem : i ∉ (c.tree (some x)).positions := by
      intro hmem
      obtain ⟨_, ⟨⟩, hxi⟩ := inTree_of_mem hmem
      exact hi (h.mem_of_inTree (mem_roots.mp hx).1 hxi)
    rw [List.count_eq_zero_of_not_mem hmem]
    exact Nat.zero_le _
  have hroot : (c.roots tokens).count i = 0 :=
    List.count_eq_zero_of_not_mem fun hroot => hi (mem_roots.mp hroot).1
  exact Nat.le_zero.mp ((runBlock_notes hroots s).trans hroot.le)

end Forest

/-- Let the links between the tokens of a block form a forest. Then every token is in the tree of exactly one
root. Running the block notes tokens of the block only, and a token no more often than the block has its root.
So where the block has each token once, each is noted at most once, whatever the store. -/
theorem noted_at_most_once (h : c.Forest tokens) :
    (∀ i ∈ tokens, ∃! r, r ∈ c.roots tokens ∧ c.InTree r i) ∧
    ∀ s, (∀ site ∈ (c.runBlock tokens s).sites, site.pos ∈ tokens) ∧
      (∀ r ∈ c.roots tokens, ∀ i, c.InTree r i →
        ((c.runBlock tokens s).sites.map Site.pos).count i ≤ tokens.count r) ∧
      (tokens.Nodup → ((c.runBlock tokens s).sites.map Site.pos).Nodup) := by
  have hcovers : ∀ i ∈ tokens, ∃! r, r ∈ c.roots tokens ∧ c.InTree r i := by
    intro i hi
    obtain ⟨r, hr, hri⟩ := h.exists_root hi
    exact ⟨r, ⟨hr, hri⟩, fun r' hr' => h.root_unique hr'.1 hr hr'.2 hri⟩
  refine ⟨hcovers, fun s => ?_⟩
  have hwithin : ∀ site ∈ (c.runBlock tokens s).sites, site.pos ∈ tokens := by
    intro site hsite
    by_contra hout
    exact absurd (h.count_sites_outside hout s) (List.count_pos_iff.mpr (List.mem_map_of_mem hsite)).ne'
  refine ⟨hwithin, fun r hr i hri => h.count_sites_le hr hri s, fun hnodup => ?_⟩
  apply List.nodup_iff_count_le_one.mpr
  intro i
  by_cases hi : i ∈ tokens
  · obtain ⟨r, ⟨hr, hri⟩, -⟩ := hcovers i hi
    exact (h.count_sites_le hr hri s).trans (List.nodup_iff_count_le_one.mp hnodup r)
  · rw [h.count_sites_outside hi s]
    exact Nat.zero_le 1

/-- Links that lead from higher ranks to lower ones do not come back. -/
theorem acyclic_of_rank (rank : Nat → Nat) (hclosed : ∀ i ∈ tokens, ∀ j ∈ c.operands i, j ∈ tokens)
    (hrank : ∀ i ∈ tokens, ∀ j ∈ c.operands i, rank j < rank i) :
    ∀ i ∈ tokens, ¬Relation.TransGen (fun i j => j ∈ c.operands i) i i := by
  have down : ∀ {i j : Nat}, i ∈ tokens → Relation.TransGen (fun i j => j ∈ c.operands i) i j →
      j ∈ tokens ∧ rank j < rank i := by
    intro i j hi hij
    induction hij with
    | single hstep => exact ⟨hclosed _ hi _ hstep, hrank _ hi _ hstep⟩
    | tail _ hstep ih => exact ⟨hclosed _ ih.1 _ hstep, (hrank _ ih.1 _ hstep).trans ih.2⟩
  exact fun i hi hii => Nat.lt_irrefl _ (down hi hii).2

def tested : Code := ⟨#[
  -- the tokens of `n / d ? n % e : 0; m /= d;`
  { text := "n", parent := some 1, variableKey := some (.id 1), type := some { base := .int } },
  { text := "/", left := some 0, right := some 2, parent := some 3, type := some { base := .int } },
  { text := "d", parent := some 1, variableKey := some (.id 2), type := some { base := .int } },
  { text := "?", left := some 1, right := some 7, type := some { base := .int } },
  { text := "n", parent := some 5, variableKey := some (.id 1), type := some { base := .int } },
  { text := "%", left := some 4, right := some 6, parent := some 7, type := some { base := .int } },
  { text := "e", parent := some 5, variableKey := some (.id 3), type := some { base := .int } },
  { text := ":", left := some 5, right := some 8, parent := some 3 },
  { text := "0", parent := some 7, isNumber := true, type := some { base := .int } },
  { text := ";" },
  { text := "m", parent := some 11, variableKey := some (.id 4), type := some { base := .int } },
  { text := "/=", left := some 10, right := some 12, type := some { base := .int } },
  { text := "d", parent := some 11, variableKey := some (.id 2), type := some { base := .int } },
  { text := ";" }]⟩

def testedRank (i : Nat) : Nat := [0, 1, 0, 3, 0, 1, 0, 2, 0, 0, 0, 1, 0, 0].getD i 0

/-- The condition is evaluated three times and noted once. -/
theorem noted_at_most_once_tested :
    tested.Forest (List.range 14) ∧ tested.roots (List.range 14) = [3, 9, 11, 13] ∧
    (∃! r, r ∈ tested.roots (List.range 14) ∧ tested.InTree r 6) ∧
    (tested.runBlock (List.range 14) .empty).sites.map Site.pos = [1, 5, 11] ∧
    ∀ s, ((tested.runBlock (List.range 14) s).sites.map Site.pos).Nodup := by
  have hclosed : ∀ i ∈ List.range 14, ∀ j ∈ tested.operands i, j ∈ List.range 14 := by decide
  have hforest : tested.Forest (List.range 14) :=
    ⟨hclosed, by decide, by decide, acyclic_of_rank testedRank hclosed (by decide)⟩
  obtain ⟨hcovers, hnoted⟩ := noted_at_most_once hforest
  exact ⟨hforest, rfl, hcovers 6 (by decide), rfl, fun s => (hnoted s).2.2 (by decide)⟩

end Code

end SignFlow

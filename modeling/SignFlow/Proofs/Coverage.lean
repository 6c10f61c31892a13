import SignFlow.Proofs.Reach
import SignFlow.Proofs.Straight

/-! Which parts of a body without jumps are reached from the entry of its graph.

A loop without a condition, which a loop over a range is taken for, has no way out. What is behind it can
then be reached only in another way, and `marks` says for every position whether there is one. -/

namespace SignFlow

namespace Stmts

/-- Control that gets to the statements also gets behind them. -/
def passes : Stmts → Bool
  | .token _ rest | .label _ rest | .ifThen _ _ rest | .whileDo _ _ rest => rest.passes
  | .block inner rest | .doWhile inner _ rest => inner.passes && rest.passes
  | .ifElse _ yes no rest => (yes.passes || no.passes) && rest.passes
  | .forDo _ test _ _ rest => !test.isEmpty && rest.passes
  | _ => true

/-- The positions that the statements hold, each with whether control gets there. -/
def marks (alive : Bool) : Stmts → List (Nat × Bool)
  | .token pos rest => (pos, alive) :: rest.marks alive
  | .label _ rest => rest.marks alive
  | .block inner rest => inner.marks alive ++ rest.marks (alive && inner.passes)
  | .ifThen test yes rest => test.map (·, alive) ++ (yes.marks alive ++ rest.marks alive)
  | .ifElse test yes no rest =>
    test.map (·, alive) ++ (yes.marks alive ++ (no.marks alive ++
      rest.marks (alive && (yes.passes || no.passes))))
  | .whileDo test inner rest => test.map (·, alive) ++ (inner.marks alive ++ rest.marks alive)
  | .doWhile inner test rest =>
    inner.marks alive ++ (test.map (·, alive && inner.passes) ++ rest.marks (alive && inner.passes))
  | .forDo init test step inner rest =>
    init.map (·, alive) ++ (test.map (·, alive) ++ (step.map (·, alive && inner.passes) ++
      (inner.marks alive ++ rest.marks (alive && !test.isEmpty))))
  | _ => []

/-- Every loop with a header has a condition. -/
def tested : Stmts → Bool
  | .token _ rest | .label _ rest => rest.tested
  | .block inner rest | .ifThen _ inner rest | .whileDo _ inner rest | .doWhile inner _ rest =>
    inner.tested && rest.tested
  | .ifElse _ yes no rest => yes.tested && no.tested && rest.tested
  | .forDo _ test _ inner rest => !test.isEmpty && inner.tested && rest.tested
  | _ => true

theorem map_fst_marked (tokens : List Nat) (alive : Bool) :
    (tokens.map (·, alive)).map Prod.fst = tokens := by
  rw [List.map_map]
  exact List.map_id tokens

theorem marks_fst (s : Stmts) (h : s.jumpless = true) (alive : Bool) :
    (s.marks alive).map Prod.fst = s.positions true := by
  fun_induction marks alive s with
  | case1 alive pos rest ih => exact congrArg (pos :: ·) (ih h)
  | case2 alive name rest ih => exact ih h
  | case3 alive inner rest ihinner ih =>
    obtain ⟨hinner, hrest⟩ := Bool.and_eq_true_iff.mp h
    rw [List.map_append, ihinner hinner, ih hrest, positions]
  | case4 alive test inner rest ihinner ih | case6 alive test inner rest ihinner ih =>
    obtain ⟨hinner, hrest⟩ := Bool.and_eq_true_iff.mp h
    rw [List.map_append, List.map_append, map_fst_marked, ihinner hinner, ih hrest, positions]
  | case5 alive test yes no rest ihyes ihno ih =>
    obtain ⟨hboth, hrest⟩ := Bool.and_eq_true_iff.mp h
    obtain ⟨hyes, hno⟩ := Bool.and_eq_true_iff.mp hboth
    rw [List.map_append, List.map_append, List.map_append, map_fst_marked, ihyes hyes, ihno hno, ih hrest,
      positions]
  | case7 alive inner test rest ihinner ih =>
    obtain ⟨hinner, hrest⟩ := Bool.and_eq_true_iff.mp h
    rw [List.map_append, List.map_append, map_fst_marked, ihinner hinner, ih hrest, positions]
  | case8 alive init test step inner rest ihinner ih =>
    obtain ⟨hinner, hrest⟩ := Bool.and_eq_true_iff.mp h
    simp only [List.map_append, map_fst_marked, ihinner hinner, ih hrest, positions]
  | case9 s => cases s <;> simp_all [jumpless, positions]

theorem tested_passes (s : Stmts) (h : s.tested = true) : s.passes = true := by
  fun_induction passes s with
  | _ => simp_all [tested]

theorem tested_marks (s : Stmts) (h : s.tested = true) : ∀ x ∈ s.marks true, x.2 = true := by
  fun_induction tested s with
  | case1 pos rest ih => simpa [marks] using ih h
  | case2 _ _ ih => exact ih h
  | case3 | case4 | case5 | case6 | case7 => simp_all [marks, tested_passes, or_imp, forall_and]
  | case8 init test step inner rest ihinner ih =>
    obtain ⟨hboth, hrest⟩ := Bool.and_eq_true_iff.mp h
    obtain ⟨htest, hinner⟩ := Bool.and_eq_true_iff.mp hboth
    intro x hx
    simp only [marks, Bool.true_and, tested_passes inner hinner, htest, List.mem_append, List.mem_map] at hx
    rcases hx with ⟨_, -, rfl⟩ | ⟨_, -, rfl⟩ | ⟨_, -, rfl⟩ | hx | hx
    · rfl
    · rfl
    · rfl
    · exact ihinner hinner x hx
    · exact ih hrest x hx
  | case9 s _ _ _ _ _ _ hifElse hfor =>
    cases s with
    | ifElse => exact absurd rfl (hifElse _ _ _ _)
    | forDo => exact absurd rfl (hfor _ _ _ _ _)
    | _ => simp_all [marks]

end Stmts

namespace Layout

/-- Control gets from the entry to the live blocks, those that are owed apart, and to no others; tokens
are in blocks as they are marked. -/
structure Flow (l : Layout) (live : Nat → Bool) (owed : List Nat) (marks : List (Nat × Bool)) : Prop where
  entry : live Graph.entry = true
  gotos : l.gotos = []
  edges : ∀ e ∈ l.graph.edges, e.src < l.size ∧ e.dst < l.size ∧ (live e.src = true → live e.dst = true)
  reached : ∀ b < l.size, live b = true → b ∉ owed → l.graph.Reaches Graph.entry b
  owed_lt : ∀ b ∈ owed, b < l.size
  tokens : ∀ b < l.size, ∀ pos ∈ (l.graph.block b).tokens, (pos, live b) ∈ marks

namespace Flow

variable {l : Layout} {live live' : Nat → Bool} {owed owed' : List Nat} {marks : List (Nat × Bool)}
  {b d : Nat}

theorem congr (h : Flow l live owed marks) (hpos : 0 < l.size) (hlive : ∀ b < l.size, live' b = live b) :
    Flow l live' owed marks := by
  refine ⟨(hlive _ hpos).trans h.entry, h.gotos, fun e he => ?_, fun b hb => ?_, h.owed_lt, fun b hb => ?_⟩
  · obtain ⟨hs, hd, himp⟩ := h.edges e he
    rw [hlive _ hs, hlive _ hd]
    exact ⟨hs, hd, himp⟩
  · rw [hlive b hb]
    exact h.reached b hb
  · rw [hlive b hb]
    exact h.tokens b hb

theorem add (h : Flow l live owed marks) (kind : BlockKind) {n : Nat} (hn : l.size = n) :
    Flow (l.add kind) live (n :: owed) marks := by
  subst hn
  have hlt : ∀ {b}, b < l.size → b < (l.add kind).size := fun hb => by rw [size_add]; omega
  refine ⟨h.entry, h.gotos, ?_, ?_, ?_, ?_⟩
  · intro e he
    obtain ⟨hs, hd, himp⟩ := h.edges e he
    exact ⟨hlt hs, hlt hd, himp⟩
  · intro b hb hlive ho
    rw [List.mem_cons, not_or] at ho
    rw [size_add] at hb
    exact h.reached b (by omega) hlive ho.2
  · intro b hb
    rcases List.mem_cons.mp hb with rfl | hb
    · simp
    · exact hlt (h.owed_lt b hb)
  · intro b hb pos hpos
    rcases (Nat.lt_succ_iff_lt_or_eq.mp (size_add ▸ hb)) with hb | rfl
    · rw [block_add hb] at hpos
      exact h.tokens b hb pos hpos
    · rw [block_add_self] at hpos
      cases hpos

theorem wire (h : Flow l live owed marks) (b d : Nat) (way : EdgeKind) (hb : b < l.size) (hd : d < l.size)
    (hlive : live b = true → live d = true) : Flow (l.wire b d way) live owed marks := by
  refine ⟨h.entry, h.gotos, ?_, ?_, h.owed_lt, h.tokens⟩
  · intro e he
    rcases List.mem_append.mp he with he | he
    · exact h.edges e he
    · rw [List.mem_singleton.mp he]
      exact ⟨hb, hd, hlive⟩
  · intro b hb hl ho
    exact (h.reached b hb hl ho).mono fun e he => List.mem_append_left _ he

theorem back (h : Flow l live owed marks) (b d : Nat) (way : EdgeKind) (hb : b < l.size) (hd : d < l.size)
    {passes : Bool} (hlive : live b = (live d && passes)) : Flow (l.wire b d way) live owed marks :=
  h.wire b d way hb hd fun hl => (Bool.and_eq_true_iff.mp (hlive.symm.trans hl)).1

/-- A block is no longer owed once an edge leads to it from a block that is reached. -/
theorem settle (p : List Nat) (h : Flow l live (p ++ d :: owed) marks)
    (hpaid : live d = true → ∃ e ∈ l.graph.edges, e.dst = d ∧ live e.src = true ∧ e.src ∉ p ++ d :: owed) :
    Flow l live (p ++ owed) marks := by
  refine ⟨h.entry, h.gotos, h.edges, ?_, fun b hb => h.owed_lt b ?_, h.tokens⟩
  · intro b hb hl ho
    by_cases hbd : b = d
    · subst hbd
      obtain ⟨e, he, rfl, hsrc, hfree⟩ := hpaid hl
      exact (h.reached e.src (h.edges e he).1 hsrc hfree).tail ⟨e, he, rfl, rfl⟩
    · refine h.reached b hb hl fun hm => ho ?_
      simpa [hbd] using hm
  · simp only [List.mem_append, List.mem_cons] at hb ⊢
    tauto

theorem fill (h : Flow l live owed marks) (b : Nat) (tokens : List Nat) (hb : b < l.size)
    (htokens : ∀ x ∈ tokens.map (·, live b), x ∈ marks) : Flow (l.fill b tokens) live owed marks := by
  refine ⟨h.entry, h.gotos, ?_, ?_, ?_, ?_⟩
  · rw [size_fill]
    exact h.edges
  · rw [size_fill]
    exact h.reached
  · rw [size_fill]
    exact h.owed_lt
  · intro c hc pos hpos
    rw [size_fill] at hc
    by_cases hbc : b = c
    · subst hbc
      rw [Layout.fill, block_change hb] at hpos
      rcases List.mem_append.mp hpos with hpos | hpos
      · exact h.tokens b hb pos hpos
      · exact htokens _ (List.mem_map_of_mem hpos)
    · rw [Layout.fill, block_change_of_ne hbc] at hpos
      exact h.tokens c hc pos hpos

theorem aside (h : Flow l live owed marks) (kind : BlockKind) (tokens : List Nat) {n : Nat}
    (hn : l.size = n) (htokens : ∀ x ∈ tokens.map (·, live n), x ∈ marks) :
    Flow (l.behind none kind tokens) live (n :: owed) marks := by
  subst hn
  exact (h.add kind rfl).fill l.size tokens (by simp) htokens

/-- An edge pays for the block it leads to, where the one it leaves is reached just if the other is live. -/
theorem link (p : List Nat) (h : Flow l live (p ++ d :: owed) marks) (b : Nat) (way : EdgeKind)
    (hb : b < l.size) (hfree : b ∉ p ++ d :: owed) (hlive : live d = live b) :
    Flow (l.wire b d way) live (p ++ owed) marks := by
  have hd : d < l.size := h.owed_lt d (by simp)
  refine (h.wire b d way hb hd fun hl => hlive.trans hl).settle p fun hl => ?_
  exact ⟨⟨b, d, way, none⟩, by simp [Layout.wire, Graph.addEdge], rfl, hlive.symm.trans hl, hfree⟩

theorem meet (h : Flow l live (d :: owed) marks) (a b : Nat) (way way' : EdgeKind) (ha : a < l.size)
    (hb : b < l.size) (hafree : a ∉ d :: owed) (hbfree : b ∉ d :: owed)
    (hlive : live d = (live a || live b)) : Flow ((l.wire a d way).wire b d way') live owed marks := by
  have hd : d < l.size := h.owed_lt d List.mem_cons_self
  have hboth := (h.wire a d way ha hd fun hl => by rw [hlive, hl, Bool.true_or]).wire b d way' hb hd
    fun hl => by rw [hlive, hl, Bool.or_true]
  refine hboth.settle [] fun hl => ?_
  rcases Bool.or_eq_true_iff.mp (hlive.symm.trans hl) with hl | hl
  · exact ⟨⟨a, d, way, none⟩, by simp [Layout.wire, Graph.addEdge], rfl, hl, hafree⟩
  · exact ⟨⟨b, d, way', none⟩, by simp [Layout.wire, Graph.addEdge], rfl, hl, hbfree⟩

/-- A loop's condition leads into the body, and behind the loop if there is one. -/
theorem branch {body after : Nat} (h : Flow l live (body :: after :: owed) marks) (test : List Nat)
    (b : Nat) (hb : b < l.size) (hfree : b ∉ body :: after :: owed) (hbody : live body = live b)
    (hafter : live after = (live b && !test.isEmpty)) :
    Flow (l.branch test b body after) live owed marks := by
  have hrest : b ∉ after :: owed := fun hm => hfree (List.mem_cons_of_mem _ hm)
  unfold Layout.branch
  split
  · next htest =>
    refine (h.link [] b .fallThrough hb hfree hbody).settle [] fun hl => ?_
    simp [hafter, htest] at hl
  · next htest =>
    have hlive : live after = live b := by simp [hafter, htest]
    exact (h.link [] b .branchTrue hb hfree hbody).link [] b .branchFalse hb hrest hlive

end Flow

/-- The flow has come to a block, which control gets to or not. -/
structure Stands (l : Layout) (live : Nat → Bool) (owed : List Nat) (marks : List (Nat × Bool)) (c : Nat)
    (alive : Bool) : Prop extends Flow l live owed marks where
  lt : c < l.size
  free : c ∉ owed
  here : live c = alive

/-- Which blocks are live once there are more than so many: the new ones by their number among the new. -/
def grow (live : Nat → Bool) (size : Nat) (new : Nat → Bool) : Nat → Bool :=
  fun b => if b < size then live b else new (b - size)

theorem grow_old {live new : Nat → Bool} {size b : Nat} (h : b < size) : grow live size new b = live b :=
  if_pos h

theorem grow_first {live new : Nat → Bool} {size : Nat} : grow live size new size = new 0 := by
  simp [grow]

theorem grow_new {live new : Nat → Bool} {size k : Nat} : grow live size new (size + k) = new k := by
  simp [grow]

namespace Stands

variable {l : Layout} {live : Nat → Bool} {owed : List Nat} {marks : List (Nat × Bool)} {b c n : Nat}
  {alive : Bool}

theorem grow (h : Stands l live owed marks c alive) (new : Nat → Bool) :
    Stands l (grow live l.size new) owed marks c alive :=
  ⟨h.toFlow.congr (Nat.zero_lt_of_lt h.lt) fun _ => grow_old, h.lt, h.free, (grow_old h.lt).trans h.here⟩

theorem not_owed (h : Stands l live owed marks c alive) (hn : l.size ≤ n) : n ∉ owed := fun hm =>
  absurd (h.owed_lt n hm) (Nat.not_lt.mpr hn)

theorem move (h : Stands l live owed marks c alive) (hb : b < l.size) (hfree : b ∉ owed) :
    Stands l live owed marks b (live b) := ⟨h.toFlow, hb, hfree, rfl⟩

theorem fill (h : Stands l live owed marks c alive) (tokens : List Nat)
    (htokens : ∀ x ∈ tokens.map (·, alive), x ∈ marks) :
    Stands (l.fill c tokens) live owed marks c alive :=
  ⟨h.toFlow.fill c tokens h.lt (h.here.symm ▸ htokens), by rw [size_fill]; exact h.lt, h.free, h.here⟩

theorem onward (h : Stands l live owed marks c alive) (kind : BlockKind) (way : EdgeKind)
    (hn : l.size = n) (hlive : live n = alive) :
    Stands ((l.add kind).wire c n way) live owed marks n alive := by
  subst hn
  have hfree : c ∉ l.size :: owed := fun hm => (List.mem_cons.mp hm).elim (Nat.ne_of_lt h.lt) h.free
  have hc : c < (l.add kind).size := by
    rw [size_add]
    exact Nat.lt_succ_of_lt h.lt
  refine ⟨(h.toFlow.add kind rfl).link [] c way hc hfree (hlive.trans h.here.symm), ?_, ?_, hlive⟩
  · simp
  · exact h.not_owed le_rfl

theorem behind (h : Stands l live owed marks c alive) (kind : BlockKind) (tokens : List Nat)
    (hn : l.size = n) (hlive : live n = alive) (htokens : ∀ x ∈ tokens.map (·, alive), x ∈ marks) :
    Stands (l.behind (some c) kind tokens) live owed marks n alive := by
  subst hn
  exact (h.onward kind .fallThrough rfl hlive).fill tokens htokens

theorem mark (h : Stands l live owed marks c alive) (name : String) (n : Nat) :
    Stands (l.mark name n) live owed marks c alive :=
  ⟨⟨h.entry, h.gotos, h.edges, h.reached, h.owed_lt, h.tokens⟩, h.lt, h.free, h.here⟩

theorem merge (h : Stands l live owed marks c alive) (kind : BlockKind) (way way' : EdgeKind)
    (hb : b < l.size) (hfree : b ∉ owed) (hlive : live l.size = (live b || alive)) :
    Stands (((l.add kind).wire b l.size way).wire c l.size way') live owed marks l.size
      (live b || alive) := by
  have hnew : ∀ a < l.size, a ∉ owed → a ∉ l.size :: owed := fun a ha ho hm =>
    (List.mem_cons.mp hm).elim (Nat.ne_of_lt ha) ho
  have hlt : ∀ a < l.size, a < (l.add kind).size := fun a ha => by rw [size_add]; exact Nat.lt_succ_of_lt ha
  refine ⟨(h.toFlow.add kind rfl).meet b c way way' (hlt b hb) (hlt c h.lt) (hnew b hb hfree)
    (hnew c h.lt h.free) (by rw [h.here, hlive]), ?_, ?_, hlive⟩
  · simp
  · exact h.not_owed le_rfl

end Stands

/-- Statements without jumps lead from a block on to another, which control gets to if they pass it on. -/
def Flows (s : Stmts) (current : Option Nat) (l : Layout) (last : Option Nat) (l' : Layout) : Prop :=
  s.jumpless = true → ∀ c live owed marks alive, current = some c → (∀ x ∈ s.marks alive, x ∈ marks) →
    Stands l live owed marks c alive →
    ∃ c' live', last = some c' ∧ (∀ b < l.size, live' b = live b) ∧
      Stands l' live' owed marks c' (alive && s.passes)

namespace Flows

variable {inner yes no rest : Stmts} {test : List Nat} {current middle other last : Option Nat}
  {l l₁ l₂ l' : Layout}

theorem token {pos : Nat} (hrest : Flows rest (some (current.getD l.size))
    ((l.ensure current).fill (current.getD l.size) [pos]) last l') :
    Flows (.token pos rest) current l last l' := by
  rintro hj c live owed marks alive rfl hm hs
  have hpos : ∀ x ∈ [pos].map (·, alive), x ∈ marks := fun x hx => hm x (by simp_all [Stmts.marks])
  obtain ⟨c', live', rfl, hold, hs'⟩ := hrest hj c live owed marks alive rfl
    (fun x hx => hm x (List.mem_cons_of_mem _ hx)) (hs.fill [pos] hpos)
  exact ⟨c', live', rfl, fun b hb => hold b (by simpa [ensure] using hb), hs'⟩

theorem label {name : String}
    (hrest : Flows rest (some l.size) ((l.behind current .label).mark name l.size) last l') :
    Flows (.label name rest) current l last l' := by
  rintro hj c live owed marks alive rfl hm hs
  have hbehind := (hs.grow fun _ => alive).behind .label [] rfl grow_first
    fun _ hx => absurd hx List.not_mem_nil
  obtain ⟨c', live', rfl, hold, hs'⟩ := hrest hj _ _ owed marks alive rfl hm (hbehind.mark name l.size)
  simp only [size_mark, size_behind] at hold
  exact ⟨c', live', rfl, fun b hb => (hold b (by omega)).trans (grow_old hb), hs'⟩

theorem block (hle : l.size ≤ l₁.size) (hinner : Flows inner current l middle l₁)
    (hrest : Flows rest middle l₁ last l') : Flows (.block inner rest) current l last l' := by
  rintro hj c live owed marks alive rfl hm hs
  obtain ⟨hji, hjr⟩ := Bool.and_eq_true_iff.mp hj
  obtain ⟨c₁, live₁, rfl, hold₁, hs₁⟩ := hinner hji c live owed marks alive rfl
    (fun x hx => hm x (List.mem_append_left _ hx)) hs
  obtain ⟨c', live', rfl, hold, hs'⟩ := hrest hjr c₁ live₁ owed marks _ rfl
    (fun x hx => hm x (List.mem_append_right _ hx)) hs₁
  refine ⟨c', live', rfl, fun b hb => ?_, ?_⟩
  · exact (hold b (hb.trans_le hle)).trans (hold₁ b hb)
  · rwa [Bool.and_assoc] at hs'

theorem branch {c : Nat} {live : Nat → Bool} {owed : List Nat} {marks : List (Nat × Bool)} {alive : Bool}
    (hyes : Flows yes (some (l.size + 1))
      (((l.behind (some c) .ifCond test).add .ifTrue).wire l.size (l.size + 1) .branchTrue) middle l₁)
    (hj : yes.jumpless = true) (htest : ∀ x ∈ test.map (·, alive), x ∈ marks)
    (hm : ∀ x ∈ yes.marks alive, x ∈ marks) (hs : Stands l live owed marks c alive) :
    ∃ c₁ live₁, middle = some c₁ ∧ (∀ b < l.size, live₁ b = live b) ∧ live₁ l.size = alive ∧
      Stands l₁ live₁ owed marks c₁ (alive && yes.passes) := by
  have hcond := (hs.grow fun _ => alive).behind .ifCond test rfl grow_first htest
  have hbody := hcond.onward .ifTrue .branchTrue size_behind grow_new
  obtain ⟨c₁, live₁, rfl, hold, hs₁⟩ := hyes hj _ _ owed marks alive rfl hm hbody
  simp only [size_wire, size_add, size_behind] at hold
  refine ⟨c₁, live₁, rfl, fun b hb => ?_, (hold _ (by omega)).trans grow_first, hs₁⟩
  exact (hold b (by omega)).trans (grow_old hb)

theorem ifThen (hle : l.size + 2 ≤ l₁.size)
    (hyes : Flows yes (some (l.size + 1))
      (((l.behind current .ifCond test).add .ifTrue).wire l.size (l.size + 1) .branchTrue) middle l₁)
    (hrest : Flows rest (some l₁.size)
      (((l₁.add .ifMerge).wire l.size l₁.size .branchFalse).lead middle l₁.size) last l') :
    Flows (.ifThen test yes rest) current l last l' := by
  rintro hj c live owed marks alive rfl hm hs
  obtain ⟨hjy, hjr⟩ := Bool.and_eq_true_iff.mp hj
  simp only [Stmts.marks, List.mem_append] at hm
  obtain ⟨c₁, live₁, rfl, hold₁, hlive, hs₁⟩ := hyes.branch hjy (fun x hx => hm x (.inl hx))
    (fun x hx => hm x (.inr (.inl hx))) hs
  have hlive' : grow live₁ l₁.size (fun _ => alive) l.size = alive := (grow_old (by omega)).trans hlive
  have hmerge := (hs₁.grow fun _ => alive).merge .ifMerge .branchFalse .fallThrough (b := l.size)
    (by omega) (hs.not_owed le_rfl) (by rw [hlive', grow_first]; cases alive <;> rfl)
  rw [hlive', show (alive || (alive && yes.passes)) = alive by cases alive <;> rfl] at hmerge
  obtain ⟨c', live', rfl, hold, hs'⟩ := hrest hjr _ _ owed marks alive rfl
    (fun x hx => hm x (.inr (.inr hx))) hmerge
  simp only [size_lead, size_wire, size_add] at hold
  refine ⟨c', live', rfl, fun b hb => ?_, hs'⟩
  rw [hold b (by omega), grow_old (by omega), hold₁ b hb]

theorem ifElse (hle₁ : l.size + 2 ≤ l₁.size) (hle₂ : l₁.size + 1 ≤ l₂.size)
    (hyes : Flows yes (some (l.size + 1))
      (((l.behind current .ifCond test).add .ifTrue).wire l.size (l.size + 1) .branchTrue) middle l₁)
    (hno : Flows no (some l₁.size) ((l₁.add .ifFalse).wire l.size l₁.size .branchFalse) other l₂)
    (hrest : Flows rest (if middle.isNone && other.isNone then none else some l₂.size)
      (((l₂.add .ifMerge).lead middle l₂.size).lead other l₂.size) last l') :
    Flows (.ifElse test yes no rest) current l last l' := by
  rintro hj c live owed marks alive rfl hm hs
  obtain ⟨hjb, hjr⟩ := Bool.and_eq_true_iff.mp hj
  obtain ⟨hjy, hjn⟩ := Bool.and_eq_true_iff.mp hjb
  simp only [Stmts.marks, List.mem_append] at hm
  obtain ⟨c₁, live₁, rfl, hold₁, hlive, hs₁⟩ := hyes.branch hjy (fun x hx => hm x (.inl hx))
    (fun x hx => hm x (.inr (.inl hx))) hs
  have hfalse := ((hs₁.move (b := l.size) (by omega) (hs.not_owed le_rfl)).grow fun _ => alive).onward
    .ifFalse .branchFalse rfl (grow_first.trans hlive.symm)
  rw [hlive] at hfalse
  obtain ⟨c₂, live₂, rfl, hold₂, hs₂⟩ := hno hjn _ _ owed marks alive rfl
    (fun x hx => hm x (.inr (.inr (.inl hx)))) hfalse
  simp only [size_wire, size_add] at hold₂
  have hlt := hs₁.lt
  have hlive₂ : grow live₂ l₂.size (fun _ => alive && (yes.passes || no.passes)) c₁ =
      (alive && yes.passes) := by
    rw [grow_old (by omega), hold₂ c₁ (by omega), grow_old hs₁.lt, hs₁.here]
  have hmerge := (hs₂.grow fun _ => alive && (yes.passes || no.passes)).merge .ifMerge .fallThrough
    .fallThrough (b := c₁) (by omega) hs₁.free
    (by rw [hlive₂, grow_first, Bool.and_or_distrib_left])
  rw [hlive₂, ← Bool.and_or_distrib_left] at hmerge
  obtain ⟨c', live', rfl, hold, hs'⟩ := hrest hjr _ _ owed marks _ rfl
    (fun x hx => hm x (.inr (.inr (.inr hx)))) hmerge
  simp only [size_lead, size_add] at hold
  refine ⟨c', live', rfl, fun b hb => ?_, by rwa [Bool.and_assoc] at hs'⟩
  rw [hold b (by omega), grow_old (by omega), hold₂ b (by omega), grow_old (by omega),
    hold₁ b hb]

theorem whileDo (hle : l.size + 3 ≤ l₁.size)
    (hinner : Flows inner (some (l.size + 2))
      (((((l.behind current .loopCond test).add .whileAfter).add .loopBody).wire l.size (l.size + 2)
        .branchTrue).wire l.size (l.size + 1) .branchFalse) middle l₁)
    (hrest : Flows rest (some (l.size + 1)) (l₁.lead middle l.size .backEdge) last l') :
    Flows (.whileDo test inner rest) current l last l' := by
  rintro hj c live owed marks alive rfl hm hs
  obtain ⟨hji, hjr⟩ := Bool.and_eq_true_iff.mp hj
  simp only [Stmts.marks, List.mem_append] at hm
  have hnew : ∀ k, l.size + k ∉ owed := fun k => hs.not_owed (Nat.le_add_right _ k)
  have hcond := (hs.grow fun _ => alive).behind .loopCond test rfl grow_first fun x hx => hm x (.inl hx)
  have hadd := (hcond.toFlow.add .whileAfter size_behind).add .loopBody (n := l.size + 2) (by simp)
  have hways := (hadd.link [] l.size .branchTrue (by simp; omega) (by simp [hcond.free])
    (by rw [grow_new, grow_first])).link [] l.size .branchFalse (by simp; omega) (by simp [hcond.free])
    (by rw [grow_new, grow_first])
  obtain ⟨c₁, live₁, rfl, hold₁, hs₁⟩ := hinner hji (l.size + 2) _ owed marks alive rfl
    (fun x hx => hm x (.inr (.inl hx))) ⟨hways, by simp, hnew 2, grow_new⟩
  simp only [size_wire, size_add, size_behind] at hold₁
  have hlive : live₁ l.size = alive := (hold₁ _ (by omega)).trans grow_first
  have hback := hs₁.toFlow.back c₁ l.size .backEdge hs₁.lt (by omega) (by rw [hs₁.here, hlive])
  obtain ⟨c', live', rfl, hold, hs'⟩ := hrest hjr (l.size + 1) _ owed marks alive rfl
    (fun x hx => hm x (.inr (.inr hx)))
    ⟨hback, by rw [size_lead]; omega, hnew 1, (hold₁ _ (by omega)).trans grow_new⟩
  refine ⟨c', live', rfl, fun b hb => ?_, hs'⟩
  rw [hold b (by rw [size_lead]; omega), hold₁ b (by omega), grow_old hb]

theorem doWhile (hle : l.size + 3 ≤ l₁.size)
    (hinner : Flows inner (some l.size) (((l.behind current .loopBody).add .loopCond).add .doAfter)
      middle l₁)
    (hrest : Flows rest (some (l.size + 2))
      ((((l₁.lead middle (l.size + 1)).fill (l.size + 1) test).wire (l.size + 1) l.size
        .branchTrue).wire (l.size + 1) (l.size + 2) .branchFalse) last l') :
    Flows (.doWhile inner test rest) current l last l' := by
  rintro hj c live owed marks alive rfl hm hs
  obtain ⟨hji, hjr⟩ := Bool.and_eq_true_iff.mp hj
  simp only [Stmts.marks, List.mem_append] at hm
  have hnew : ∀ k, l.size + k ∉ owed := fun k => hs.not_owed (Nat.le_add_right _ k)
  -- the condition and what follows it are reached if the body passes control on
  have hbody := (hs.grow fun k => if k = 0 then alive else alive && inner.passes).behind .loopBody [] rfl
    grow_first fun _ hx => absurd hx List.not_mem_nil
  have hadd := (hbody.toFlow.add .loopCond size_behind).add .doAfter (n := l.size + 2) (by simp)
  obtain ⟨c₁, live₁, rfl, hold₁, hs₁⟩ := hinner hji l.size _ _ marks alive rfl
    (fun x hx => hm x (.inl hx)) ⟨hadd, by simp; omega, by simp [hbody.free], grow_first⟩
  simp only [size_add, size_behind] at hold₁
  have hlive : live₁ l.size = alive := (hold₁ _ (by omega)).trans grow_first
  have hlive₁ : live₁ (l.size + 1) = (alive && inner.passes) := (hold₁ _ (by omega)).trans grow_new
  have hlive₂ : live₁ (l.size + 2) = (alive && inner.passes) := (hold₁ _ (by omega)).trans grow_new
  have hcond := (hs₁.toFlow.link [_] c₁ .fallThrough hs₁.lt hs₁.free (hlive₁.trans hs₁.here.symm)).fill
    (l.size + 1) test (by rw [size_wire]; omega) fun x hx => hm x (.inr (.inl (hlive₁ ▸ hx)))
  have hways := (hcond.back (l.size + 1) l.size .branchTrue (by simp; omega) (by simp; omega)
    (by rw [hlive₁, hlive])).link [] (l.size + 1) .branchFalse (by simp; omega) (by simp [hnew 1])
    (hlive₂.trans hlive₁.symm)
  obtain ⟨c', live', rfl, hold, hs'⟩ := hrest hjr (l.size + 2) _ owed marks _ rfl
    (fun x hx => hm x (.inr (.inr hx))) ⟨hways, by simp; omega, hnew 2, hlive₂⟩
  refine ⟨c', live', rfl, fun b hb => ?_, by rwa [Bool.and_assoc] at hs'⟩
  rw [hold b (by simp; omega), hold₁ b (by omega), grow_old hb]

theorem forDo {init step : List Nat} (hle : l.size + 5 ≤ l₁.size)
    (hinner : Flows inner (some (l.size + 4))
      ((((((l.behind current .forInit init).behind (some l.size) .loopCond test).behind none .forStep
        step).add .forAfter).add .loopBody).branch test (l.size + 1) (l.size + 4) (l.size + 3)) middle l₁)
    (hrest : Flows rest (some (l.size + 3))
      ((l₁.lead middle (l.size + 2)).wire (l.size + 2) (l.size + 1) .backEdge) last l') :
    Flows (.forDo init test step inner rest) current l last l' := by
  rintro hj c live owed marks alive rfl hm hs
  obtain ⟨hji, hjr⟩ := Bool.and_eq_true_iff.mp hj
  simp only [Stmts.marks, List.mem_append] at hm
  have hnew : ∀ k, l.size + k ∉ owed := fun k => hs.not_owed (Nat.le_add_right _ k)
  -- the step is reached if the body passes control on, what follows the loop if there is a condition
  have hinit := (hs.grow fun k => if k = 2 then alive && inner.passes else
    if k = 3 then alive && !test.isEmpty else alive).behind .forInit init rfl grow_first
    fun x hx => hm x (.inl hx)
  have hcond := hinit.behind .loopCond test size_behind grow_new fun x hx => hm x (.inr (.inl hx))
  have hstep := hcond.toFlow.aside .forStep step (n := l.size + 2) (by simp)
    fun x hx => hm x (.inr (.inr (.inl (by rwa [grow_new] at hx))))
  have hadd := (hstep.add .forAfter (n := l.size + 3) (by simp)).add .loopBody (n := l.size + 4) (by simp)
  have hways := hadd.branch test (l.size + 1) (by simp) (by simp [hnew 1])
    (by rw [grow_new, grow_new]; rfl) (by rw [grow_new, grow_new]; rfl)
  obtain ⟨c₁, live₁, rfl, hold₁, hs₁⟩ := hinner hji (l.size + 4) _ _ marks alive rfl
    (fun x hx => hm x (.inr (.inr (.inr (.inl hx))))) ⟨hways, by simp, by simp [hnew 4], grow_new⟩
  simp only [size_branch, size_add, size_behind] at hold₁
  have hlive₁ : live₁ (l.size + 1) = alive := (hold₁ _ (by omega)).trans grow_new
  have hlive₂ : live₁ (l.size + 2) = (alive && inner.passes) := (hold₁ _ (by omega)).trans grow_new
  have hlive₃ : live₁ (l.size + 3) = (alive && !test.isEmpty) := (hold₁ _ (by omega)).trans grow_new
  have hback := (hs₁.toFlow.link [] c₁ .fallThrough hs₁.lt hs₁.free (hlive₂.trans hs₁.here.symm)).back
    (l.size + 2) (l.size + 1) .backEdge (by rw [size_wire]; omega) (by rw [size_wire]; omega)
    (by rw [hlive₂, hlive₁])
  obtain ⟨c', live', rfl, hold, hs'⟩ := hrest hjr (l.size + 3) _ owed marks _ rfl
    (fun x hx => hm x (.inr (.inr (.inr (.inr hx))))) ⟨hback, by simp; omega, hnew 3, hlive₃⟩
  refine ⟨c', live', rfl, fun b hb => ?_, by rwa [Bool.and_assoc] at hs'⟩
  rw [hold b (by simp; omega), hold₁ b (by omega), grow_old hb]

end Flows

def Job.Flows : Job → Option Nat → Layout → Option Nat → Layout → Prop
  | .stmts s _ => Layout.Flows s
  | .arms _ _ _ => fun _ _ _ _ => True

theorem Makes.flows {job : Job} {current last : Option Nat} {l l' : Layout}
    (h : Makes job current l last l') : job.Flows current l last l' := by
  induction h with
  | returnsHere | returnsBehind | leave | next | goto | ifOnly | switch | bareSwitch =>
    exact fun h => absurd h Bool.false_ne_true
  | armsDone | armsCase | armsDefault | armsStmts => trivial
  | done =>
    rintro - c live owed marks alive rfl - hs
    exact ⟨c, live, rfl, fun _ _ => rfl, by simpa [Stmts.passes] using hs⟩
  | token _ ih => exact .token ih
  | label _ ih => exact .label ih
  | block hinner _ ihinner ih => exact .block hinner.size_le ihinner ih
  | ifThen hyes _ ihyes ih =>
    have hle := hyes.size_le
    simp only [size_wire, size_add, size_behind] at hle
    exact .ifThen hle ihyes ih
  | ifElse hyes hno _ ihyes ihno ih =>
    have hle₁ := hyes.size_le
    have hle₂ := hno.size_le
    simp only [size_wire, size_add, size_behind] at hle₁ hle₂
    exact .ifElse hle₁ hle₂ ihyes ihno ih
  | whileDo hinner _ ihinner ih =>
    have hle := hinner.size_le
    simp only [size_wire, size_add, size_behind] at hle
    exact .whileDo hle ihinner ih
  | doWhile hinner _ ihinner ih =>
    have hle := hinner.size_le
    simp only [size_add, size_behind] at hle
    exact .doWhile hle ihinner ih
  | forDo hinner _ ihinner ih =>
    have hle := hinner.size_le
    simp only [size_branch, size_add, size_behind] at hle
    exact .forDo hle ihinner ih

namespace Flow

variable {l : Layout} {live : Nat → Bool} {marks : List (Nat × Bool)} {b : Nat}

theorem reachable_iff (h : Flow l live [] marks) (hb : b < l.size) :
    b ∈ l.resolve.reachable Graph.entry ↔ live b = true := by
  have hgraph : l.resolve = l.graph := by rw [resolve_eq, h.gotos]; simp
  have hclosed : l.graph.Closed :=
    ⟨Nat.zero_lt_of_lt hb, fun e he => (h.edges e he).1, fun e he => (h.edges e he).2.1⟩
  rw [hgraph, Graph.mem_reachable hclosed hclosed.entry_lt]
  refine ⟨fun hr => ?_, fun hl => h.reached b hb hl List.not_mem_nil⟩
  clear hb
  induction hr with
  | refl => exact h.entry
  | tail _ hl ih =>
    obtain ⟨e, he, rfl, rfl⟩ := hl
    exact (h.edges e he).2.2 ih

end Flow

theorem opening_stands (function : Option String) (firstId : Nat) (passes : Bool)
    (marks : List (Nat × Bool)) :
    Stands (.opening function firstId) (fun b => if b = Graph.exit then passes else true) [Graph.exit]
      marks 2 true := by
  have hentry : Flow { graph := { function := function, firstId := firstId } }
      (fun b => if b = Graph.exit then passes else true) [Graph.exit] marks := by
    refine ⟨rfl, rfl, nofun, ?_, ?_, ?_⟩
    · intro b hb _ ho
      obtain rfl : b = Graph.entry := by
        have hne : b ≠ 1 := fun h => ho (List.mem_singleton.mpr h)
        have hlt : b < 2 := hb
        exact (show b = 0 by omega)
      exact .refl
    · intro b hb
      rw [List.mem_singleton.mp hb]
      exact Nat.one_lt_two
    · rintro (_ | _ | _) hb pos hpos
      · cases hpos
      · cases hpos
      · exact absurd hb (by simp [Layout.size, Graph.size])
  have hstart : Stands { graph := { function := function, firstId := firstId } }
      (fun b => if b = Graph.exit then passes else true) [Graph.exit] marks Graph.entry true :=
    ⟨hentry, Nat.two_pos, by decide, rfl⟩
  exact hstart.onward .body .fallThrough rfl rfl

end Layout

namespace Stmts

/-- Where nothing jumps, the tokens of a block are marked by whether the block is reached. -/
theorem graph_marked (s : Stmts) (hj : s.jumpless = true) (function : Option String) (firstId : Nat) :
    ∃ live : Nat → Bool, ∀ b < (s.graph function firstId).size,
      (b ∈ (s.graph function firstId).reachable Graph.entry ↔ live b = true) ∧
      ∀ pos ∈ ((s.graph function firstId).block b).tokens, (pos, live b) ∈ s.marks true := by
  obtain ⟨last, l', hmakes, hlayout⟩ := s.layout_makes function firstId
  have hstart := Layout.opening_stands function firstId s.passes (s.marks true)
  obtain ⟨c, live, rfl, hold, hs⟩ := hmakes.flows hj 2 _ _ _ true rfl (fun _ hx => hx) hstart
  have hexit : live Graph.exit = live c := by
    rw [hold Graph.exit (Nat.lt_of_succ_lt hstart.lt), hs.here]
    rfl
  have hflow := hs.toFlow.link [] c .fallThrough hs.lt hs.free hexit
  have hgraph : s.graph function firstId = (l'.lead (some c) Graph.exit).resolve :=
    congrArg Layout.resolve hlayout
  refine ⟨live, fun b hb => ?_⟩
  rw [hgraph, Layout.resolve_size] at hb
  rw [hgraph, Layout.resolve_block]
  exact ⟨hflow.reachable_iff hb, hflow.tokens b hb⟩

end Stmts

/-- In a body of expression statements, blocks, conditions, loops with a condition and loops over a range,
a block with a token is reached from the entry just if the token is marked so: control stays in a loop
over a range. So all blocks with tokens are reached where there is no such loop. -/
theorem Program.straight_reached (p : Program) (k firstId : Nat) {f : Function} {s : Scope}
    {start stop count : Nat} {body : Stmts} (hf : p.functions[k]? = some f)
    (hs : p.scopeOf k f = some s) (hstart : s.bodyStart = some start) (hstop : s.bodyEnd = some stop)
    (ho : p.code.Linked) (hb : p.code.Braces start stop)
    (hw : p.code.Straight (.list count body) (start + 1) stop) :
    ∃ g, p.graph? k firstId = some g ∧
      (∀ n < g.size, ∀ pos ∈ (g.block n).tokens,
        (n ∈ g.reachable Graph.entry ↔ (pos, true) ∈ body.marks true)) ∧
      (body.tested = true → ∀ n < g.size, (g.block n).tokens ≠ [] → n ∈ g.reachable Graph.entry) := by
  have hsize : stop < p.code.size := Code.lt_size_of_text (by simp [hb.closes])
  obtain ⟨hy, hr⟩ := hw.readsBack ho hsize hb.closes_ne_colon
  have hread := hy.read_eq ho hw.frame.le hsize
  obtain ⟨live, hlive⟩ := body.graph_marked hw.jumpless f.name firstId
  have hnodup : ((body.marks true).map Prod.fst).Nodup := by
    rw [body.marks_fst hw.jumpless]
    exact hr.sorted.imp Nat.ne_of_lt
  refine ⟨_, p.graph?_eq k firstId hf hs hstart hstop hread, fun n hn pos hpos => ?_, ?_⟩
  · obtain ⟨hreach, hmarks⟩ := hlive n hn
    refine ⟨fun h => hreach.mp h ▸ hmarks pos hpos, fun h => hreach.mpr ?_⟩
    exact congrArg Prod.snd (List.inj_on_of_nodup_map hnodup (hmarks pos hpos) h rfl)
  · intro htested n hn htokens
    obtain ⟨pos, hpos⟩ := List.exists_mem_of_ne_nil _ htokens
    obtain ⟨hreach, hmarks⟩ := hlive n hn
    exact hreach.mpr (body.tested_marks htested _ (hmarks pos hpos))

namespace Span

open Tour in
def code : Code := .row
  -- a condition with a loop over a range on one side, and a choice in a loop on the other
  [ sign "\x7b" (some 40),
    word "if", sign "(" (some 4), word "a", sign ")" (some 2), sign "\x7b" (some 22),
    word "for", sign "(" (some 12), word "int", word "x", sign ":", word "v", sign ")" (some 7),
    word "f", sign "(" (some 16), word "x", sign ")" (some 14), sign ";",
    word "g", sign "(" (some 20), sign ")" (some 19), sign ";", sign "\x7d" (some 5),
    word "else", word "while", sign "(" (some 27), word "b", sign ")" (some 25),
    word "i", sign "=", word "c", sign "?", word "j", sign ":", word "k", sign ";",
    word "h", sign "(" (some 38), sign ")" (some 37), sign ";", sign "\x7d" (some 0) ]

def program : Program where
  code := code
  functions := [⟨some "main", some "1"⟩]
  scopes := [{ isFunction := true, function := some 0, bodyStart := some 0, bodyEnd := some 40 }]

def body : Stmts :=
  .ifElse [3]
    (.forDo [8, 9, 10, 11] [] [] (Stmts.done.behind [13, 14, 15, 16, 17]) <|
      Stmts.done.behind [18, 19, 20, 21])
    (.whileDo [26] (Stmts.done.behind [28, 29, 30, 31, 32, 33, 34, 35]) .done) <|
  Stmts.done.behind [36, 37, 38, 39]

theorem straight_body : code.Straight (.list 2 body) 1 40 := by
  refine .ifElse (i := 1) (k := 4) (m := 23) (l := 36) rfl ⟨by decide, rfl, rfl, rfl⟩ ?_ rfl ?_ ?_
  · refine .braces (n := 2) (k := 22) ⟨rfl, rfl, rfl⟩ ?_
    refine .forRange (i := 6) (a := 10) (k := 12) (m := 18) rfl ⟨by decide, rfl, rfl, rfl⟩ (by decide) rfl
      (by decide) (by decide) ?_ ?_
    · exact .single (.expression (i := 13) (k := 17) (by decide) (by decide) (by decide) rfl .done)
        (by decide)
    · exact .expression (i := 18) (k := 21) (by decide) (by decide) (by decide) rfl .done
  · refine .single (.whileDo (i := 24) (k := 27) (m := 36) rfl ⟨by decide, rfl, rfl, rfl⟩ ?_ .done)
      (by decide)
    exact .single (.expression (i := 28) (k := 35) (by decide) (by decide) (by decide) rfl .done)
      (by decide)
  · exact .expression (i := 36) (k := 39) (by decide) (by decide) (by decide) rfl .done

end Span

/-- Behind the loop over a range a call is not reached; the one behind the condition is. -/
theorem Program.straight_reached_span :
    ∃ g, Span.program.graph? 0 0 = some g ∧
      ∀ n < g.size, (18 ∈ (g.block n).tokens → n ∉ g.reachable Graph.entry) ∧
        (36 ∈ (g.block n).tokens → n ∈ g.reachable Graph.entry) := by
  obtain ⟨g, hg, hiff, -⟩ := Program.straight_reached Span.program 0 0 rfl rfl rfl rfl
    (Code.row_ordered _).toLinked ⟨rfl, rfl, rfl⟩ Span.straight_body
  refine ⟨g, hg, fun n hn => ⟨fun h => ?_, fun h => ?_⟩⟩
  · rw [hiff n hn 18 h]
    decide
  · exact (hiff n hn 36 h).mpr (by decide)

/-- Not every block with tokens is reached, though nothing jumps. -/
theorem Program.range_loop_unreached :
    Span.program.code.Straight (.list 2 Span.body) 1 40 ∧
      ∃ g, Span.program.graph? 0 0 = some g ∧
        ∃ n < g.size, (g.block n).tokens ≠ [] ∧ n ∉ g.reachable Graph.entry := by
  have hy := (Span.straight_body.readsBack (Code.row_ordered _).toLinked (by decide) (by decide)).1
  have hread := hy.read_eq (Code.row_ordered _).toLinked (by decide) (by decide)
  have hcut : ∃ n < (Span.body.graph (some "main") 0).size,
      ((Span.body.graph (some "main") 0).block n).tokens ≠ [] ∧
      n ∉ (Span.body.graph (some "main") 0).reachable Graph.entry := ⟨8, by decide +kernel⟩
  exact ⟨Span.straight_body, _, Span.program.graph?_eq 0 0 rfl rfl rfl rfl hread, hcut⟩

end SignFlow

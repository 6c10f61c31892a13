import SignFlow.Proofs.Dominance
import SignFlow.Proofs.WellFormed

/-! Loops and the edges that close them.

The edges that are found to go back are those whose end dominates their start. A loop with its condition
in front is laid out as a stretch of blocks that nothing enters but at its head, unless a jump goes to a
label inside. So the edge that closes it ends on every path from the entry to its start. A block that
nothing leads to counts as a root, though, and one inside of the loop may lead around the head. -/

namespace SignFlow

namespace Graph

variable {g : Graph} {e : Edge} {d n r head stop : Nat} {path : List Nat}

/-- Nothing leads to the block, and control does not start there. -/
def IsStray (g : Graph) (r : Nat) : Prop := r < g.size ∧ r ≠ entry ∧ ∀ m, ¬g.Leads m r

theorem isStray_iff : g.IsStray r ↔ r < g.size ∧ r ≠ entry ∧ g.predecessors r = [] := by
  simp only [IsStray, List.eq_nil_iff_forall_not_mem, mem_predecessors]

theorem dominates_iff (hg : g.Closed) (hd : d < g.size) :
    g.Dominates d n ↔ (∀ path, g.Path entry path n → d ∈ path) ∧
      ∀ r path, g.IsStray r → g.Path r path n → d ∈ path := by
  constructor
  · intro h
    exact ⟨fun path => h.2 entry path ⟨hg.entry_lt, .inl rfl⟩,
      fun r path hr => h.2 r path ⟨hr.1, .inr hr.2.2⟩⟩
  · rintro ⟨hentry, hstray⟩
    refine ⟨hd, fun r path hr hpath => ?_⟩
    by_cases hne : r = entry
    · exact hentry path (hne ▸ hpath)
    · exact hstray r path ⟨hr.1, hne, hr.2.resolve_left hne⟩ hpath

theorem lookup_dominators (hn : n < g.size) :
    ∃ row, g.dominators.lookup n = some row ∧ (n, row) ∈ g.dominators := by
  have hpos := mem_positions.mpr hn
  exact ⟨_, List.lookup_graph _ hpos, List.mem_map_of_mem hpos⟩

theorem mem_backEdges (hg : g.Closed) : e ∈ g.backEdges ↔ e ∈ g.edges ∧ g.Dominates e.dst e.src := by
  rw [backEdges, List.mem_filter]
  refine and_congr_right fun he => ?_
  obtain ⟨row, hlookup, hrow⟩ := lookup_dominators (hg.src_lt e he)
  rw [hlookup, Option.getD_some, List.contains_iff_mem, mem_row hg hrow]

/-- The blocks from the head up to the stop are entered at the head only. -/
def EnteredAt (g : Graph) (head stop : Nat) : Prop :=
  ∀ e ∈ g.edges, head < e.dst → e.dst < stop → head ≤ e.src ∧ e.src < stop

theorem EnteredAt.mem_path (h : g.EnteredAt head stop) (hr : r < head) (hpath : g.Path r path n)
    (hhead : head ≤ n) (hstop : n < stop) : head ∈ path := by
  induction hpath with
  | here => exact absurd hr (Nat.not_lt.mpr hhead)
  | step before hl ih =>
    obtain ⟨e, he, rfl, rfl⟩ := hl
    rcases Nat.eq_or_lt_of_le hhead with heq | hlt
    · simp [heq]
    · obtain ⟨hle, hlt⟩ := h e he hlt hstop
      exact List.mem_append_left _ (ih hle hlt)

/-- The edge goes back to the head of a stretch that it starts in. -/
structure Closes (g : Graph) (e : Edge) (stop : Nat) : Prop where
  pos : 0 < e.dst
  dst_le : e.dst ≤ e.src
  src_lt : e.src < stop
  entered : g.EnteredAt e.dst stop

theorem Closes.mem_path (h : g.Closes e stop) (hr : r < e.dst) (hpath : g.Path r path e.src) : e.dst ∈ path :=
  h.entered.mem_path hr hpath h.dst_le h.src_lt

end Graph

namespace Layout

variable {l l' : Layout} {current : Option Nat} {doors doors' heads heads' : List Nat} {b d : Nat}
  {way : EdgeKind}

/-- Which loops there are while a body is laid out. The heads are those of the loops around the current
block, and blocks behind a head are led to from it or from behind it. The doors are the blocks that
something may still lead to: they are in no loop that is closed already, its head apart. -/
structure Looped (l : Layout) (doors heads : List Nat) : Prop where
  ends : ∀ e ∈ l.graph.edges, e.src < l.size ∧ e.dst < l.size
  doors_lt : ∀ d ∈ doors, d < l.size
  heads_lt : ∀ a ∈ heads, a < l.size
  opened : ∀ a ∈ heads, ∀ e ∈ l.graph.edges, a < e.dst → a ≤ e.src
  closed : ∀ e ∈ l.graph.edges, e.kind = .backEdge →
    ∃ stop ≤ l.size, l.graph.Closes e stop ∧ ∀ d ∈ doors, e.dst < d → stop ≤ d

/-- The block is there, in all the loops with these heads. -/
structure Inside (l : Layout) (heads : List Nat) (b : Nat) : Prop where
  lt : b < l.size
  le : ∀ a ∈ heads, a ≤ b

theorem Inside.mono (h : Inside l heads b) (hle : l.size ≤ l'.size) : Inside l' heads b :=
  ⟨Nat.lt_of_lt_of_le h.lt hle, h.le⟩

theorem Inside.only (h : Inside l heads b) : ∀ c ∈ some b, Inside l heads c :=
  fun _ hc => Option.mem_some.mp hc ▸ h

namespace Looped

theorem mono (h : Looped l doors heads) (hdoors : doors' ⊆ doors) (hheads : heads' ⊆ heads) :
    Looped l doors' heads' := by
  refine ⟨h.ends, fun d hd => h.doors_lt d (hdoors hd), fun a ha => h.heads_lt a (hheads ha),
    fun a ha => h.opened a (hheads ha), fun e he hk => ?_⟩
  obtain ⟨stop, hstop, hcloses, hbehind⟩ := h.closed e he hk
  exact ⟨stop, hstop, hcloses, fun d hd => hbehind d (hdoors hd)⟩

theorem drop (h : Looped l (d :: doors) heads) : Looped l doors heads :=
  h.mono (List.subset_cons_self d doors) (List.Subset.refl heads)

theorem inside (h : Looped l doors heads) (hle : l.size ≤ b) (hlt : b < l'.size) : Inside l' heads b :=
  ⟨hlt, fun a ha => Nat.le_of_lt (Nat.lt_of_lt_of_le (h.heads_lt a ha) hle)⟩

theorem inside_cons (h : Looped l doors heads) (hd : l.size ≤ d) (hle : d ≤ b) (hlt : b < l'.size) :
    Inside l' (d :: heads) b :=
  ⟨hlt, List.forall_mem_cons.mpr ⟨hle, (h.inside (Nat.le_trans hd hle) hlt).le⟩⟩

theorem of_edges_eq (h : Looped l doors heads) (hedges : l'.graph.edges = l.graph.edges)
    (hsize : l'.size = l.size) : Looped l' doors heads := by
  refine ⟨?_, ?_, ?_, ?_, ?_⟩
  · rw [hedges, hsize]; exact h.ends
  · rw [hsize]; exact h.doors_lt
  · rw [hsize]; exact h.heads_lt
  · rw [hedges]; exact h.opened
  · rw [hedges, hsize]
    intro e he hk
    obtain ⟨stop, hstop, hcloses, hbehind⟩ := h.closed e he hk
    refine ⟨stop, hstop, ⟨hcloses.pos, hcloses.dst_le, hcloses.src_lt, ?_⟩, hbehind⟩
    rw [Graph.EnteredAt, hedges]
    exact hcloses.entered

theorem fill (h : Looped l doors heads) (b : Nat) (tokens : List Nat) :
    Looped (l.fill b tokens) doors heads :=
  h.of_edges_eq rfl size_fill

theorem turn (h : Looped l doors heads) (b : Nat) (kind : BlockKind) :
    Looped (l.turn b kind) doors heads :=
  h.of_edges_eq rfl size_turn

theorem add (h : Looped l doors heads) (kind : BlockKind) : Looped (l.add kind) (l.size :: doors) heads := by
  have hlt : ∀ {b}, b < l.size → b < (l.add kind).size := fun hb => by rw [size_add]; omega
  refine ⟨?_, ?_, fun a ha => hlt (h.heads_lt a ha), h.opened, fun e he hk => ?_⟩
  · exact fun e he => ⟨hlt (h.ends e he).1, hlt (h.ends e he).2⟩
  · exact List.forall_mem_cons.mpr ⟨by simp, fun d hd => hlt (h.doors_lt d hd)⟩
  · obtain ⟨stop, hstop, hcloses, hbehind⟩ := h.closed e he hk
    refine ⟨stop, by rw [size_add]; omega, ?_, List.forall_mem_cons.mpr ⟨fun _ => hstop, hbehind⟩⟩
    exact ⟨hcloses.pos, hcloses.dst_le, hcloses.src_lt, hcloses.entered⟩

/-- An edge to a door enters no loop that is closed. -/
theorem closed_wire (h : Looped l doors heads) (hd : d ∈ doors) {text : Option String} {e : Edge}
    (he : e ∈ l.graph.edges) (hk : e.kind = .backEdge) :
    ∃ stop ≤ l.size, (l.wire b d way text).graph.Closes e stop ∧ ∀ d ∈ doors, e.dst < d → stop ≤ d := by
  obtain ⟨stop, hstop, hcloses, hbehind⟩ := h.closed e he hk
  refine ⟨stop, hstop, ⟨hcloses.pos, hcloses.dst_le, hcloses.src_lt, fun f hf hhead hlt => ?_⟩, hbehind⟩
  rcases List.mem_append.mp hf with hf | hf
  · exact hcloses.entered f hf hhead hlt
  · obtain rfl := List.mem_singleton.mp hf
    exact absurd hlt (Nat.not_lt.mpr (hbehind d hd hhead))

theorem opened_wire (h : Looped l doors heads) (hb : Inside l heads b) {text : Option String} :
    ∀ a ∈ heads, ∀ e ∈ (l.wire b d way text).graph.edges, a < e.dst → a ≤ e.src := by
  intro a ha e he hlt
  rcases List.mem_append.mp he with he | he
  · exact h.opened a ha e he hlt
  · rw [List.mem_singleton.mp he]
    exact hb.le a ha

theorem ends_wire (h : Looped l doors heads) (hb : b < l.size) (hd : d ∈ doors) {text : Option String} :
    ∀ e ∈ (l.wire b d way text).graph.edges, e.src < l.size ∧ e.dst < l.size := by
  intro e he
  rcases List.mem_append.mp he with he | he
  · exact h.ends e he
  · rw [List.mem_singleton.mp he]
    exact ⟨hb, h.doors_lt d hd⟩

theorem wire (h : Looped l doors heads) (hb : Inside l heads b) (d : Nat) (way : EdgeKind) (hd : d ∈ doors)
    (hway : way ≠ .backEdge) (text : Option String := none) : Looped (l.wire b d way text) doors heads := by
  refine ⟨h.ends_wire hb.lt hd, h.doors_lt, h.heads_lt, h.opened_wire hb, fun e he hk => ?_⟩
  rcases List.mem_append.mp he with he | he
  · exact h.closed_wire hd he hk
  · rw [List.mem_singleton.mp he] at hk
    exact absurd hk hway

/-- The last block becomes a head: nothing is behind it yet. -/
theorem start (h : Looped l doors heads) (d : Nat) (hsize : l.size = d + 1) :
    Looped l doors (d :: heads) := by
  refine ⟨h.ends, h.doors_lt, List.forall_mem_cons.mpr ⟨by omega, h.heads_lt⟩,
    List.forall_mem_cons.mpr ⟨fun e he hlt => ?_, h.opened⟩, h.closed⟩
  have hdst := (h.ends e he).2
  omega

/-- Going back to its head closes a loop, and then only the doors before it are left. -/
theorem close (h : Looped l doors (d :: heads)) (hb : Inside l (d :: heads) b) (hd : d ∈ doors) (hpos : 0 < d)
    (hsub : doors' ⊆ doors) (hdoors : ∀ x ∈ doors', x ≤ d) : Looped (l.wire b d .backEdge) doors' heads := by
  obtain ⟨hdb, hle⟩ := List.forall_mem_cons.mp hb.le
  have hopened : ∀ a ∈ d :: heads, ∀ e ∈ (l.wire b d .backEdge).graph.edges, a < e.dst → a ≤ e.src :=
    h.opened_wire hb
  have hends : ∀ e ∈ (l.wire b d .backEdge).graph.edges, e.src < l.size ∧ e.dst < l.size :=
    h.ends_wire hb.lt hd
  refine ⟨hends, fun x hx => h.doors_lt x (hsub hx), fun a ha => h.heads_lt a (List.mem_cons_of_mem d ha),
    fun a ha => hopened a (List.mem_cons_of_mem d ha), fun e he hk => ?_⟩
  rcases List.mem_append.mp he with he | he
  · obtain ⟨stop, hstop, hcloses, hbehind⟩ := h.closed_wire hd he hk
    exact ⟨stop, hstop, hcloses, fun x hx => hbehind x (hsub hx)⟩
  · rw [List.mem_singleton.mp he]
    refine ⟨l.size, Nat.le_refl _, ⟨hpos, hdb, hb.lt, fun f hf hhead _ => ?_⟩, fun x hx hlt => ?_⟩
    · exact ⟨hopened d List.mem_cons_self f hf hhead, (hends f hf).1⟩
    · exact absurd hlt (Nat.not_lt.mpr (hdoors x hx))

theorem lead (h : Looped l doors heads) (hcurrent : ∀ b ∈ current, Inside l heads b) (d : Nat)
    (way : EdgeKind) (hd : d ∈ doors) (hway : way ≠ .backEdge) : Looped (l.lead current d way) doors heads := by
  cases current with
  | none => exact h
  | some b => exact h.wire (hcurrent b rfl) d way hd hway

theorem closeFrom (h : Looped l doors (d :: heads)) (hcurrent : ∀ b ∈ current, Inside l (d :: heads) b)
    (hd : d ∈ doors) (hpos : 0 < d) (hsub : doors' ⊆ doors) (hdoors : ∀ x ∈ doors', x ≤ d) :
    Looped (l.lead current d .backEdge) doors' heads := by
  cases current with
  | none => exact h.mono hsub (List.subset_cons_self d heads)
  | some b => exact h.close (hcurrent b rfl) hd hpos hsub hdoors

theorem behind (current : Option Nat) (h : Looped l doors heads) (hcurrent : ∀ b ∈ current, Inside l heads b)
    (kind : BlockKind) (tokens : List Nat) :
    Looped (l.behind current kind tokens) (l.size :: doors) heads := by
  have hcurrent : ∀ b ∈ current, Inside (l.add kind) heads b := fun b hb => (hcurrent b hb).mono (by simp)
  exact ((h.add kind).lead hcurrent l.size .fallThrough List.mem_cons_self (by decide)).fill l.size tokens

theorem ensure (h : Looped l doors heads) : Looped (l.ensure current) doors heads := by
  cases current with
  | none => exact (h.add .unreachable).drop
  | some b => exact h

theorem inside_ensure (h : Looped l doors heads) (hcurrent : ∀ b ∈ current, Inside l heads b) :
    Inside (l.ensure current) heads (current.getD l.size) := by
  cases current with
  | none => exact h.inside (Nat.le_refl _) (by simp [Layout.ensure])
  | some b => exact hcurrent b rfl

theorem leap (h : Looped l doors heads) (hcurrent : ∀ b ∈ current, Inside l heads b) {pos : Nat}
    (hd : d ∈ doors) (hway : way ≠ .backEdge) : Looped (l.leap current pos d way) doors heads := by
  cases current with
  | none => exact h
  | some b => exact (h.fill b [pos]).wire ((hcurrent b rfl).mono (by simp)) d way hd hway

theorem leapTo (h : Looped l doors heads) {pos : Nat} {target : String} :
    Looped (l.leapTo current pos target) doors heads := by
  cases current with
  | none => exact h
  | some b => exact (h.fill b [pos]).of_edges_eq rfl rfl

theorem quit (h : Looped l doors heads) (hb : Inside l heads b) (hexit : Graph.exit ∈ doors) :
    Looped (l.quit b) doors heads :=
  (h.turn b .returns).wire (hb.mono (by simp)) Graph.exit .returns hexit (by decide)

theorem branch (h : Looped l doors heads) (hb : Inside l heads b) (test : List Nat) (body after : Nat)
    (hbody : body ∈ doors) (hafter : after ∈ doors) : Looped (l.branch test b body after) doors heads := by
  unfold Layout.branch
  split
  · exact h.wire hb body .fallThrough hbody (by decide)
  · exact (h.wire hb body .branchTrue hbody (by decide)).wire (hb.mono (by simp)) after .branchFalse hafter
      (by decide)

theorem bypass (h : Looped l doors heads) (hb : Inside l heads b) (hasDefault : Bool) (d : Nat)
    (hd : d ∈ doors) : Looped (l.bypass hasDefault b d) doors heads := by
  cases hasDefault with
  | true => exact h
  | false => exact h.wire hb d .switchDefault hd (by decide)

theorem ifTrue (h : Looped l doors heads) (hcurrent : ∀ b ∈ current, Inside l heads b) (test : List Nat) :
    Looped (((l.behind current .ifCond test).add .ifTrue).wire l.size (l.size + 1) .branchTrue) doors
      heads := by
  have hadd := (h.behind _ hcurrent .ifCond test).add .ifTrue
  rw [size_behind] at hadd
  have hcond : Inside ((l.behind current .ifCond test).add .ifTrue) heads l.size :=
    h.inside (Nat.le_refl _) (by rw [size_add, size_behind]; omega)
  exact (hadd.wire hcond (l.size + 1) .branchTrue List.mem_cons_self (by decide)).drop.drop

theorem arm (h : Looped l doors heads) (hcurrent : ∀ b ∈ current, Inside l heads b) (hb : Inside l heads b)
    (kind : BlockKind) (way : EdgeKind) (hway : way ≠ .backEdge) (text : Option String) :
    Looped (((l.add kind).wire b l.size way text).lead current l.size) doors heads := by
  have hwire := (h.add kind).wire (hb.mono (by simp)) l.size way List.mem_cons_self hway text
  exact (hwire.lead (fun c hc => (hcurrent c hc).mono (by simp)) l.size .fallThrough List.mem_cons_self
    (by decide)).drop

end Looped

/-- Jumps out of the statements go to doors. -/
structure Among (targets : Targets) (doors : List Nat) : Prop where
  leave : ∀ d ∈ targets.leave, d ∈ doors
  next : ∀ d ∈ targets.next, d ∈ doors
  exit : Graph.exit ∈ doors

theorem Among.leave_getD {targets : Targets} (h : Among targets doors) :
    targets.leave.getD Graph.exit ∈ doors := by
  rcases targets with ⟨_ | d, _⟩
  · exact h.exit
  · exact h.leave d rfl

theorem Among.next_getD {targets : Targets} (h : Among targets doors) :
    targets.next.getD Graph.exit ∈ doors := by
  rcases targets with ⟨_, _ | d⟩
  · exact h.exit
  · exact h.next d rfl

/-- Doing a job leaves the loops around it open, and closes its own. -/
def Job.Loops : Job → Option Nat → Layout → Option Nat → Layout → Prop
  | .stmts _ targets, current, l, last, l' => ∀ doors heads, Among targets doors →
      (∀ b ∈ current, Inside l heads b) → Looped l doors heads →
      Looped l' doors heads ∧ ∀ b ∈ last, Inside l' heads b
  | .arms _ dispatch targets, current, l, last, l' => ∀ doors heads, Among targets doors →
      (∀ b ∈ current, Inside l heads b) → Inside l heads dispatch → Looped l doors heads →
      Looped l' doors heads ∧ ∀ b ∈ last, Inside l' heads b

theorem Makes.loops {job : Job} {current last : Option Nat} {l l' : Layout}
    (h : Makes job current l last l') : job.Loops current l last l' := by
  -- a construct adds doors for its own blocks and drops them once nothing more leads there
  induction h with
  | done => exact fun _ _ _ hin hl => ⟨hl, hin⟩
  | token _ ih =>
    intro doors heads ht hin hl
    exact ih doors heads ht ((hl.inside_ensure hin).mono (by simp)).only (hl.ensure.fill _ _)
  | @label name rest targets current l last l' _ ih =>
    intro doors heads ht hin hl
    refine ih doors heads ht (hl.inside (Nat.le_refl l.size) (by simp)).only ?_
    exact (hl.behind _ hin .label []).drop.of_edges_eq rfl size_mark
  | returnsHere _ ih =>
    intro doors heads ht hin hl
    exact ih doors heads ht (by simp) ((hl.fill _ _).quit ((hin _ rfl).mono (by simp)) ht.exit)
  | @returnsBehind kind tokens rest targets current l last l' _ ih =>
    intro doors heads ht hin hl
    refine ih doors heads ht (by simp) ?_
    exact (hl.behind _ hin _ _).drop.quit (hl.inside (Nat.le_refl l.size) (by simp)) ht.exit
  | leave _ ih =>
    intro doors heads ht hin hl
    exact ih doors heads ht (by simp) (hl.leap hin ht.leave_getD (by decide))
  | next _ ih =>
    intro doors heads ht hin hl
    exact ih doors heads ht (by simp) (hl.leap hin ht.next_getD (by decide))
  | goto _ ih =>
    intro doors heads ht hin hl
    exact ih doors heads ht (by simp) hl.leapTo
  | block _ _ ihinner ih =>
    intro doors heads ht hin hl
    obtain ⟨hl, hin⟩ := ihinner doors heads ht hin hl
    exact ih doors heads ht hin hl
  | ifOnly =>
    intro doors heads _ hin hl
    exact ⟨(hl.behind _ hin _ _).drop, by simp⟩
  | @ifThen test yes rest targets current l middle l₁ last l' hyes _ ihyes ih =>
    intro doors heads ht hin hl
    have hle := hyes.size_le
    simp only [size_wire, size_add, size_behind] at hle
    obtain ⟨hl₁, hin₁⟩ := ihyes doors heads ht (hl.inside (Nat.le_succ _) (by simp)).only (hl.ifTrue hin test)
    have hcond : Inside (l₁.add .ifMerge) heads l.size := hl.inside (Nat.le_refl _) (by simp; omega)
    have hmerge := ((hl₁.add .ifMerge).wire hcond l₁.size .branchFalse List.mem_cons_self (by decide)).lead
      (fun b hb => (hin₁ b hb).mono (by simp)) l₁.size .fallThrough List.mem_cons_self (by decide)
    exact ih doors heads ht (hl₁.inside (Nat.le_refl _) (by simp)).only hmerge.drop
  | @ifElse test yes no rest targets current l middle l₁ other l₂ last l' hyes hno _ ihyes ihno ih =>
    intro doors heads ht hin hl
    have hle₁ := hyes.size_le
    have hle₂ := hno.size_le
    simp only [size_wire, size_add, size_behind] at hle₁ hle₂
    obtain ⟨hl₁, hin₁⟩ := ihyes doors heads ht (hl.inside (Nat.le_succ _) (by simp)).only (hl.ifTrue hin test)
    have hcond : Inside (l₁.add .ifFalse) heads l.size := hl.inside (Nat.le_refl _) (by simp; omega)
    have hfalse := (hl₁.add .ifFalse).wire hcond l₁.size .branchFalse List.mem_cons_self (by decide)
    obtain ⟨hl₂, hin₂⟩ := ihno doors heads ht (hl₁.inside (Nat.le_refl _) (by simp)).only hfalse.drop
    have hmerge := ((hl₂.add .ifMerge).lead (fun b hb => (hin₁ b hb).mono (by simp; omega)) l₂.size
      .fallThrough List.mem_cons_self (by decide)).lead (fun b hb => (hin₂ b hb).mono (by simp)) l₂.size
      .fallThrough List.mem_cons_self (by decide)
    refine ih doors heads ht (fun b hb => ?_) hmerge.drop
    split at hb
    · cases hb
    · exact (hl₂.inside (Nat.le_refl _) (by simp)).only b hb
  | @whileDo test inner rest targets current l middle l₁ last l' hinner _ ihinner ih =>
    intro doors heads ht hin hl
    have hle := hinner.size_le
    simp only [size_wire, size_add, size_behind] at hle
    -- the condition is the head, and the inside may go to it and to what is behind the loop
    have hadd := (((hl.behind _ hin .loopCond test).start l.size size_behind).add .whileAfter).add .loopBody
    rw [size_add, size_behind] at hadd
    have hcond : Inside (((l.behind current .loopCond test).add .whileAfter).add .loopBody) (l.size :: heads)
        l.size := hl.inside_cons (Nat.le_refl _) (Nat.le_refl _) (by simp; omega)
    have hways := (hadd.wire hcond (l.size + 2) .branchTrue (by simp) (by decide)).wire
      (hcond.mono (by simp)) (l.size + 1) .branchFalse (by simp) (by decide)
    obtain ⟨hl₁, hin₁⟩ := ihinner ((l.size + 1) :: l.size :: doors) (l.size :: heads)
      ⟨by simp, by simp, by simp [ht.exit]⟩
      (hl.inside_cons (Nat.le_refl _) (Nat.le_add_right l.size 2) (by simp)).only hways.drop
    have hclose := hl₁.closeFrom hin₁ (by simp) (Nat.zero_lt_of_lt (hl.doors_lt _ ht.exit))
      (fun d hd => by simp [hd]) fun d hd => Nat.le_of_lt (hl.doors_lt d hd)
    exact ih doors heads ht (hl.inside (Nat.le_succ _) (by simp; omega)).only hclose
  | @doWhile inner test rest targets current l middle l₁ last l' hinner _ ihinner ih =>
    intro doors heads ht hin hl
    have hle := hinner.size_le
    simp only [size_add, size_behind] at hle
    have hadd := ((hl.behind _ hin .loopBody []).add .loopCond).add .doAfter
    rw [size_add, size_behind] at hadd
    obtain ⟨hl₁, hin₁⟩ := ihinner ((l.size + 2) :: (l.size + 1) :: l.size :: doors) heads
      ⟨by simp, by simp, by simp [ht.exit]⟩ (hl.inside (Nat.le_refl _) (by simp; omega)).only hadd
    have hcond : Inside l₁ heads (l.size + 1) := hl.inside (by omega) (by omega)
    have htest := (hl₁.lead hin₁ (l.size + 1) .fallThrough (by simp) (by decide)).fill (l.size + 1) test
    have hways := (htest.wire (hcond.mono (by simp)) l.size .branchTrue (by simp) (by decide)).wire
      (hcond.mono (by simp)) (l.size + 2) .branchFalse (by simp) (by decide)
    exact ih doors heads ht (hl.inside (by omega) (by simp; omega)).only hways.drop.drop.drop
  | @forDo init test step inner rest targets current l middle l₁ last l' hinner _ ihinner ih =>
    intro doors heads ht hin hl
    have hle := hinner.size_le
    simp only [size_add, size_behind, size_branch] at hle
    have hinit := (hl.behind _ hin .forInit init).behind _
      (hl.inside (Nat.le_refl l.size) (by simp)).only .loopCond test
    rw [size_behind] at hinit
    -- the way from the start to the condition is the only one into the loop
    have hhead := hinit.start (l.size + 1) (by simp)
    have hadd := ((hhead.behind none (by simp) .forStep step).add .forAfter).add .loopBody
    simp only [size_add, size_behind] at hadd
    have hways := hadd.branch (hl.inside_cons (Nat.le_succ _) (Nat.le_refl _) (by simp)) test
      (l.size + 4) (l.size + 3) (by simp) (by simp)
    obtain ⟨hl₁, hin₁⟩ := ihinner ((l.size + 3) :: (l.size + 2) :: (l.size + 1) :: l.size :: doors)
      ((l.size + 1) :: heads) ⟨by simp, by simp, by simp [ht.exit]⟩
      (hl.inside_cons (Nat.le_succ _) (by omega) (by simp)).only hways.drop
    have hstep := hl₁.lead hin₁ (l.size + 2) .fallThrough (by simp) (by decide)
    have hback : Inside (l₁.lead middle (l.size + 2)) ((l.size + 1) :: heads) (l.size + 2) :=
      hl.inside_cons (Nat.le_succ _) (Nat.le_succ _) (by simp; omega)
    have hclose := hstep.close hback (by simp) (Nat.succ_pos _) (fun d hd => by simp [hd]) fun d hd =>
      Nat.le_succ_of_le (Nat.le_of_lt (hl.doors_lt d hd))
    exact ih doors heads ht (hl.inside (by omega) (by simp; omega)).only hclose
  | @switch test inside rest targets current l middle l₁ last l' hinside _ ihinside ih =>
    intro doors heads ht hin hl
    have hle := hinside.size_le
    simp only [size_add, size_behind] at hle
    have hadd := (hl.behind _ hin .dispatch test).add .switchAfter
    rw [size_behind] at hadd
    have hdispatch : Inside l₁ heads l.size := hl.inside (Nat.le_refl _) (by omega)
    obtain ⟨hl₁, hin₁⟩ := ihinside ((l.size + 1) :: l.size :: doors) heads
      ⟨by simp, fun d hd => by simp [ht.next d hd], by simp [ht.exit]⟩ (by simp)
      (hl.inside (Nat.le_refl _) (by rw [size_add, size_behind]; omega)) hadd
    have hafter := (hl₁.lead hin₁ (l.size + 1) .fallThrough (by simp) (by decide)).bypass
      (hdispatch.mono (by simp)) inside.hasDefault (l.size + 1) (by simp)
    exact ih doors heads ht (hl.inside (by omega) (by simp; omega)).only hafter.drop.drop
  | @bareSwitch test rest targets current l last l' _ ih =>
    intro doors heads ht hin hl
    have hadd := (hl.behind _ hin .dispatch test).add .switchAfter
    rw [size_behind] at hadd
    have hways := hadd.wire (hl.inside (Nat.le_refl l.size) (by rw [size_add, size_behind]; omega))
      (l.size + 1) .switchDefault (by simp) (by decide)
    exact ih doors heads ht (hl.inside (Nat.le_succ _) (by simp)).only hways.drop.drop
  | armsDone => exact fun _ _ _ hin _ hl => ⟨hl, hin⟩
  | @armsCase label ahead dispatch targets current l last l' _ ih =>
    intro doors heads ht hin hdispatch hl
    have hcase := hl.arm hin hdispatch .caseLabel .switchCase (by decide) (some label)
    exact ih doors heads ht (hl.inside (Nat.le_refl _) (by simp)).only (hdispatch.mono (by simp)) hcase
  | @armsDefault ahead dispatch targets current l last l' _ ih =>
    intro doors heads ht hin hdispatch hl
    have hcase := hl.arm hin hdispatch .defaultLabel .switchDefault (by decide) none
    exact ih doors heads ht (hl.inside (Nat.le_refl _) (by simp)).only (hdispatch.mono (by simp)) hcase
  | armsStmts hinner _ ihinner ih =>
    intro doors heads ht hin hdispatch hl
    obtain ⟨hl₁, hin₁⟩ := ihinner doors heads ht (hl.inside_ensure hin).only hl.ensure
    exact ih doors heads ht hin₁ (hdispatch.mono (Nat.le_trans size_le_ensure hinner.size_le)) hl₁

theorem opening_looped (function : Option String) (firstId : Nat) :
    Looped (opening function firstId) [Graph.exit] [] := by
  have hblank : Looped { graph := { function := function, firstId := firstId } } [Graph.exit] [] := by
    refine ⟨by simp, fun d hd => ?_, by simp, by simp, by simp⟩
    rw [List.mem_singleton.mp hd]
    exact Nat.one_lt_two
  exact ((hblank.add .body).wire ⟨Nat.zero_lt_succ 2, by simp⟩ 2 .fallThrough List.mem_cons_self
    (by decide)).drop

end Layout

theorem Stmts.layout_looped (body : Stmts) (function : Option String) (firstId : Nat) :
    Layout.Looped (body.layout function firstId) [Graph.exit] [] := by
  obtain ⟨last, l', hmakes, hlayout⟩ := body.layout_makes function firstId
  have hin : Layout.Inside (Layout.opening function firstId) [] 2 := ⟨Nat.lt_succ_self 2, by simp⟩
  obtain ⟨hl, hlast⟩ := hmakes.loops [Graph.exit] [] ⟨by simp, by simp, List.mem_singleton_self _⟩ hin.only
    (Layout.opening_looped function firstId)
  rw [hlayout]
  exact hl.lead hlast Graph.exit .fallThrough (List.mem_singleton_self _) (by decide)

/-- Without jumps to labels, an edge that closes a loop goes back to the head of its stretch. -/
theorem Layout.Looped.resolve_closes {l : Layout} {doors heads : List Nat} (h : Looped l doors heads)
    (hgoto : ∀ e ∈ l.resolve.edges, e.kind ≠ .goto) {e : Edge} (he : e ∈ l.resolve.edges)
    (hk : e.kind = .backEdge) : ∃ stop, l.resolve.Closes e stop := by
  have hnone : l.gotos = [] := by
    refine List.eq_nil_iff_forall_not_mem.mpr fun j hj => ?_
    refine hgoto ⟨j.1, l.target j.2, .goto, none⟩ ?_ rfl
    rw [resolve_eq]
    exact List.mem_append_right _ (List.mem_map_of_mem hj)
  have hgraph : l.resolve = l.graph := by
    rw [resolve_eq, hnone]
    simp
  rw [hgraph] at he ⊢
  obtain ⟨stop, -, hcloses, -⟩ := h.closed e he hk
  exact ⟨stop, hcloses⟩

theorem Layout.Tidy.closed {l : Layout} (h : Tidy l []) : l.resolve.Closed where
  entry_lt := l.resolve_size.symm ▸ h.pos
  src_lt _ he := l.resolve_size.symm ▸ (h.resolve_ends he).1
  dst_lt _ he := l.resolve_size.symm ▸ (h.resolve_ends he).2.2

namespace Program

variable {p : Program} {k firstId : Nat} {g : Graph} {e : Edge}

theorem graph_closed (h : p.graph? k firstId = some g) : g.Closed := by
  obtain ⟨body, name, rfl⟩ := p.exists_body k firstId h
  exact (body.layout_tidy name firstId).closed

theorem graph_closes (h : p.graph? k firstId = some g) (hgoto : ∀ e ∈ g.edges, e.kind ≠ .goto)
    (he : e ∈ g.edges) (hk : e.kind = .backEdge) : ∃ stop, g.Closes e stop := by
  obtain ⟨body, name, rfl⟩ := p.exists_body k firstId h
  exact (body.layout_looped name firstId).resolve_closes hgoto he hk

end Program

/-- Listed are the edges whose end is on every path to their start, from the entry and from each block
that nothing leads to. Without jumps to labels, the end of an edge that closes a loop is on every path
from the entry to its start, and the edge is listed unless a stray block behind that end leads around it.
-/
theorem Program.backEdges_exact (p : Program) (k firstId : Nat) {g : Graph}
    (h : p.graph? k firstId = some g) :
    (∀ e, e ∈ g.backEdges ↔ e ∈ g.edges ∧ (∀ path, g.Path Graph.entry path e.src → e.dst ∈ path) ∧
      ∀ r path, g.IsStray r → g.Path r path e.src → e.dst ∈ path) ∧
    ((∀ e ∈ g.edges, e.kind ≠ .goto) → ∀ e ∈ g.edges, e.kind = .backEdge →
      (∀ path, g.Path Graph.entry path e.src → e.dst ∈ path) ∧
      (e ∈ g.backEdges ↔ ∀ r path, g.IsStray r → e.dst < r → g.Path r path e.src → e.dst ∈ path)) := by
  have hclosed := graph_closed h
  have hlisted : ∀ e, e ∈ g.backEdges ↔ e ∈ g.edges ∧
      (∀ path, g.Path Graph.entry path e.src → e.dst ∈ path) ∧
      ∀ r path, g.IsStray r → g.Path r path e.src → e.dst ∈ path := by
    intro e
    rw [Graph.mem_backEdges hclosed]
    exact and_congr_right fun he => Graph.dominates_iff hclosed (hclosed.dst_lt e he)
  refine ⟨hlisted, fun hgoto e he hk => ?_⟩
  obtain ⟨stop, hcloses⟩ := graph_closes h hgoto he hk
  have hentry : ∀ path, g.Path Graph.entry path e.src → e.dst ∈ path := fun _ => hcloses.mem_path hcloses.pos
  refine ⟨hentry, fun hback r path hr _ => ((hlisted e).mp hback).2.2 r path hr, fun hbehind => ?_⟩
  refine (hlisted e).mpr ⟨he, hentry, fun r path hr hpath => ?_⟩
  -- only a stray block behind the head can be in the stretch of the loop
  rcases Nat.lt_trichotomy r e.dst with hlt | rfl | hgt
  · exact hcloses.mem_path hlt hpath
  · exact hpath.start_mem
  · exact hbehind r path hr hgt hpath

namespace Guarded

open Tour in
/-- A guard with a statement behind its return, and then a loop. -/
def program : Program where
  code := .row
    [ sign "\x7b" (some 19),
      word "if", sign "(" (some 4), word "b", sign ")" (some 2), sign "\x7b" (some 10),
      word "return", sign ";", word "x", sign ";", sign "\x7d" (some 5),
      word "while", sign "(" (some 14), word "a", sign ")" (some 12), sign "\x7b" (some 18),
      word "y", sign ";", sign "\x7d" (some 15), sign "\x7d" (some 0) ]
  functions := [⟨some "main", some "1"⟩]
  scopes := [{ isFunction := true, function := some 0, bodyStart := some 0, bodyEnd := some 19 }]

end Guarded

/-- A stray block leads into the loop, but through its head. -/
theorem Program.backEdges_exact_guarded : ∃ g, Guarded.program.graph? 0 0 = some g ∧
    ∃ e ∈ g.backEdges, e.kind = .backEdge ∧ ∃ r, g.IsStray r ∧ g.Reaches r e.src := by
  obtain ⟨g, hg⟩ : ∃ g, Guarded.program.graph? 0 0 = some g := ⟨_, rfl⟩
  obtain ⟨hgoto, hedge, hstray, hreach, hbehind⟩ : (∀ e ∈ g.edges, e.kind ≠ .goto) ∧
      (⟨9, 7, .backEdge, none⟩ : Edge) ∈ g.edges ∧
      (5 < g.size ∧ 5 ≠ Graph.entry ∧ g.predecessors 5 = []) ∧ 9 ∈ g.reachable 5 ∧
      ∀ r < g.size, 7 < r → g.predecessors r ≠ [] := by
    obtain rfl := Option.some.inj hg
    decide +kernel
  obtain ⟨-, hloops⟩ := Program.backEdges_exact Guarded.program 0 0 hg
  refine ⟨g, hg, _, (hloops hgoto _ hedge rfl).2.mpr ?_, rfl, 5, Graph.isStray_iff.mpr hstray,
    (Graph.mem_reachable (graph_closed hg) hstray.1).mp hreach⟩
  intro r path hr hlt _
  obtain ⟨hsize, -, hnone⟩ := Graph.isStray_iff.mp hr
  exact absurd hnone (hbehind r hsize hlt)

namespace Buried

open Tour in
/-- A loop with such a guard inside. -/
def program : Program where
  code := .row
    [ sign "\x7b" (some 19),
      word "while", sign "(" (some 4), word "a", sign ")" (some 2), sign "\x7b" (some 18),
      word "if", sign "(" (some 9), word "b", sign ")" (some 7), sign "\x7b" (some 15),
      word "return", sign ";", word "x", sign ";", sign "\x7d" (some 10),
      word "y", sign ";", sign "\x7d" (some 5), sign "\x7d" (some 0) ]
  functions := [⟨some "main", some "1"⟩]
  scopes := [{ isFunction := true, function := some 0, bodyStart := some 0, bodyEnd := some 19 }]

end Buried

/-- The loop goes round, and its head is on every path from the entry to its end; still no edge is listed. -/
theorem Program.loop_unlisted : ∃ g, Buried.program.graph? 0 0 = some g ∧
    (∀ e ∈ g.edges, e.kind ≠ .goto) ∧
    ∃ e ∈ g.edges, e.kind = .backEdge ∧ g.Reaches Graph.entry e.src ∧
      (∀ path, g.Path Graph.entry path e.src → e.dst ∈ path) ∧ e ∉ g.backEdges := by
  obtain ⟨g, hg⟩ : ∃ g, Buried.program.graph? 0 0 = some g := ⟨_, rfl⟩
  obtain ⟨hgoto, hedge, hreach, hback⟩ : (∀ e ∈ g.edges, e.kind ≠ .goto) ∧
      (⟨9, 3, .backEdge, none⟩ : Edge) ∈ g.edges ∧ 9 ∈ g.reachable Graph.entry ∧
      (⟨9, 3, .backEdge, none⟩ : Edge) ∉ g.backEdges := by
    obtain rfl := Option.some.inj hg
    decide +kernel
  have hclosed := graph_closed hg
  obtain ⟨stop, hcloses⟩ := graph_closes hg hgoto hedge rfl
  exact ⟨g, hg, hgoto, _, hedge, rfl, (Graph.mem_reachable hclosed hclosed.entry_lt).mp hreach,
    fun _ => hcloses.mem_path hcloses.pos, hback⟩

end SignFlow

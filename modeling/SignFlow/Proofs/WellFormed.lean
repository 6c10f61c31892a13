import SignFlow.Proofs.ControlFlow
import SignFlow.Proofs.Reach

/-! The edges of a finished graph: between which blocks they go, and which kinds leave which blocks.

While a body is laid out, the blocks that something may still leave are its open parts. All others have
what their roles allow, and nothing is added to them any more. -/

namespace SignFlow

namespace EdgeKind

def isBranch : EdgeKind → Bool
  | branchTrue | branchFalse => true
  | _ => false

def isSwitch : EdgeKind → Bool
  | switchCase | switchDefault => true
  | _ => false

end EdgeKind

/-- What a block is there for decides what may leave it. -/
inductive Role
  | entry
  | exit
  | test
  | dispatch
  | plain

def Role.allows : Role → List EdgeKind → Prop
  | entry, ways => ways = [.fallThrough]
  | exit, ways => ways = []
  | test, ways => ways ∈ [[], [.branchTrue, .branchFalse], [.fallThrough]]
  | dispatch, ways => ∀ way ∈ ways, way.isSwitch
  | plain, ways => ways.length ≤ 1 ∧ ∀ way ∈ ways, ¬ way.isBranch ∧ ¬ way.isSwitch

def BlockKind.role : BlockKind → Role
  | entry => .entry
  | exit => .exit
  | ifCond | loopCond => .test
  | dispatch => .dispatch
  | _ => .plain

instance : (r : Role) → (ways : List EdgeKind) → Decidable (r.allows ways)
  | .entry, _ => inferInstanceAs (Decidable (_ = _))
  | .exit, _ => inferInstanceAs (Decidable (_ = _))
  | .test, _ => inferInstanceAs (Decidable (_ ∈ _))
  | .dispatch, ways => inferInstanceAs (Decidable (∀ way ∈ ways, way.isSwitch))
  | .plain, ways =>
    inferInstanceAs (Decidable (ways.length ≤ 1 ∧ ∀ way ∈ ways, ¬ way.isBranch ∧ ¬ way.isSwitch))

theorem Role.dispatch_allows_concat {ways : List EdgeKind} {way : EdgeKind} (h : dispatch.allows ways)
    (hway : way.isSwitch) : dispatch.allows (ways ++ [way]) := by
  intro w hw
  rcases List.mem_append.mp hw with hw | hw
  · exact h w hw
  · rw [List.mem_singleton.mp hw]
    exact hway

theorem Role.eq_test {r : Role} {ways : List EdgeKind} {way : EdgeKind} (h : r.allows ways)
    (hm : way ∈ ways) (hb : way.isBranch) : r = .test := by
  cases r with
  | test => rfl
  | entry =>
    rw [show ways = [.fallThrough] from h, List.mem_singleton] at hm
    simp [hm, EdgeKind.isBranch] at hb
  | exit =>
    rw [show ways = [] from h] at hm
    cases hm
  | dispatch =>
    have hs : way.isSwitch := h way hm
    cases way <;> simp [EdgeKind.isBranch, EdgeKind.isSwitch] at hb hs
  | plain => exact absurd hb (h.2 way hm).1

theorem Role.eq_dispatch {r : Role} {ways : List EdgeKind} {way : EdgeKind} (h : r.allows ways)
    (hm : way ∈ ways) (hs : way.isSwitch) : r = .dispatch := by
  cases r with
  | dispatch => rfl
  | entry =>
    rw [show ways = [.fallThrough] from h, List.mem_singleton] at hm
    simp [hm, EdgeKind.isSwitch] at hs
  | exit =>
    rw [show ways = [] from h] at hm
    cases hm
  | test =>
    have hways : ways = [] ∨ ways = [.branchTrue, .branchFalse] ∨ ways = [.fallThrough] := by
      simpa [allows] using h
    rcases hways with rfl | rfl | rfl <;> simp at hm
    · rcases hm with rfl | rfl <;> simp [EdgeKind.isSwitch] at hs
    · simp [hm, EdgeKind.isSwitch] at hs
  | plain => exact absurd hs (h.2 way hm).2

theorem Role.length_le_one {r : Role} {ways : List EdgeKind} (h : r.allows ways) (ht : r ≠ .test)
    (hd : r ≠ .dispatch) : ways.length ≤ 1 := by
  cases r with
  | entry => rw [show ways = [.fallThrough] from h]; exact Nat.le_refl 1
  | exit => rw [show ways = [] from h]; exact Nat.zero_le 1
  | test => exact absurd rfl ht
  | dispatch => exact absurd rfl hd
  | plain => exact h.1

theorem BlockKind.role_eq_test {kind : BlockKind} : kind.role = .test ↔ kind ∈ [.ifCond, .loopCond] := by
  cases kind <;> simp [role]

theorem BlockKind.role_eq_dispatch {kind : BlockKind} : kind.role = .dispatch ↔ kind = .dispatch := by
  cases kind <;> simp [role]

namespace Layout

def role (l : Layout) (b : Nat) : Role := (l.graph.block b).kind.role

/-- The kinds of the ways out of a block, waiting jumps last. -/
def ways (l : Layout) (b : Nat) : List EdgeKind :=
  (l.graph.leaving b).map Edge.kind ++ (l.gotos.filter fun j => j.1 == b).map fun _ => .goto

section steps

variable {l : Layout} {b c d : Nat} {kind : BlockKind} {way : EdgeKind} {text : Option String}

theorem role_fill {tokens : List Nat} (h : b < l.size) : (l.fill b tokens).role c = l.role c := by
  by_cases hb : b = c
  · subst hb
    simp [role, fill, block_change h]
  · simp [role, fill, block_change_of_ne hb]

theorem ways_wire_self (h : ∀ j ∈ l.gotos, j.1 ≠ b) : (l.wire b d way text).ways b = l.ways b ++ [way] := by
  have hnone : (l.gotos.filter fun j => j.1 == b) = [] :=
    List.filter_eq_nil_iff.mpr fun j hj => by simpa using h j hj
  simp [ways, wire, Graph.addEdge, Graph.leaving, hnone]

theorem ways_wire_of_ne (h : b ≠ c) : (l.wire b d way text).ways c = l.ways c := by
  simp [ways, wire, Graph.addEdge, Graph.leaving, h]

theorem ways_await_self {target : String} : (l.await b target).ways b = l.ways b ++ [.goto] := by
  simp [ways, await]

theorem ways_await_of_ne {target : String} (h : b ≠ c) : (l.await b target).ways c = l.ways c := by
  simp [ways, await, h]

theorem ways_resolve (l : Layout) (b : Nat) : (l.resolve.leaving b).map Edge.kind = l.ways b := by
  simp [resolve_eq, ways, Graph.leaving, List.filter_map, Function.comp_def]

end steps

/-- A block that is not finished, with the kinds of the ways that leave it so far. -/
structure Part where
  block : Nat
  role : Role
  ways : List EdgeKind := []

/-- The part is as it says, and no jump waits there. -/
structure Part.Of (o : Part) (l : Layout) : Prop where
  lt : o.block < l.size
  role : l.role o.block = o.role
  ways : l.ways o.block = o.ways
  waits : ∀ j ∈ l.gotos, j.1 ≠ o.block

/-- Everything but the open parts is finished. -/
structure Tidy (l : Layout) (parts : List Part) : Prop where
  entry : l.role Graph.entry = .entry
  exit : l.role Graph.exit = .exit
  exit_lt : Graph.exit < l.size
  edges : ∀ e ∈ l.graph.edges, e.src < l.size ∧ 0 < e.dst ∧ e.dst < l.size
  gotos : ∀ j ∈ l.gotos, j.1 < l.size
  labels : ∀ x ∈ l.labels, 0 < x.2 ∧ x.2 < l.size
  distinct : (parts.map Part.block).Nodup
  held : ∀ o ∈ parts, o.Of l
  finished : ∀ b < l.size, b ∉ parts.map Part.block → (l.role b).allows (l.ways b)

/-- The current block, where there is one, is plain, and nothing leaves it yet. -/
def live (current : Option Nat) : List Part := current.toList.map fun b => ⟨b, .plain, []⟩

namespace Tidy

variable {l : Layout} {parts parts' : List Part} {current : Option Nat} {b d n : Nat} {r : Role}
  {ways : List EdgeKind} {kind : BlockKind} {way : EdgeKind}

theorem perm (h : Tidy l parts) (hp : parts.Perm parts') : Tidy l parts' where
  entry := h.entry
  exit := h.exit
  exit_lt := h.exit_lt
  edges := h.edges
  gotos := h.gotos
  labels := h.labels
  distinct := (hp.map Part.block).nodup_iff.mp h.distinct
  held o ho := h.held o (hp.mem_iff.mpr ho)
  finished b hb hn := h.finished b hb fun hm => hn ((hp.map Part.block).mem_iff.mp hm)

theorem front (p : List Part) {o : Part} (h : Tidy l (p ++ o :: parts)) : Tidy l (o :: (p ++ parts)) :=
  h.perm List.perm_middle

theorem pos (h : Tidy l parts) : 0 < l.size := Nat.zero_lt_of_lt h.exit_lt

/-- A block that is not there yet has no ways out. -/
theorem ways_size (h : Tidy l parts) : l.ways l.size = [] := by
  have hleaving : l.graph.leaving l.size = [] :=
    List.filter_eq_nil_iff.mpr fun e he => by simpa using Nat.ne_of_lt (h.edges e he).1
  have hgotos : (l.gotos.filter fun j => j.1 == l.size) = [] :=
    List.filter_eq_nil_iff.mpr fun j hj => by simpa using Nat.ne_of_lt (h.gotos j hj)
  rw [ways, hleaving, hgotos]
  rfl

theorem add (h : Tidy l parts) (kind : BlockKind) (hn : l.size = n) :
    Tidy (l.add kind) (⟨n, kind.role, []⟩ :: parts) := by
  subst hn
  have hrole : ∀ b < l.size, (l.add kind).role b = l.role b := fun b hb => by rw [role, block_add hb]; rfl
  have hlt : ∀ {b}, b < l.size → b < (l.add kind).size := fun hb => by rw [size_add]; omega
  refine ⟨?_, ?_, hlt h.exit_lt, ?_, fun j hj => hlt (h.gotos j hj), ?_, ?_, ?_, ?_⟩
  · exact (hrole _ h.pos).trans h.entry
  · rw [hrole _ h.exit_lt, h.exit]
  · exact fun e he => ⟨hlt (h.edges e he).1, (h.edges e he).2.1, hlt (h.edges e he).2.2⟩
  · exact fun x hx => ⟨(h.labels x hx).1, hlt (h.labels x hx).2⟩
  · rw [List.map_cons, List.nodup_cons]
    refine ⟨fun hm => ?_, h.distinct⟩
    obtain ⟨o, ho, hb⟩ := List.mem_map.mp hm
    exact Nat.ne_of_lt (h.held o ho).lt hb
  · intro o ho
    rcases List.mem_cons.mp ho with rfl | ho
    · exact ⟨by simp, by rw [role, block_add_self], h.ways_size, fun j hj => Nat.ne_of_lt (h.gotos j hj)⟩
    · have hof := h.held o ho
      exact ⟨hlt hof.lt, (hrole _ hof.lt).trans hof.role, hof.ways, hof.waits⟩
  · intro b hb hm
    rw [List.map_cons, List.mem_cons, not_or] at hm
    rw [size_add] at hb
    have hb : b < l.size := Nat.lt_of_le_of_ne (Nat.le_of_lt_succ hb) hm.1
    rw [hrole b hb]
    exact h.finished b hb hm.2

/-- A part is closed with ways that its role allows. -/
theorem settle (p : List Part) (h : Tidy l (p ++ ⟨b, r, ways⟩ :: parts)) (ha : r.allows ways) :
    Tidy l (p ++ parts) := by
  replace h := h.front p
  have hof := h.held _ List.mem_cons_self
  refine ⟨h.entry, h.exit, h.exit_lt, h.edges, h.gotos, h.labels, ?_, ?_, ?_⟩
  · exact (List.nodup_cons.mp h.distinct).2
  · exact fun o ho => h.held o (List.mem_cons_of_mem _ ho)
  · intro c hc hm
    by_cases hb : c = b
    · subst hb
      rw [hof.role, hof.ways]
      exact ha
    · exact h.finished c hc (by rw [List.map_cons, List.mem_cons, not_or]; exact ⟨hb, hm⟩)

theorem wire (p : List Part) (h : Tidy l (p ++ ⟨b, r, ways⟩ :: parts)) (d : Nat) (way : EdgeKind)
    (hd : 0 < d ∧ d < l.size) (text : Option String := none) :
    Tidy (l.wire b d way text) (p ++ ⟨b, r, ways ++ [way]⟩ :: parts) := by
  replace h := h.front p
  refine perm ?_ List.perm_middle.symm
  have hof := h.held _ List.mem_cons_self
  refine ⟨h.entry, h.exit, h.exit_lt, ?_, h.gotos, h.labels, h.distinct, ?_, ?_⟩
  · intro e he
    rcases List.mem_append.mp he with he | he
    · exact h.edges e he
    · rw [List.mem_singleton.mp he]
      exact ⟨hof.lt, hd⟩
  · intro o ho
    rcases List.mem_cons.mp ho with rfl | ho
    · exact ⟨hof.lt, hof.role, (ways_wire_self hof.waits).trans (by rw [hof.ways]), hof.waits⟩
    · have hne : b ≠ o.block := fun hb =>
        (List.nodup_cons.mp h.distinct).1 (List.mem_map.mpr ⟨o, ho, hb.symm⟩)
      have hof := h.held o (List.mem_cons_of_mem _ ho)
      exact ⟨hof.lt, hof.role, (ways_wire_of_ne hne).trans hof.ways, hof.waits⟩
  · intro c hc hm
    have hne : b ≠ c := fun hb => hm (hb ▸ List.mem_cons_self)
    rw [ways_wire_of_ne hne]
    exact h.finished c hc hm

theorem fill (h : Tidy l parts) (b : Nat) (tokens : List Nat) (hb : b < l.size) :
    Tidy (l.fill b tokens) parts := by
  refine ⟨?_, ?_, ?_, ?_, ?_, ?_, h.distinct, ?_, ?_⟩
  · exact (role_fill hb).trans h.entry
  · exact (role_fill hb).trans h.exit
  · rw [size_fill]; exact h.exit_lt
  · rw [size_fill]; exact h.edges
  · rw [size_fill]; exact h.gotos
  · rw [size_fill]; exact h.labels
  · intro o ho
    have hof := h.held o ho
    exact ⟨size_fill.symm ▸ hof.lt, (role_fill hb).trans hof.role, hof.ways, hof.waits⟩
  · intro c hc hm
    rw [size_fill] at hc
    rw [role_fill hb]
    exact h.finished c hc hm

theorem mark (h : Tidy l parts) (hb : 0 < b ∧ b < l.size) {name : String} :
    Tidy (l.mark name b) parts := by
  refine ⟨h.entry, h.exit, h.exit_lt, h.edges, h.gotos, ?_, h.distinct, ?_, h.finished⟩
  · intro x hx
    rcases List.mem_cons.mp hx with rfl | hx
    · exact hb
    · exact h.labels x hx
  · exact fun o ho => ⟨(h.held o ho).lt, (h.held o ho).role, (h.held o ho).ways, (h.held o ho).waits⟩

theorem await (h : Tidy l (⟨b, .plain, []⟩ :: parts)) {target : String} : Tidy (l.await b target) parts := by
  have hof := h.held _ List.mem_cons_self
  have hnodup := List.nodup_cons.mp h.distinct
  have hgoto : ∀ j ∈ (l.await b target).gotos, j ∈ l.gotos ∨ j.1 = b := by
    intro j hj
    rcases List.mem_append.mp hj with hj | hj
    · exact .inl hj
    · exact .inr (congrArg Prod.fst (List.mem_singleton.mp hj))
  refine ⟨h.entry, h.exit, h.exit_lt, h.edges, ?_, h.labels, hnodup.2, ?_, ?_⟩
  · intro j hj
    rcases hgoto j hj with hj | hj
    · exact h.gotos j hj
    · exact hj ▸ hof.lt
  · intro o ho
    have hne : b ≠ o.block := fun hb => hnodup.1 (List.mem_map.mpr ⟨o, ho, hb.symm⟩)
    have hof := h.held o (List.mem_cons_of_mem _ ho)
    refine ⟨hof.lt, hof.role, (ways_await_of_ne hne).trans hof.ways, fun j hj => ?_⟩
    rcases hgoto j hj with hj | hj
    · exact hof.waits j hj
    · exact hj ▸ hne
  · intro c hc hm
    show (l.role c).allows _
    by_cases hb : b = c
    · subst hb
      rw [hof.role, ways_await_self, hof.ways]
      show Role.plain.allows [.goto]
      decide
    · rw [ways_await_of_ne hb]
      refine h.finished c hc ?_
      rw [List.map_cons, List.mem_cons, not_or]
      exact ⟨Ne.symm hb, hm⟩

/-- A plain block is neither the entry nor the exit. -/
theorem exit_lt_plain (h : Tidy l (⟨b, .plain, ways⟩ :: parts)) : Graph.exit < b := by
  have hof : l.role b = .plain := (h.held _ List.mem_cons_self).role
  have hentry : b ≠ Graph.entry := by
    rintro rfl
    rw [h.entry] at hof
    cases hof
  have hexit : b ≠ Graph.exit := by
    rintro rfl
    rw [h.exit] at hof
    cases hof
  simp only [Graph.entry, Graph.exit] at *
  omega

theorem turn (h : Tidy l (⟨b, r, ways⟩ :: parts)) (hb : Graph.exit < b) :
    Tidy (l.turn b kind) (⟨b, kind.role, ways⟩ :: parts) := by
  have hof := h.held _ List.mem_cons_self
  have hrole : ∀ c, b ≠ c → (l.turn b kind).role c = l.role c := fun c hc => by
    rw [role, Layout.turn, block_change_of_ne hc]
    rfl
  refine ⟨?_, ?_, ?_, ?_, ?_, ?_, h.distinct, ?_, ?_⟩
  · rw [hrole _ (Nat.ne_of_gt (Nat.lt_trans (by decide) hb)), h.entry]
  · rw [hrole _ (Nat.ne_of_gt hb), h.exit]
  · rw [size_turn]; exact h.exit_lt
  · rw [size_turn]; exact h.edges
  · rw [size_turn]; exact h.gotos
  · rw [size_turn]; exact h.labels
  · intro o ho
    rcases List.mem_cons.mp ho with rfl | ho
    · exact ⟨size_turn.symm ▸ hof.lt, by rw [role, Layout.turn, block_change hof.lt], hof.ways, hof.waits⟩
    · have hne : b ≠ o.block := fun hb =>
        (List.nodup_cons.mp h.distinct).1 (List.mem_map.mpr ⟨o, ho, hb.symm⟩)
      have hof := h.held o (List.mem_cons_of_mem _ ho)
      exact ⟨size_turn.symm ▸ hof.lt, (hrole _ hne).trans hof.role, hof.ways, hof.waits⟩
  · intro c hc hm
    rw [size_turn] at hc
    rw [hrole c fun hb => hm (hb ▸ List.mem_cons_self)]
    exact h.finished c hc hm

theorem lead (p : List Part) (h : Tidy l (p ++ (live current ++ parts))) (d : Nat) (way : EdgeKind)
    (hw : Role.plain.allows [way]) (hd : 0 < d ∧ d < l.size) : Tidy (l.lead current d way) (p ++ parts) := by
  cases current with
  | none => exact h
  | some b => exact (h.wire p d way hd).settle p hw

theorem behind (current : Option Nat) (h : Tidy l (live current ++ parts)) (kind : BlockKind)
    (tokens : List Nat) (hn : l.size = n) :
    Tidy (l.behind current kind tokens) (⟨n, kind.role, []⟩ :: parts) := by
  have hd : 0 < l.size ∧ l.size < (l.add kind).size :=
    ⟨h.pos, by simp⟩
  refine ((h.add kind hn).lead [_] l.size .fallThrough ?_ hd).fill _ _ ?_
  · decide
  · simp

theorem ensure (h : Tidy l (live current ++ parts)) :
    Tidy (l.ensure current) (live (some (current.getD l.size)) ++ parts) := by
  cases current with
  | none => exact h.add .unreachable rfl
  | some b => exact h

theorem leap (h : Tidy l (live current ++ parts)) {pos : Nat} (hw : Role.plain.allows [way])
    (hd : 0 < d ∧ d < l.size) : Tidy (l.leap current pos d way) parts := by
  cases current with
  | none => exact h
  | some b =>
    have hb := (h.held _ List.mem_cons_self).lt
    exact ((h.fill b _ hb).wire [] d way (by rwa [size_fill])).settle [] hw

theorem leapTo (h : Tidy l (live current ++ parts)) {pos : Nat} {target : String} :
    Tidy (l.leapTo current pos target) parts := by
  cases current with
  | none => exact h
  | some b => exact (h.fill b _ (h.held _ List.mem_cons_self).lt).await

theorem quit (h : Tidy l (⟨b, r, []⟩ :: parts)) (hb : Graph.exit < b) : Tidy (l.quit b) parts := by
  have hexit : 0 < Graph.exit ∧ Graph.exit < (l.turn b .returns).size := by
    rw [size_turn]
    exact ⟨by decide, h.exit_lt⟩
  exact ((h.turn hb).wire [] Graph.exit .returns hexit).settle [] (by decide)

theorem branch (p : List Part) {body after : Nat} (h : Tidy l (p ++ ⟨b, .test, []⟩ :: parts))
    (test : List Nat) (hbody : 0 < body ∧ body < l.size) (hafter : 0 < after ∧ after < l.size) :
    Tidy (l.branch test b body after) (p ++ parts) := by
  unfold Layout.branch
  split
  · exact (h.wire p body .fallThrough hbody).settle p (by decide)
  · exact ((h.wire p body .branchTrue hbody).wire p after .branchFalse hafter).settle p (by decide)

theorem bypass (h : Tidy l (⟨b, .dispatch, ways⟩ :: parts)) (hways : Role.dispatch.allows ways)
    {hasDefault : Bool} (hd : 0 < d ∧ d < l.size) : Tidy (l.bypass hasDefault b d) parts := by
  cases hasDefault with
  | true => exact h.settle [] hways
  | false => exact (h.wire [] d .switchDefault hd).settle [] (Role.dispatch_allows_concat hways rfl)

end Tidy

/-- Jumps out of the statements go to blocks that are there, behind the entry. -/
structure Within (targets : Targets) (n : Nat) : Prop where
  leave : ∀ d ∈ targets.leave, 0 < d ∧ d < n
  next : ∀ d ∈ targets.next, 0 < d ∧ d < n

theorem Within.mono {targets : Targets} {m n : Nat} (h : Within targets m) (hn : m ≤ n) :
    Within targets n :=
  ⟨fun d hd => ⟨(h.leave d hd).1, Nat.lt_of_lt_of_le (h.leave d hd).2 hn⟩,
    fun d hd => ⟨(h.next d hd).1, Nat.lt_of_lt_of_le (h.next d hd).2 hn⟩⟩

theorem Within.of_lt {a b n : Nat} (ha : 0 < a ∧ a < n) (hb : 0 < b ∧ b < n) :
    Within ⟨some a, some b⟩ n :=
  ⟨fun _ hd => Option.mem_some.mp hd ▸ ha, fun _ hd => Option.mem_some.mp hd ▸ hb⟩

theorem Within.inside {targets : Targets} {a m n : Nat} (h : Within targets m) (ha : 0 < a ∧ a < n)
    (hn : m ≤ n) : Within ⟨some a, targets.next⟩ n :=
  ⟨fun _ hd => Option.mem_some.mp hd ▸ ha, (h.mono hn).next⟩

theorem Within.leave_getD {targets : Targets} {n : Nat} (h : Within targets n) (hn : Graph.exit < n) :
    0 < targets.leave.getD Graph.exit ∧ targets.leave.getD Graph.exit < n := by
  rcases targets with ⟨_ | d, _⟩
  · exact ⟨Nat.one_pos, hn⟩
  · exact h.leave d rfl

theorem Within.next_getD {targets : Targets} {n : Nat} (h : Within targets n) (hn : Graph.exit < n) :
    0 < targets.next.getD Graph.exit ∧ targets.next.getD Graph.exit < n := by
  rcases targets with ⟨_, _ | d⟩
  · exact ⟨Nat.one_pos, hn⟩
  · exact h.next d rfl

/-- Doing a job closes the current block and what it adds, up to the block control ends in; the inside of
a switch adds ways out of its dispatch. -/
def Job.Tidies : Job → Option Nat → Layout → Option Nat → Layout → Prop
  | .stmts _ targets, current, l, last, l' => ∀ parts, Within targets l.size →
      Tidy l (live current ++ parts) → Tidy l' (live last ++ parts)
  | .arms _ dispatch targets, current, l, last, l' => ∀ parts ways, Within targets l.size →
      Role.dispatch.allows ways → Tidy l (live current ++ ⟨dispatch, .dispatch, ways⟩ :: parts) →
      ∃ ways', Role.dispatch.allows ways' ∧ Tidy l' (live last ++ ⟨dispatch, .dispatch, ways'⟩ :: parts)

theorem Makes.tidies {job : Job} {current last : Option Nat} {l l' : Layout}
    (h : Makes job current l last l') : job.Tidies current l last l' := by
  -- the parts are the unfinished blocks of the constructs around, which a job hands back as they were
  induction h with
  | done => exact fun _ _ ht => ht
  | token _ ih =>
    intro parts hw ht
    have hensure := ht.ensure
    refine ih parts (hw.mono ?_) (hensure.fill _ _ (hensure.held _ List.mem_cons_self).lt)
    rw [size_fill]
    exact size_le_ensure
  | label _ ih =>
    intro parts hw ht
    exact ih parts (hw.mono (by simp)) ((ht.behind _ .label [] rfl).mark ⟨ht.pos, by simp⟩)
  | returnsHere _ ih =>
    intro parts hw ht
    have hlt := (ht.held _ List.mem_cons_self).lt
    exact ih parts (hw.mono (by simp)) ((ht.fill _ _ hlt).quit ht.exit_lt_plain)
  | returnsBehind _ ih =>
    intro parts hw ht
    exact ih parts (hw.mono (by simp)) ((ht.behind _ _ _ rfl).quit ht.exit_lt)
  | leave _ ih =>
    intro parts hw ht
    exact ih parts (hw.mono (by simp)) (ht.leap (by decide) (hw.leave_getD ht.exit_lt))
  | next _ ih =>
    intro parts hw ht
    exact ih parts (hw.mono (by simp)) (ht.leap (by decide) (hw.next_getD ht.exit_lt))
  | goto _ ih =>
    intro parts hw ht
    exact ih parts (hw.mono (by simp)) ht.leapTo
  | block hinner _ ihinner ih =>
    intro parts hw ht
    exact ih parts (hw.mono hinner.size_le) (ihinner parts hw ht)
  | ifOnly =>
    intro parts _ ht
    exact (ht.behind _ .ifCond _ rfl).settle [] (by decide)
  | @ifThen test yes rest targets current l middle l₁ last l' hyes _ ihyes ih =>
    intro parts hw ht
    have hle := hyes.size_le
    simp only [size_wire, size_add, size_behind] at hle
    have hcond := (ht.behind _ .ifCond test rfl).add .ifTrue size_behind
    have hmiddle := ihyes _ (hw.mono (by simp; omega)) (hcond.wire [_] (l.size + 1) .branchTrue (by simp))
    have hmerge := (hmiddle.add .ifMerge rfl).wire (_ :: live middle) l₁.size .branchFalse
      (by rw [size_add]; omega)
    refine ih parts (hw.mono (by simp; omega)) ?_
    exact (hmerge.settle (_ :: live middle) (by decide)).lead [_] l₁.size .fallThrough (by decide)
      (by rw [size_wire, size_add]; omega)
  | @ifElse test yes no rest targets current l middle l₁ other l₂ last l' hyes hno _ ihyes ihno ih =>
    intro parts hw ht
    have hle₁ := hyes.size_le
    have hle₂ := hno.size_le
    simp only [size_wire, size_add, size_behind] at hle₁ hle₂
    have hcond := (ht.behind _ .ifCond test rfl).add .ifTrue size_behind
    have hmiddle := ihyes _ (hw.mono (by simp; omega)) (hcond.wire [_] (l.size + 1) .branchTrue (by simp))
    have hfalse := (hmiddle.add .ifFalse rfl).wire (_ :: live middle) l₁.size .branchFalse
      (by rw [size_add]; omega)
    have hother := ihno (live middle ++ parts) (hw.mono (by simp; omega))
      (hfalse.settle (_ :: live middle) (by decide))
    have hmerge := ((hother.add .ifMerge rfl).lead (_ :: live other) l₂.size .fallThrough (by decide)
      (by rw [size_add]; omega)).lead [_] l₂.size .fallThrough (by decide)
      (by rw [size_lead, size_add]; omega)
    refine ih parts (hw.mono (by simp; omega)) ?_
    split
    · exact hmerge.settle [] (by decide)
    · exact hmerge
  | @whileDo test inner rest targets current l middle l₁ last l' hinner _ ihinner ih =>
    intro parts hw ht
    have hle := hinner.size_le
    have hpos := ht.pos
    simp only [size_wire, size_add, size_behind] at hle
    have hadd := ((ht.behind _ .loopCond test rfl).add .whileAfter size_behind).add .loopBody
      (n := l.size + 2) (by simp)
    have hcond := (hadd.wire [_, _] (l.size + 2) .branchTrue (by simp)).wire [_, _] (l.size + 1)
      .branchFalse (by simp)
    have hmiddle := ihinner (⟨l.size + 1, .plain, []⟩ :: parts) (.of_lt (by simp) (by simp; omega))
      (hcond.settle [_, _] (by decide))
    exact ih parts (hw.mono (by simp; omega)) (hmiddle.lead [] l.size .backEdge (by decide) (by omega))
  | @doWhile inner test rest targets current l middle l₁ last l' hinner _ ihinner ih =>
    intro parts hw ht
    have hle := hinner.size_le
    have hpos := ht.pos
    simp only [size_add, size_behind] at hle
    have hadd := ((ht.behind _ .loopBody [] rfl).add .loopCond size_behind).add .doAfter (n := l.size + 2)
      (by simp)
    have hmiddle := ihinner _ (.of_lt (by simp) (by simp)) (hadd.front [_, _])
    have htest := (hmiddle.lead [] (l.size + 1) .fallThrough (by decide) (by omega)).fill (l.size + 1)
      test (by simp; omega)
    have hcond := (htest.wire [_] l.size .branchTrue (by simp; omega)).wire [_] (l.size + 2)
      .branchFalse (by simp; omega)
    exact ih parts (hw.mono (by simp; omega)) (hcond.settle [_] (by decide))
  | @forDo init test step inner rest targets current l middle l₁ last l' hinner _ ihinner ih =>
    intro parts hw ht
    have hle := hinner.size_le
    have hpos := ht.pos
    simp only [size_add, size_behind, size_branch] at hle
    have hinit := (ht.behind _ .forInit init rfl).behind (some l.size) .loopCond test size_behind
    have hstep := hinit.behind none .forStep step (n := l.size + 2) (by simp)
    have hadd := (hstep.add .forAfter (n := l.size + 3) (by simp)).add .loopBody (n := l.size + 4) (by simp)
    have hmiddle := ihinner _ (.of_lt (by simp) (by simp))
      (hadd.branch [_, _, _] test (by simp) (by simp))
    have hnext := (hmiddle.lead [] (l.size + 2) .fallThrough (by decide) (by omega)).wire [_] (l.size + 1)
      .backEdge (by simp; omega)
    exact ih parts (hw.mono (by simp; omega)) (hnext.settle [_] (by decide))
  | @switch test inside rest targets current l middle l₁ last l' hinside _ ihinside ih =>
    intro parts hw ht
    have hle := hinside.size_le
    simp only [size_add, size_behind] at hle
    have hadd := (ht.behind _ .dispatch test rfl).add .switchAfter size_behind
    obtain ⟨ways, hways, hmiddle⟩ := ihinside _ [] (hw.inside (by simp) (by simp; omega))
      (by decide) (hadd.front [_])
    have hafter := hmiddle.lead [] (l.size + 1) .fallThrough (by decide) (by omega)
    exact ih parts (hw.mono (by simp; omega)) (hafter.bypass hways (by simp; omega))
  | @bareSwitch test rest targets current l last l' _ ih =>
    intro parts hw ht
    have hadd := (ht.behind _ .dispatch test rfl).add .switchAfter size_behind
    have hcond := hadd.wire [_] (l.size + 1) .switchDefault (by simp)
    exact ih parts (hw.mono (by simp; omega)) (hcond.settle [_] (by decide))
  | armsDone => exact fun _ ways _ hways ht => ⟨ways, hways, ht⟩
  | @armsCase label ahead dispatch targets current l last l' _ ih =>
    intro parts ways hw hways ht
    have hcase := (ht.add .caseLabel rfl).wire (_ :: live current) l.size .switchCase
      ⟨ht.pos, by simp⟩ (some label)
    exact ih parts _ (hw.mono (by simp)) (Role.dispatch_allows_concat hways rfl)
      (hcase.lead [_] l.size .fallThrough (by decide) ⟨ht.pos, by simp⟩)
  | @armsDefault ahead dispatch targets current l last l' _ ih =>
    intro parts ways hw hways ht
    have hdefault := (ht.add .defaultLabel rfl).wire (_ :: live current) l.size .switchDefault
      ⟨ht.pos, by simp⟩
    exact ih parts _ (hw.mono (by simp)) (Role.dispatch_allows_concat hways rfl)
      (hdefault.lead [_] l.size .fallThrough (by decide) ⟨ht.pos, by simp⟩)
  | @armsStmts inner ahead dispatch targets current l middle l₁ last l' hinner _ ihinner ih =>
    intro parts ways hw hways ht
    have hw' : Within targets (l.ensure current).size := hw.mono size_le_ensure
    exact ih parts ways (hw'.mono hinner.size_le) hways (ihinner _ hw' ht.ensure)

theorem opening_tidy (function : Option String) (firstId : Nat) :
    Tidy (opening function firstId) (live (some 2)) := by
  have hblank : Tidy { graph := { function := function, firstId := firstId } } [⟨0, .entry, []⟩] := by
    refine ⟨rfl, rfl, Nat.lt_succ_self 1, by simp, by simp, by simp, by simp, ?_, ?_⟩
    · intro o ho
      rw [List.mem_singleton.mp ho]
      exact ⟨Nat.two_pos, rfl, rfl, by simp⟩
    · intro b hb hm
      have hb : b < 2 := hb
      have hm : b ≠ 0 := by simpa using hm
      obtain rfl : b = 1 := by omega
      exact rfl
  have hadd := hblank.add .body (n := 2) rfl
  exact (hadd.wire [_] 2 .fallThrough ⟨Nat.two_pos, Nat.lt_succ_self 2⟩).settle [_] (by decide)

end Layout

theorem Stmts.layout_tidy (body : Stmts) (function : Option String) (firstId : Nat) :
    Layout.Tidy (body.layout function firstId) [] := by
  obtain ⟨last, l', hmakes, hlayout⟩ := body.layout_makes function firstId
  have htargets : Layout.Within {} (Layout.opening function firstId).size := ⟨by simp, by simp⟩
  have htidy := hmakes.tidies [] htargets (Layout.opening_tidy function firstId)
  rw [hlayout]
  exact htidy.lead [] Graph.exit .fallThrough (by decide) ⟨by decide, htidy.exit_lt⟩

/-- What holds of the blocks and edges of every graph of a function. Three of the parts, `ids`, `leaving` and
`entering`, hold of any graph by its representation: a block's id is its position counted from the first id,
and the edges at a block are looked up in the one list of edges, not stored with it. The others are what the
layout keeps. -/
structure Graph.WellFormed (g : Graph) : Prop where
  ends : ∀ e ∈ g.edges, e.src < g.size ∧ e.dst < g.size
  ids : (g.positions.map g.idOf).Nodup
  leaving : ∀ n, g.leaving n = g.edges.filter fun e => e.src = n
  entering : ∀ n, g.entering n = g.edges.filter fun e => e.dst = n
  entry : g.entering entry = [] ∧ (g.leaving entry).length = 1
  exit : g.leaving exit = []
  tests : ∀ n < g.size, (g.block n).kind ∈ [.ifCond, .loopCond] →
    (g.leaving n).map Edge.kind ∈ [[], [.branchTrue, .branchFalse], [.fallThrough]]
  branches : ∀ e ∈ g.edges, e.kind.isBranch → (g.block e.src).kind ∈ [.ifCond, .loopCond]
  switches : ∀ e ∈ g.edges, e.kind.isSwitch → (g.block e.src).kind = .dispatch
  others : ∀ n < g.size, (g.block n).kind ∉ [.ifCond, .loopCond, .dispatch] → (g.leaving n).length ≤ 1

namespace Layout.Tidy

variable {l : Layout}

theorem resolve_ends (h : Tidy l []) {e : Edge} (he : e ∈ l.resolve.edges) :
    e.src < l.size ∧ 0 < e.dst ∧ e.dst < l.size := by
  rw [resolve_eq] at he
  rcases List.mem_append.mp he with he | he
  · exact h.edges e he
  · obtain ⟨j, hj, rfl⟩ := List.mem_map.mp he
    refine ⟨h.gotos j hj, ?_⟩
    show 0 < l.target j.2 ∧ l.target j.2 < l.size
    unfold target
    cases hlook : l.labels.lookup j.2 with
    | none => exact ⟨Nat.one_pos, h.exit_lt⟩
    | some b =>
      obtain ⟨before, behind, heq, -⟩ := List.lookup_eq_some_iff.mp hlook
      exact h.labels (j.2, b) (by simp [heq])

theorem resolve_allows (h : Tidy l []) {n : Nat} (hn : n < l.resolve.size) :
    (l.resolve.block n).kind.role.allows ((l.resolve.leaving n).map Edge.kind) := by
  rw [resolve_size] at hn
  rw [resolve_block, ways_resolve]
  exact h.finished n hn (by simp)

theorem wellFormed (h : Tidy l []) : l.resolve.WellFormed := by
  have hsize := l.resolve_size
  have hway : ∀ e ∈ l.resolve.edges, (l.resolve.block e.src).kind.role.allows
      ((l.resolve.leaving e.src).map Edge.kind) ∧ e.kind ∈ (l.resolve.leaving e.src).map Edge.kind :=
    fun e he => ⟨h.resolve_allows (hsize ▸ (h.resolve_ends he).1),
      List.mem_map_of_mem (Graph.mem_leaving.mpr ⟨he, rfl⟩)⟩
  have hrole : ∀ n, (l.resolve.block n).kind.role = l.role n := fun n => by rw [resolve_block]; rfl
  have hentry := h.resolve_allows (hsize ▸ h.pos)
  have hexit := h.resolve_allows (hsize ▸ h.exit_lt)
  rw [hrole] at hentry hexit
  refine ⟨?_, ?_, ?_, ?_, ⟨?_, ?_⟩, ?_, ?_, ?_, ?_, ?_⟩
  · intro e he
    rw [hsize]
    exact ⟨(h.resolve_ends he).1, (h.resolve_ends he).2.2⟩
  · exact List.nodup_range.map fun _ _ => Nat.add_left_cancel
  · exact fun _ => rfl
  · exact fun _ => rfl
  · exact List.filter_eq_nil_iff.mpr fun e he => by
      simpa [Graph.entry] using Nat.ne_of_gt (h.resolve_ends he).2.1
  · have hways : (l.resolve.leaving Graph.entry).map Edge.kind = [.fallThrough] := by
      rwa [show l.role 0 = .entry from h.entry] at hentry
    rw [← List.length_map, hways]
    rfl
  · have hways : (l.resolve.leaving Graph.exit).map Edge.kind = [] := by rwa [h.exit] at hexit
    exact List.map_eq_nil_iff.mp hways
  · intro n hn hkind
    have hallows := h.resolve_allows hn
    rwa [BlockKind.role_eq_test.mpr hkind] at hallows
  · exact fun e he hb => BlockKind.role_eq_test.mp (Role.eq_test (hway e he).1 (hway e he).2 hb)
  · exact fun e he hs => BlockKind.role_eq_dispatch.mp (Role.eq_dispatch (hway e he).1 (hway e he).2 hs)
  · intro n hn hkind
    rw [← List.length_map]
    refine Role.length_le_one (h.resolve_allows hn) (fun ht => hkind ?_) fun hd => hkind ?_
    · exact List.mem_append_left [.dispatch] (BlockKind.role_eq_test.mp ht)
    · simp [BlockKind.role_eq_dispatch.mp hd]

end Layout.Tidy

/-- Whatever the tokens of a function are, its graph is well formed. -/
theorem Program.graph_wellFormed (p : Program) (k firstId : Nat) {g : Graph}
    (h : p.graph? k firstId = some g) : g.WellFormed := by
  obtain ⟨body, name, rfl⟩ := p.exists_body k firstId h
  exact (body.layout_tidy name firstId).wellFormed

namespace Scrap

/-- An unclosed condition before a jump out of nowhere; no bracket is linked. -/
def program : Program where
  code := .row
    [Tour.sign "\x7b", Tour.word "if", Tour.sign "(", Tour.word "a", Tour.word "break", Tour.word "case",
      Tour.sign "\x7d"]
  functions := [⟨some "main", some "1"⟩]
  scopes := [{ isFunction := true, function := some 0, bodyStart := some 0, bodyEnd := some 6 }]

end Scrap

theorem Program.graph_wellFormed_scrap : ∃ g, Scrap.program.graph? 0 0 = some g ∧ g.WellFormed :=
  ⟨_, rfl, Program.graph_wellFormed Scrap.program 0 0 rfl⟩

end SignFlow

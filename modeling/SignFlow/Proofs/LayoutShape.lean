import SignFlow.Proofs.Construction
import SignFlow.Proofs.Laying
import SignFlow.Proofs.Walks

/-! The graph of a body: its paths from the entry to the exit show exactly the body's executions. -/

namespace SignFlow

namespace Layout

/-- The ways out of all blocks, with waiting jumps led to the blocks that labels will have. -/
def exits (label : String → Nat) (l : Layout) : List (Nat × List Event × Nat) :=
  l.graph.edges.map (fun e => (e.src, e.kind.events e.label, e.dst)) ++
    l.gotos.map fun j => (j.1, [], label j.2)

def view (label : String → Nat) (l : Layout) : View where
  size := l.graph.size
  tokens b := (l.graph.block b).tokens
  ways b := {w | (b, w) ∈ l.exits label}
  names := l.labels

section view

variable {label : String → Nat} {l l' : Layout} {b d : Nat}

theorem view_add (kind : BlockKind) : (l.add kind).view label = (l.view label).fresh := by
  refine View.ext ?_ (funext fun b => ?_) rfl rfl
  · simp [view, add, Graph.addBlock, Graph.size]
  · simp only [view, add, Graph.addBlock, Graph.block, View.tokens_fresh,
      List.getD_eq_getElem?_getD]
    rcases Nat.lt_trichotomy b l.graph.blocks.length with h | h | h
    · rw [List.getElem?_append_left h]
    · subst h
      simp
    · rw [List.getElem?_eq_none (by simp; omega), List.getElem?_eq_none h.le]

theorem view_connect {w : List Event × Nat} (hblocks : l'.graph.blocks = l.graph.blocks)
    (hlabels : l'.labels = l.labels)
    (h : ∀ x, x ∈ l'.exits label ↔ x ∈ l.exits label ∨ x = (b, w)) :
    l'.view label = (l.view label).connect b w := by
  refine View.ext ?_ (funext fun c => ?_) (funext fun c => Set.ext fun w' => ?_) hlabels
  · exact congrArg List.length hblocks
  · exact congrArg (fun blocks : List Block => (blocks.getD c _).tokens) hblocks
  · refine (h (c, w')).trans ?_
    by_cases hc : c = b
    · subst hc
      rw [View.ways_connect_self, Set.mem_insert_iff, or_comm, Prod.mk.injEq, eq_self, true_and]
      rfl
    · rw [View.ways_connect_of_ne hc, Prod.mk.injEq, or_iff_left fun he => hc he.1]
      rfl

theorem view_wire (way : EdgeKind) (text : Option String) :
    (l.wire b d way text).view label = (l.view label).connect b (way.events text, d) := by
  refine view_connect rfl rfl fun x => ?_
  simp only [exits, wire, Graph.addEdge, List.map_append, List.map_cons, List.map_nil, List.mem_append,
    List.mem_singleton]
  exact or_right_comm

theorem view_await (target : String) :
    (l.await b target).view label = (l.view label).connect b ([], label target) := by
  refine view_connect rfl rfl fun x => ?_
  simp only [exits, await, List.map_append, List.map_cons, List.map_nil, List.mem_append,
    List.mem_singleton]
  exact or_assoc.symm

theorem view_change (f : Block → Block) (c : Nat) :
    ((l.change b f).view label).tokens c =
      if b = c ∧ b < l.graph.size then (f (l.graph.block c)).tokens else (l.view label).tokens c := by
  simp only [view, change, Graph.block, Graph.size, List.getD_eq_getElem?_getD, List.getElem?_modify]
  by_cases hb : b = c
  · subst hb
    by_cases hlt : b < l.graph.blocks.length
    · simp [hlt]
    · simp [hlt]
  · simp [hb]

theorem view_fill (tokens : List Nat) :
    (l.fill b tokens).view label = (l.view label).append b tokens := by
  refine View.ext (by simp [view, fill, change, Graph.size]) (funext fun c => ?_) rfl rfl
  rw [fill, view_change]
  rfl

theorem view_turn (kind : BlockKind) : (l.turn b kind).view label = l.view label := by
  refine View.ext (by simp [view, turn, change, Graph.size]) (funext fun c => ?_) rfl rfl
  rw [turn, view_change]
  split <;> rfl

theorem view_lead {current : Option Nat} {way : EdgeKind} (hw : way.events none = []) :
    (l.lead current d way).view label = (l.view label).link current d := by
  cases current with
  | none => rfl
  | some b => exact (view_wire way none).trans (by rw [hw]; rfl)

theorem view_behind {current : Option Nat} (kind : BlockKind) (tokens : List Nat) :
    (l.behind current kind tokens).view label = (l.view label).behind current tokens := by
  rw [behind, view_fill, view_lead rfl, view_add]
  rfl

theorem view_ensure {current : Option Nat} :
    (l.ensure current).view label = (l.view label).here current := by
  cases current with
  | none => exact view_add .unreachable
  | some b => rfl

theorem view_leap {current : Option Nat} {pos : Nat} {way : EdgeKind} (hw : way.events none = []) :
    (l.leap current pos d way).view label = (l.view label).jump current pos d := by
  cases current with
  | none => rfl
  | some b => exact (view_wire way none).trans (by rw [hw, view_fill]; rfl)

theorem view_leapTo {current : Option Nat} {pos : Nat} (target : String) :
    (l.leapTo current pos target).view label = (l.view label).jump current pos (label target) := by
  cases current with
  | none => rfl
  | some b => exact (view_await target).trans (by rw [view_fill]; rfl)

theorem view_quit : (l.quit b).view label = (l.view label).connect b ([], Graph.exit) := by
  rw [quit, view_wire, view_turn]
  rfl

theorem view_branch {test : List Nat} {cond body after : Nat} :
    (l.branch test cond body after).view label = (l.view label).guard test cond body after := by
  unfold branch View.guard
  split
  · exact view_wire _ none
  · rw [view_wire, view_wire]
    rfl

theorem view_bypass {hasDefault : Bool} {dispatch after : Nat} :
    (l.bypass hasDefault dispatch after).view label =
      (l.view label).pass hasDefault dispatch after := by
  cases hasDefault with
  | true => rfl
  | false => exact view_wire _ none

end view

/-- What doing a job means for the views of the layouts. -/
def Job.Lays (label : String → Nat) (labels : List String) :
    Job → Option Nat → View → Option Nat → View → Prop
  | .stmts s targets => SignFlow.Lays label labels s targets
  | .arms a dispatch targets => LaysArms label labels a targets dispatch

/-- Statements are laid out as their constructs are. -/
theorem Makes.lays {job : Job} {current last : Option Nat} {l l' : Layout} (h : Makes job current l last l')
    (label : String → Nat) (labels : List String) :
    job.Lays label labels current (l.view label) last (l'.view label) := by
  induction h with
  | done => exact .done
  | token _ ih =>
    rw [view_fill, view_ensure] at ih
    exact .token ih
  | label _ ih =>
    have hmark : ∀ (l : Layout) (name : String) (b : Nat),
      (l.mark name b).view label = (l.view label).mark name b := fun _ _ _ => rfl
    rw [hmark, view_behind] at ih
    exact .mark ih
  | returnsHere _ ih =>
    rw [view_quit, view_fill] at ih
    exact .returnsHere ih
  | returnsBehind _ ih =>
    rw [view_quit, view_behind] at ih
    exact .returnsBehind ih
  | leave _ ih =>
    rw [view_leap rfl] at ih
    exact .leave ih
  | next _ ih =>
    rw [view_leap rfl] at ih
    exact .next ih
  | goto _ ih =>
    rw [view_leapTo] at ih
    exact .goto ih
  | block _ _ ihinner ih => exact .block ihinner ih
  | ifOnly =>
    rw [view_behind]
    exact .ifOnly
  | ifThen _ _ ihyes ih =>
    rw [view_wire, view_add, view_behind] at ihyes
    rw [view_lead rfl, view_wire, view_add] at ih
    exact .ifThen ihyes ih
  | ifElse _ _ _ ihyes ihno ih =>
    rw [view_wire, view_add, view_behind] at ihyes
    rw [view_wire, view_add] at ihno
    rw [view_lead rfl, view_lead rfl, view_add] at ih
    exact .ifElse ihyes ihno ih
  | whileDo _ _ ihinner ih =>
    rw [view_wire, view_wire, view_add, view_add, view_behind] at ihinner
    rw [view_lead rfl] at ih
    exact .whileDo ihinner ih
  | doWhile _ _ ihinner ih =>
    rw [view_add, view_add, view_behind] at ihinner
    rw [view_wire, view_wire, view_fill, view_lead rfl] at ih
    exact .doWhile ihinner ih
  | forDo _ _ ihinner ih =>
    rw [view_branch, view_add, view_add, view_behind, view_behind, view_behind] at ihinner
    rw [view_wire, view_lead rfl] at ih
    exact .forDo ihinner ih
  | switch _ _ ihinside ih =>
    rw [view_add, view_behind] at ihinside
    rw [view_bypass, view_lead rfl] at ih
    exact .switch ihinside ih
  | bareSwitch _ ih =>
    rw [view_wire, view_add, view_behind] at ih
    exact .bareSwitch ih
  | armsDone => exact .done
  | armsCase _ ih =>
    rw [view_lead rfl, view_wire, view_add] at ih
    exact .caseOf ih
  | armsDefault _ ih =>
    rw [view_lead rfl, view_wire, view_add] at ih
    exact .default ih
  | armsStmts _ _ ihinner ih =>
    rw [view_ensure] at ihinner
    exact .stmts ihinner ih

end Layout

end SignFlow

import Mathlib.Data.Set.Insert
import SignFlow.Proofs.Execution

/-! What it means for statements to be laid out in a graph, and that it fixes the events.

A place is a block and a number of its tokens that are passed already. Statements lie between two
places, either of which is missing where control cannot arrive. From a place where statements lie and
what is left to do follows, the walks to the exit show exactly the events of the executions. -/

namespace SignFlow

abbrev Place := Nat × Nat

/-- The tokens of each block, the ways out of it, and the block of each label. -/
structure Shape where
  tokens : Nat → List Nat
  ways : Nat → Set (List Event × Nat)
  label : String → Nat
  tokens_exit : tokens Graph.exit = []
  ways_exit : ways Graph.exit = ∅

namespace Shape

/-- The walks from a place to the exit, with their number of steps. -/
inductive Walk (M : Shape) : Nat → Place → List Event → Prop
  | exit : M.Walk 0 (Graph.exit, 0) []
  | token {n b m pos t} (hp : (M.tokens b)[m]? = some pos) (h : M.Walk n (b, m + 1) t) :
    M.Walk (n + 1) (b, m) (.token pos :: t)
  | way {n b m e d t} (hm : m = (M.tokens b).length) (hw : (e, d) ∈ M.ways b)
    (h : M.Walk n (d, 0) t) : M.Walk (n + 1) (b, m) (e ++ t)

variable {M : Shape} {n b d m pos : Nat} {tokens : List Nat} {t : List Event} {x : Place}
  {W : Set (List Event × Nat)} {p q r : Option Place}

def Shows (M : Shape) (x : Place) (t : List Event) : Prop := ∃ n, M.Walk n x t

/-- From the place on, its block has these tokens, and behind them these ways out. -/
def At (M : Shape) (x : Place) (tokens : List Nat) (W : Set (List Event × Nat)) : Prop :=
  (∃ before, M.tokens x.1 = before ++ tokens ∧ before.length = x.2) ∧ M.ways x.1 = W

theorem At.head (h : M.At x (pos :: tokens) W) : (M.tokens x.1)[x.2]? = some pos := by
  obtain ⟨⟨before, hb, hx⟩, -⟩ := h
  simp [hb, ← hx]

theorem At.tail (h : M.At x (pos :: tokens) W) : M.At (x.1, x.2 + 1) tokens W := by
  obtain ⟨⟨before, hb, hx⟩, hW⟩ := h
  exact ⟨⟨before ++ [pos], by simp [hb], by simp [hx]⟩, hW⟩

theorem At.length (h : M.At x [] W) : x.2 = (M.tokens x.1).length := by
  obtain ⟨⟨before, hb, hx⟩, -⟩ := h
  rw [hb, List.append_nil, hx]

theorem At.start (ht : M.tokens b = tokens) (hW : M.ways b = W) : M.At (b, 0) tokens W :=
  ⟨⟨[], ht, rfl⟩, hW⟩

theorem Shows.token (hp : (M.tokens x.1)[x.2]? = some pos) (h : M.Shows (x.1, x.2 + 1) t) :
    M.Shows x (.token pos :: t) := h.elim fun n hn => ⟨n + 1, .token hp hn⟩

theorem Walk.of_token (hp : (M.tokens b)[m]? = some pos) (h : M.Walk n (b, m) t) :
    ∃ n' t', n = n' + 1 ∧ t = .token pos :: t' ∧ M.Walk n' (b, m + 1) t' := by
  cases h with
  | exit => simp [M.tokens_exit] at hp
  | token hp' h =>
    obtain rfl : pos = _ := Option.some.inj (hp.symm.trans hp')
    exact ⟨_, _, rfl, rfl, h⟩
  | way hm => simp [hm] at hp

theorem Walk.of_end (hx : M.At x [] W) (hW : W.Nonempty) (h : M.Walk n x t) :
    ∃ n' e d t', n = n' + 1 ∧ (e, d) ∈ W ∧ t = e ++ t' ∧ M.Walk n' (d, 0) t' := by
  have hl := hx.length
  obtain ⟨-, rfl⟩ := hx
  cases h with
  | exit => exact absurd hW (by simp [M.ways_exit])
  | token hp => exact absurd hl (List.getElem?_eq_some_iff.mp hp).1.ne
  | way _ hw hrest => exact ⟨_, _, _, _, rfl, hw, rfl, hrest⟩

theorem At.past (hx : M.At x tokens W) : M.At (x.1, x.2 + tokens.length) [] W := by
  obtain ⟨⟨before, hb, hl⟩, hW⟩ := hx
  exact ⟨⟨before ++ tokens, by simp [hb], by simp [hl]⟩, hW⟩

theorem At.passes (hx : M.At x tokens W) (h : M.Shows (x.1, x.2 + tokens.length) t) :
    M.Shows x (Event.passing tokens ++ t) := by
  induction tokens generalizing x with
  | nil => exact h
  | cons pos tokens ih =>
    refine .token hx.head (ih hx.tail ?_)
    rwa [List.length_cons, Nat.add_comm tokens.length, ← Nat.add_assoc] at h

theorem At.of_walk_past (hx : M.At x tokens W) (h : M.Walk n x t) :
    ∃ n' t', n' ≤ n ∧ t = Event.passing tokens ++ t' ∧
      M.Walk n' (x.1, x.2 + tokens.length) t' := by
  induction tokens generalizing x n t with
  | nil => exact ⟨n, t, le_rfl, rfl, h⟩
  | cons pos tokens ih =>
    obtain ⟨n', t', rfl, rfl, hrest⟩ := Walk.of_token hx.head h
    obtain ⟨n₁, t₁, hn, rfl, hlast⟩ := ih hx.tail hrest
    refine ⟨n₁, t₁, by omega, rfl, ?_⟩
    rwa [List.length_cons, Nat.add_comm tokens.length, ← Nat.add_assoc]

theorem At.shows (hx : M.At x tokens W) {e : List Event} (hw : (e, d) ∈ W)
    (h : M.Shows (d, 0) t) : M.Shows x (Event.passing tokens ++ (e ++ t)) := by
  obtain ⟨n, h⟩ := h
  exact hx.passes ⟨n + 1, .way hx.past.length (hx.past.2 ▸ hw) h⟩

theorem At.of_walk (hx : M.At x tokens W) (hW : W.Nonempty) (h : M.Walk n x t) :
    ∃ n' e d t', n' < n ∧ (e, d) ∈ W ∧ t = Event.passing tokens ++ (e ++ t') ∧
      M.Walk n' (d, 0) t' := by
  obtain ⟨n₁, t₁, hn, rfl, hpast⟩ := hx.of_walk_past h
  obtain ⟨n', e, d, t', rfl, hw, rfl, hrest⟩ := hpast.of_end hx.past hW
  exact ⟨n', e, d, t', hn, hw, rfl, hrest⟩

theorem Walk.of_exit (h : M.Walk n (Graph.exit, 0) t) : t = [] := by
  cases h with
  | exit => rfl
  | token hp => simp [M.tokens_exit] at hp
  | way _ hw => simp [M.ways_exit] at hw

/-- Wherever control comes to the place, it goes on silently to the block. -/
def Enters (M : Shape) (p : Option Place) (d : Nat) : Prop := ∀ x ∈ p, M.At x [] {([], d)}

/-- Control that comes to the first place goes on to the second, there already or by one silent way. -/
def Flows (M : Shape) (p q : Option Place) : Prop :=
  ∀ x ∈ p, q = some x ∨ ∃ d, q = some (d, 0) ∧ M.At x [] {([], d)}

theorem At.enters (h : M.At x [] {([], d)}) : M.Enters (some x) d := by
  intro y hy
  rwa [← Option.mem_some.mp hy]

theorem Enters.shows (h : M.Enters (some x) d) (hd : M.Shows (d, 0) t) : M.Shows x t :=
  (h x rfl).shows (Set.mem_singleton _) hd

theorem Enters.of_walk (h : M.Enters (some x) d) (hw : M.Walk n x t) :
    ∃ n' < n, M.Walk n' (d, 0) t := by
  obtain ⟨n', e, d', t', hn, hd', rfl, hw'⟩ := (h x rfl).of_walk (Set.singleton_nonempty _) hw
  obtain ⟨rfl, rfl⟩ := Prod.mk.inj hd'
  exact ⟨n', hn, hw'⟩

theorem Flows.refl (p : Option Place) : M.Flows p p := fun _ hx => .inl hx

theorem Flows.shows (h : M.Flows (some x) q) (hq : ∀ y, q = some y → M.Shows y t) :
    M.Shows x t := by
  rcases h x rfl with rfl | ⟨d, rfl, hd⟩
  · exact hq x rfl
  · exact hd.enters.shows (hq _ rfl)

theorem Flows.of_walk (h : M.Flows (some x) q) (hw : M.Walk n x t) :
    ∃ y n', q = some y ∧ n' ≤ n ∧ M.Walk n' y t := by
  rcases h x rfl with rfl | ⟨d, rfl, hd⟩
  · exact ⟨x, n, rfl, le_rfl, hw⟩
  · obtain ⟨n', hn, hw'⟩ := hd.enters.of_walk hw
    exact ⟨_, n', rfl, hn.le, hw'⟩

theorem Enters.flows (h : M.Enters p d) : M.Flows p (some (d, 0)) :=
  fun x hx => .inr ⟨d, rfl, h x hx⟩

def branches (yes no : Nat) : Set (List Event × Nat) := {([.outcome true], yes), ([.outcome false], no)}

/-- A loop with its condition in front of or behind its body: its blocks, and its body between them. -/
def Loop (M : Shape) (test : List Nat) (cond body after : Nat)
    (inner : Targets → Option Place → Option Place → Prop) : Prop :=
  M.At (cond, 0) test (branches body after) ∧
    ∃ q, inner ⟨some after, some cond⟩ (some (body, 0)) q ∧ M.Enters q cond

/-- A loop whose step has its own block, and whose condition may be missing. -/
def Counted (M : Shape) (test step : List Nat) (cond advance body after : Nat)
    (inner : Targets → Option Place → Option Place → Prop) : Prop :=
  M.At (cond, 0) test (if test = [] then {([], body)} else branches body after) ∧
    M.At (advance, 0) step {([], cond)} ∧
    ∃ q, inner ⟨some after, some advance⟩ (some (body, 0)) q ∧ M.Enters q advance

mutual

/-- The statements lie between two places; `break` and `continue` lead to the targets. -/
def Laid (M : Shape) (labels : List String) :
    Stmts → Targets → Option Place → Option Place → Prop
  | .done, _, p, q => p = q
  | .token pos rest, targets, p, q =>
    ∃ x : Place, (∀ y ∈ p, y = x) ∧ (M.tokens x.1)[x.2]? = some pos ∧
      M.Laid labels rest targets (some (x.1, x.2 + 1)) q
  | .label name rest, targets, p, q =>
    M.Enters p (M.label name) ∧ M.Laid labels rest targets (some (M.label name, 0)) q
  | .returns tokens rest, targets, p, q =>
    (∃ r, M.Flows p r ∧ ∀ x ∈ r, M.At x tokens {([], Graph.exit)}) ∧
      M.Laid labels rest targets none q
  | .leave pos rest, targets, p, q =>
    (∃ d, targets.leave = some d ∧ ∀ x ∈ p, M.At x [pos] {([], d)}) ∧
      M.Laid labels rest targets none q
  | .next pos rest, targets, p, q =>
    (∃ d, targets.next = some d ∧ ∀ x ∈ p, M.At x [pos] {([], d)}) ∧
      M.Laid labels rest targets none q
  | .goto pos target rest, targets, p, q =>
    (target ∈ labels ∧ ∀ x ∈ p, M.At x [pos] {([], M.label target)}) ∧
      M.Laid labels rest targets none q
  | .block inner rest, targets, p, q =>
    ∃ r, M.Laid labels inner targets p r ∧ M.Laid labels rest targets r q
  | .ifThen test yes rest, targets, p, q =>
    ∃ cond a merge r, M.Enters p cond ∧ M.At (cond, 0) test (branches a merge) ∧
      M.Laid labels yes targets (some (a, 0)) r ∧ M.Enters r merge ∧
      M.Laid labels rest targets (some (merge, 0)) q
  | .ifElse test yes no rest, targets, p, q =>
    ∃ cond a b r s o, M.Enters p cond ∧ M.At (cond, 0) test (branches a b) ∧
      M.Laid labels yes targets (some (a, 0)) r ∧ M.Flows r o ∧
      M.Laid labels no targets (some (b, 0)) s ∧ M.Flows s o ∧ M.Laid labels rest targets o q
  | .whileDo test inner rest, targets, p, q =>
    ∃ cond body after, M.Enters p cond ∧ M.Loop test cond body after (M.Laid labels inner) ∧
      M.Laid labels rest targets (some (after, 0)) q
  | .doWhile inner test rest, targets, p, q =>
    ∃ cond body after, M.Enters p body ∧ M.Loop test cond body after (M.Laid labels inner) ∧
      M.Laid labels rest targets (some (after, 0)) q
  | .forDo init test step inner rest, targets, p, q =>
    ∃ start cond advance body after, M.Enters p start ∧ M.At (start, 0) init {([], cond)} ∧
      M.Counted test step cond advance body after (M.Laid labels inner) ∧
      M.Laid labels rest targets (some (after, 0)) q
  | .switch test inside rest, targets, p, q =>
    ∃ dispatch after r W, M.Enters p dispatch ∧
      M.At (dispatch, 0) test (W ∪ if inside.hasDefault then ∅ else {([.chose none], after)}) ∧
      M.LaidArms labels inside ⟨some after, targets.next⟩ none r W ∧ M.Enters r after ∧
      M.Laid labels rest targets (some (after, 0)) q
  | .ifOnly _, _, _, _ | .bareSwitch _ _, _, _, _ => False

def LaidArms (M : Shape) (labels : List String) :
    Arms → Targets → Option Place → Option Place → Set (List Event × Nat) → Prop
  | .done, _, p, q, W => p = q ∧ W = ∅
  | .caseOf label ahead, targets, p, q, W =>
    ∃ b W', W = insert ([.chose (some label)], b) W' ∧ M.Enters p b ∧
      M.LaidArms labels ahead targets (some (b, 0)) q W'
  | .default ahead, targets, p, q, W =>
    ∃ b W', W = insert ([.chose none], b) W' ∧ M.Enters p b ∧
      M.LaidArms labels ahead targets (some (b, 0)) q W'
  | .stmts inner ahead, targets, p, q, W =>
    ∃ x r, (∀ y ∈ p, y = x) ∧ M.Laid labels inner targets (some x) r ∧
      M.LaidArms labels ahead targets r q W

end

/-- What is left to do lies behind a place where statements with the given targets end. -/
def Follows (M : Shape) (labels : List String) : Kont → Targets → Option Place → Prop
  | .finish, targets, p => targets.leave = none ∧ targets.next = none ∧ M.Enters p Graph.exit
  | .after rest k, targets, p =>
    ∃ q r, M.Flows p q ∧ M.Laid labels rest targets q r ∧ M.Follows labels k targets r
  | .loop test inner rest k, targets, p =>
    ∃ cond body after outer r, targets = ⟨some after, some cond⟩ ∧ M.Enters p cond ∧
      M.Loop test cond body after (M.Laid labels inner) ∧
      M.Laid labels rest outer (some (after, 0)) r ∧ M.Follows labels k outer r
  | .forTest test step inner rest k, targets, p =>
    ∃ cond advance body after outer r, targets = ⟨some after, some advance⟩ ∧ M.Enters p cond ∧
      M.Counted test step cond advance body after (M.Laid labels inner) ∧
      M.Laid labels rest outer (some (after, 0)) r ∧ M.Follows labels k outer r
  | .forStep test step inner rest k, targets, p =>
    ∃ cond advance body after outer r, targets = ⟨some after, some advance⟩ ∧ M.Enters p advance ∧
      M.Counted test step cond advance body after (M.Laid labels inner) ∧
      M.Laid labels rest outer (some (after, 0)) r ∧ M.Follows labels k outer r
  | .arms ahead rest k, targets, p =>
    ∃ after outer q W r, targets = ⟨some after, outer.next⟩ ∧
      M.LaidArms labels ahead targets p q W ∧ M.Enters q after ∧
      M.Laid labels rest outer (some (after, 0)) r ∧ M.Follows labels k outer r

end Shape

end SignFlow

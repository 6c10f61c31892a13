import Mathlib.Data.List.Nodup
import SignFlow.Proofs.ControlFlow

/-! Where the tokens of a body go: each into one block, once, and in the order of the text.

The text is read in order, and what is read goes into blocks in the same order, so that the tokens of a
block are some of those of the text, and no position comes twice. -/

namespace SignFlow

mutual

/-- The positions that statements hold, in the order of the text; those of jumps only if asked for. -/
def Stmts.positions (jumps : Bool) : Stmts → List Nat
  | .done => []
  | .token pos rest => pos :: rest.positions jumps
  | .label _ rest => rest.positions jumps
  | .returns tokens rest => tokens ++ rest.positions jumps
  | .leave pos rest | .next pos rest | .goto pos _ rest =>
    (if jumps then [pos] else []) ++ rest.positions jumps
  | .block inner rest => inner.positions jumps ++ rest.positions jumps
  | .ifOnly test => test
  | .ifThen test yes rest => test ++ (yes.positions jumps ++ rest.positions jumps)
  | .ifElse test yes no rest =>
    test ++ (yes.positions jumps ++ (no.positions jumps ++ rest.positions jumps))
  | .whileDo test inner rest => test ++ (inner.positions jumps ++ rest.positions jumps)
  | .doWhile inner test rest => inner.positions jumps ++ (test ++ rest.positions jumps)
  | .forDo init test step inner rest =>
    init ++ (test ++ (step ++ (inner.positions jumps ++ rest.positions jumps)))
  | .switch test arms rest => test ++ (arms.positions jumps ++ rest.positions jumps)
  | .bareSwitch test rest => test ++ rest.positions jumps

def Arms.positions (jumps : Bool) : Arms → List Nat
  | .done => []
  | .caseOf _ rest | .default rest => rest.positions jumps
  | .stmts inner rest => inner.positions jumps ++ rest.positions jumps

end

/-- The tokens of expression statements, returns, conditions and loop headers. -/
def Stmts.content (s : Stmts) : List Nat := s.positions false

namespace Layout

/-- On the way from one layout to another, tokens are put into blocks one by one: at least these, at most
those, and in this order. -/
structure Gains (least most : List Nat) (l l' : Layout) : Prop where
  size_le : l.size ≤ l'.size
  placed : ∃ placed : List (Nat × Nat), least.Sublist (placed.map Prod.snd) ∧
    (placed.map Prod.snd).Sublist most ∧ (∀ x ∈ placed, x.1 < l'.size) ∧
    ∀ b, (l'.graph.block b).tokens =
      (l.graph.block b).tokens ++ (placed.filter fun x => x.1 == b).map Prod.snd

namespace Gains

variable {l l' l'' : Layout} {least least' most most' tokens : List Nat} {current : Option Nat}
  {b d pos : Nat} {kind : BlockKind} {way : EdgeKind}

theorem refl : Gains [] [] l l := by
  refine ⟨Nat.le_refl _, [], .slnil, .slnil, nofun, fun b => ?_⟩
  exact (List.append_nil _).symm

theorem trans (h : Gains least most l l') (h' : Gains least' most' l' l'') :
    Gains (least ++ least') (most ++ most') l l'' := by
  obtain ⟨placed, hleast, hmost, hlt, htokens⟩ := h.placed
  obtain ⟨placed', hleast', hmost', hlt', htokens'⟩ := h'.placed
  refine ⟨h.size_le.trans h'.size_le, placed ++ placed', ?_, ?_, ?_, fun b => ?_⟩
  · rw [List.map_append]
    exact hleast.append hleast'
  · rw [List.map_append]
    exact hmost.append hmost'
  · intro x hx
    rcases List.mem_append.mp hx with hx | hx
    · exact (hlt x hx).trans_le h'.size_le
    · exact hlt' x hx
  · rw [htokens', htokens, List.append_assoc, List.filter_append, List.map_append]

/-- A step that leaves the tokens alone. -/
theorem of_quiet (h : Gains least most l' l'') (hsize : l.size ≤ l'.size)
    (htokens : ∀ b, (l'.graph.block b).tokens = (l.graph.block b).tokens) : Gains least most l l'' :=
  ⟨hsize.trans h.size_le, by simpa only [htokens] using h.placed⟩

theorem of_wire {text : Option String} (h : Gains least most (l.wire b d way text) l') :
    Gains least most l l' := h.of_quiet le_rfl fun _ => rfl

theorem of_add (h : Gains least most (l.add kind) l') : Gains least most l l' := by
  refine h.of_quiet (by simp) fun b => ?_
  rcases Nat.lt_trichotomy b l.size with hb | rfl | hb
  · rw [block_add hb]
  · rw [block_add_self, block_of_size_le le_rfl]
  · rw [block_of_size_le (by rw [size_add]; exact hb), block_of_size_le hb.le]

theorem of_turn (h : Gains least most (l.turn b kind) l') : Gains least most l l' := by
  refine h.of_quiet (by simp) fun c => ?_
  by_cases hc : b = c
  · subst hc
    by_cases hb : b < l.size
    · rw [turn, block_change hb]
    · have hle : l.graph.blocks.length ≤ b := Nat.le_of_not_lt hb
      simp [turn, change, Graph.block, hle]
  · rw [turn, block_change_of_ne hc]

theorem of_fill (hb : b < l.size) (h : Gains least most (l.fill b tokens) l') :
    Gains (tokens ++ least) (tokens ++ most) l l' := by
  refine trans ⟨by simp, tokens.map (b, ·), by simp [Function.comp_def], by simp [Function.comp_def], ?_,
    fun c => ?_⟩ h
  · intro x hx
    obtain ⟨_, -, rfl⟩ := List.mem_map.mp hx
    rwa [size_fill]
  · by_cases hc : b = c
    · subst hc
      rw [fill, block_change hb]
      simp [List.filter_map, Function.comp_def]
    · rw [fill, block_change_of_ne hc]
      simp [List.filter_map, Function.comp_def, hc]

theorem of_mark {name : String} (h : Gains least most (l.mark name b) l') : Gains least most l l' :=
  h.of_quiet le_rfl fun _ => rfl

theorem of_await {target : String} (h : Gains least most (l.await b target) l') :
    Gains least most l l' := h.of_quiet le_rfl fun _ => rfl

theorem of_lead (h : Gains least most (l.lead current d way) l') : Gains least most l l' := by
  cases current with
  | none => exact h
  | some b => exact of_wire h

theorem of_behind (h : Gains least most (l.behind current kind tokens) l') :
    Gains (tokens ++ least) (tokens ++ most) l l' :=
  of_add (of_lead (of_fill (by simp) h))

theorem of_ensure (h : Gains least most (l.ensure current) l') : Gains least most l l' := by
  cases current with
  | none => exact of_add h
  | some b => exact h

theorem of_quit (h : Gains least most (l.quit b) l') : Gains least most l l' := of_turn (of_wire h)

/-- A token that is put only where control may arrive. -/
theorem of_jump (hcurrent : ∀ b ∈ current, b < l.size)
    (h : Gains least most (current.elim l fun b => l.fill b [pos]) l') :
    Gains least (pos :: most) l l' := by
  cases current with
  | none =>
    obtain ⟨placed, hleast, hmost, hrest⟩ := h.placed
    exact ⟨h.size_le, placed, hleast, hmost.cons pos, hrest⟩
  | some b =>
    have hfill := of_fill (hcurrent b rfl) h
    obtain ⟨placed, hleast, hrest⟩ := hfill.placed
    exact ⟨hfill.size_le, placed, (List.sublist_cons_self pos least).trans hleast, hrest⟩

theorem of_leap (hcurrent : ∀ b ∈ current, b < l.size)
    (h : Gains least most (l.leap current pos d way) l') : Gains least (pos :: most) l l' := by
  cases current with
  | none => exact of_jump hcurrent h
  | some b => exact of_jump hcurrent (of_wire h)

theorem of_leapTo {target : String} (hcurrent : ∀ b ∈ current, b < l.size)
    (h : Gains least most (l.leapTo current pos target) l') : Gains least (pos :: most) l l' := by
  cases current with
  | none => exact of_jump hcurrent h
  | some b => exact of_jump hcurrent (of_await h)

theorem of_branch {test : List Nat} {cond body after : Nat}
    (h : Gains least most (l.branch test cond body after) l') : Gains least most l l' := by
  unfold branch at h
  split at h
  · exact of_wire h
  · exact of_wire (of_wire h)

theorem of_bypass {hasDefault : Bool} {dispatch after : Nat}
    (h : Gains least most (l.bypass hasDefault dispatch after) l') : Gains least most l l' := by
  cases hasDefault with
  | true => exact h
  | false => exact of_wire h

end Gains

def Job.positions (jumps : Bool) : Job → List Nat
  | .stmts s _ => s.positions jumps
  | .arms a _ _ => a.positions jumps

/-- What is laid out goes into blocks in its order; only jumps that control cannot reach are dropped. -/
theorem Makes.gains {job : Job} {current last : Option Nat} {l l' : Layout}
    (h : Makes job current l last l') (hcurrent : ∀ b ∈ current, b < l.size) :
    Gains (job.positions false) (job.positions true) l l' := by
  have hsome : ∀ {a n : Nat}, a < n → ∀ b ∈ some a, b < n := fun ha b hb => Option.mem_some.mp hb ▸ ha
  induction h with
  | done | armsDone => exact .refl
  | token _ ih =>
    have hlt := getD_lt_ensure hcurrent
    exact .of_ensure (.of_fill hlt (ih (hsome (by rwa [size_fill]))))
  | label _ ih => exact .of_behind (.of_mark (ih (hsome (by simp))))
  | returnsHere _ ih => exact .of_fill (hcurrent _ rfl) (.of_quit (ih nofun))
  | returnsBehind _ ih => exact .of_behind (.of_quit (ih nofun))
  | leave _ ih => exact .of_leap hcurrent (ih nofun)
  | next _ ih => exact .of_leap hcurrent (ih nofun)
  | goto _ ih => exact .of_leapTo hcurrent (ih nofun)
  | block hinner _ ihinner ih => exact (ihinner hcurrent).trans (ih (hinner.last_lt hcurrent))
  | @ifOnly test targets current l =>
    have h := Gains.of_behind (Gains.refl (l := l.behind current .ifCond test))
    simpa [Job.positions, Stmts.positions] using h
  | ifThen hyes _ ihyes ih =>
    have hyes' := ihyes (hsome (by simp))
    exact .of_behind (.of_add (.of_wire (hyes'.trans (.of_add (.of_wire (.of_lead (ih (hsome (by simp)))))))))
  | ifElse hyes hno _ ihyes ihno ih =>
    have hyes' := ihyes (hsome (by simp))
    have hno' := ihno (hsome (by simp))
    refine .of_behind (.of_add (.of_wire (hyes'.trans (.of_add (.of_wire (hno'.trans
      (.of_add (.of_lead (.of_lead (ih ?_))))))))))
    intro b hb
    split at hb
    · cases hb
    · exact hsome (by simp) b hb
  | whileDo hinner _ ihinner ih =>
    have hle := hinner.size_le
    simp only [size_wire, size_add, size_behind] at hle
    have hinner' := ihinner (hsome (by simp))
    have hrest := ih (hsome (by rw [size_lead]; omega))
    exact .of_behind (.of_add (.of_add (.of_wire (.of_wire (hinner'.trans (.of_lead hrest))))))
  | doWhile hinner _ ihinner ih =>
    have hle := hinner.size_le
    simp only [size_add, size_behind] at hle
    have hinner' := ihinner (hsome (by simp; omega))
    have hrest := ih (hsome (by simp; omega))
    refine .of_behind (.of_add (.of_add (hinner'.trans (.of_lead (.of_fill ?_ (.of_wire (.of_wire hrest)))))))
    rw [size_lead]
    omega
  | forDo hinner _ ihinner ih =>
    have hle := hinner.size_le
    simp only [size_branch, size_add, size_behind] at hle
    have hinner' := ihinner (hsome (by simp))
    have hrest := ih (hsome (by simp; omega))
    exact .of_behind (.of_behind (.of_behind (.of_add (.of_add (.of_branch (hinner'.trans
      (.of_lead (.of_wire hrest))))))))
  | switch hinside _ ihinside ih =>
    have hle := hinside.size_le
    simp only [size_add, size_behind] at hle
    have hrest := ih (hsome (by simp; omega))
    exact .of_behind (.of_add ((ihinside nofun).trans (.of_lead (.of_bypass hrest))))
  | bareSwitch _ ih => exact .of_behind (.of_add (.of_wire (ih (hsome (by simp)))))
  | armsCase _ ih => exact .of_add (.of_wire (.of_lead (ih (hsome (by simp)))))
  | armsDefault _ ih => exact .of_add (.of_wire (.of_lead (ih (hsome (by simp)))))
  | armsStmts hinner _ ihinner ih =>
    have hlt := hsome (getD_lt_ensure hcurrent)
    exact .of_ensure ((ihinner hlt).trans (ih (hinner.last_lt hlt)))

theorem opening_tokens (function : Option String) (firstId b : Nat) :
    ((opening function firstId).graph.block b).tokens = [] := by
  rcases b with _ | _ | _ | b <;> rfl

end Layout

namespace Stmts

variable {function : Option String} {firstId : Nat}

/-- The tokens of each block of the graph, as they were put there one after the other. -/
theorem graph_placed (s : Stmts) (function : Option String) (firstId : Nat) :
    ∃ placed : List (Nat × Nat), (s.positions false).Sublist (placed.map Prod.snd) ∧
      (placed.map Prod.snd).Sublist (s.positions true) ∧
      (∀ x ∈ placed, x.1 < (s.graph function firstId).size) ∧
      ∀ b, ((s.graph function firstId).block b).tokens =
        (placed.filter fun x => x.1 == b).map Prod.snd := by
  obtain ⟨last, l', hmakes, hlayout⟩ := s.layout_makes function firstId
  have hgains := hmakes.gains fun b hb => by
    rw [← Option.mem_some.mp hb]
    exact Nat.lt_succ_self 2
  obtain ⟨placed, hleast, hmost, hlt, htokens⟩ := hgains.placed
  have hgraph : s.graph function firstId = (l'.lead last Graph.exit).resolve :=
    congrArg Layout.resolve hlayout
  refine ⟨placed, hleast, hmost, fun x hx => ?_, fun b => ?_⟩
  · rw [hgraph, Layout.resolve_size, Layout.size_lead]
    exact hlt x hx
  · have hlead : (l'.lead last Graph.exit).graph.block b = l'.graph.block b := by cases last <;> rfl
    rw [hgraph, Layout.resolve_block, hlead, htokens, Layout.opening_tokens, List.nil_append]

/-- Positions that come in order are in one block each, and in order there. -/
theorem graph_places {s : Stmts} (h : (s.positions true).Pairwise (· < ·)) (function : Option String)
    (firstId : Nat) :
    (∀ pos ∈ s.content, ∃ n < (s.graph function firstId).size,
      ((s.graph function firstId).block n).tokens.count pos = 1 ∧
      ∀ m, pos ∈ ((s.graph function firstId).block m).tokens → m = n) ∧
    ∀ n, ((s.graph function firstId).block n).tokens.Pairwise (· < ·) := by
  obtain ⟨placed, hleast, hmost, hlt, htokens⟩ := s.graph_placed function firstId
  have hsorted : (placed.map Prod.snd).Pairwise (· < ·) := h.sublist hmost
  have hblock : ∀ n, ((s.graph function firstId).block n).tokens.Pairwise (· < ·) := fun n => by
    rw [htokens]
    exact hsorted.sublist (List.filter_sublist.map _)
  refine ⟨fun pos hpos => ?_, hblock⟩
  obtain ⟨⟨n, p⟩, hx, rfl⟩ := List.mem_map.mp (hleast.subset hpos)
  have hmem : ∀ m, p ∈ ((s.graph function firstId).block m).tokens ↔ (m, p) ∈ placed := by
    intro m
    rw [htokens]
    simp
  have hnodup : (placed.map Prod.snd).Nodup := hsorted.imp Nat.ne_of_lt
  refine ⟨n, hlt _ hx, List.count_eq_one_of_mem ((hblock n).imp Nat.ne_of_lt) ((hmem n).mpr hx), ?_⟩
  intro m hm
  exact congrArg Prod.fst (List.inj_on_of_nodup_map hnodup ((hmem m).mp hm) hx rfl)

theorem positions_behind (jumps : Bool) (tokens : List Nat) (rest : Stmts) :
    (rest.behind tokens).positions jumps = tokens ++ rest.positions jumps := by
  induction tokens with
  | nil => rfl
  | cons t tokens ih => exact congrArg (t :: ·) ih

end Stmts

/-- What is wanted is kept, and all there is comes in order, between two positions. -/
structure Renders (wanted kept all : List Nat) (i j : Nat) : Prop where
  kept : wanted ⊆ kept
  sorted : all.Pairwise (· < ·)
  within : ∀ p ∈ all, i ≤ p ∧ p < j

namespace Renders

variable {wanted kept all wanted' kept' all' : List Nat} {i j k : Nat}

theorem nil : Renders [] [] [] i j := ⟨List.Subset.refl _, .nil, nofun⟩

theorem append (h : Renders wanted kept all i k) (hik : i ≤ k) (h' : Renders wanted' kept' all' k j)
    (hkj : k ≤ j) : Renders (wanted ++ wanted') (kept ++ kept') (all ++ all') i j := by
  refine ⟨fun p hp => ?_, ?_, ?_⟩
  · rcases List.mem_append.mp hp with hp | hp
    · exact List.mem_append_left _ (h.kept hp)
    · exact List.mem_append_right _ (h'.kept hp)
  · refine List.pairwise_append.mpr ⟨h.sorted, h'.sorted, fun p hp q hq => ?_⟩
    exact (h.within p hp).2.trans_le (h'.within q hq).1
  · intro p hp
    rcases List.mem_append.mp hp with hp | hp
    · exact ⟨(h.within p hp).1, (h.within p hp).2.trans_le hkj⟩
    · exact ⟨hik.trans (h'.within p hp).1, (h'.within p hp).2⟩

theorem range {a n : Nat} (hi : i ≤ a) (hj : a + n ≤ j) :
    Renders (List.range' a n) (List.range' a n) (List.range' a n) i j := by
  refine ⟨List.Subset.refl _, List.pairwise_lt_range', fun p hp => ?_⟩
  have := List.mem_range'_1.mp hp
  omega

/-- A word that is not wanted, but may be there. -/
theorem word (hi : i < j) : Renders [] kept [i] i j :=
  ⟨List.nil_subset _, List.pairwise_singleton _ _, fun p hp => by
    rw [List.mem_singleton.mp hp]
    exact ⟨le_rfl, hi⟩⟩

theorem mono {i' j' : Nat} (h : Renders wanted kept all i j) (hi : i' ≤ i) (hj : j ≤ j') :
    Renders wanted kept all i' j' :=
  ⟨h.kept, h.sorted, fun p hp => ⟨hi.trans (h.within p hp).1, (h.within p hp).2.trans_le hj⟩⟩

end Renders

namespace Code

/-- A text is read as statements that hold the content of those it spells. Without its neighbours known,
the name of a label may be taken for an expression. -/
def Keeps (c : Code) : Form → Nat → Nat → Prop
  | .list _ s, i, j => ∃ s', c.Yields i j s' ∧
    Renders (s.positions false) (s'.positions false) (s'.positions true) i j
  | .body s, i, j => ∃ s', c.YieldsBody i j s' ∧
    Renders (s.positions false) (s'.positions false) (s'.positions true) i j
  | .arms a, i, j => ∃ a', c.YieldsArms i j a' ∧
    Renders (a.positions false) (a'.positions false) (a'.positions true) i j

theorem Spells.keeps {c : Code} {F : Form} {i j : Nat} (h : c.Spells F i j) (ho : c.Linked)
    (hj : j < c.size) (hcolon : c.text j ≠ ":") : c.Keeps F i j := by
  induction h with
  | done => exact ⟨.done, .done, .nil⟩
  | expression hi hp hk hrest ih =>
    have hkj := hrest.frame.le
    obtain ⟨rest', hy, hr⟩ := ih hj hcolon
    refine ⟨_, .expression ho hj hi.le hp hk hkj (hrest.frame.text_ne_colon hcolon) hy, ?_⟩
    simp only [Stmts.positions_behind]
    exact (Renders.range le_rfl (by omega)).append (by omega) hr hkj
  | empty hi hrest ih =>
    have hij := hrest.frame.le
    obtain ⟨rest', hy, hr⟩ := ih hj hcolon
    refine ⟨_, .token ho hj (.inr hi) (hrest.frame.text_ne_colon hcolon) hij hy, ?_⟩
    exact (Renders.range (n := 1) le_rfl le_rfl).append (by omega) hr hij
  | @label n rest i j hname hi hk hrest ih =>
    have hij := hrest.frame.le
    have hnext := hrest.frame.text_ne_colon hcolon
    obtain ⟨rest', hy, hr⟩ := ih hj hcolon
    cases hstart : c.atStart (c.token i) with
    | true =>
      refine ⟨_, .label ho hj (isLabel_eq_true ho (by omega) hname hi hstart hk hnext) hij hy, ?_⟩
      exact hr.mono (by omega) le_rfl
    | false =>
      -- the name and its colon are taken for tokens of an expression
      have hcolon' : c.Yields (i + 1) j (.token (i + 1) rest') :=
        .plain ho hj (isLabel_eq_false ho (by omega) hnext) (by simp [hk, openers]) (by omega) hy
      refine ⟨.token i (.token (i + 1) rest'), .plain ho hj (by simp [isLabel, hstart])
        (fun hm => hi (openers_subset hm)) (by omega) hcolon', ?_⟩
      have hword : Renders [] [i] [i] i (i + 1) := .word (Nat.lt_succ_self i)
      have hsign : Renders [] [i + 1] [i + 1] (i + 1) (i + 2) := .word (Nat.lt_succ_self _)
      exact hword.append (by omega) (hsign.append (by omega) hr hij) (by omega)
  | returns hi hik hp hk hrest ih =>
    have hkj := hrest.frame.le
    obtain ⟨rest', hy, hr⟩ := ih hj hcolon
    refine ⟨_, .returns ho hj hi hik hp hk hkj (hp.text_ne_colon hik (by simp [hk])) hy, ?_⟩
    exact (Renders.range le_rfl (by omega)).append (by omega) hr hkj
  | leave hi hk hrest ih =>
    have hij := hrest.frame.le
    obtain ⟨rest', hy, hr⟩ := ih hj hcolon
    exact ⟨_, .leave ho hj hi hk hij hy, (Renders.word (by omega)).append (by omega) hr hij⟩
  | next hi hk hrest ih =>
    have hij := hrest.frame.le
    obtain ⟨rest', hy, hr⟩ := ih hj hcolon
    exact ⟨_, .next ho hj hi hk hij hy, (Renders.word (by omega)).append (by omega) hr hij⟩
  | goto hi hp hk hrest ih =>
    have hij := hrest.frame.le
    obtain ⟨rest', hy, hr⟩ := ih hj hcolon
    exact ⟨_, .goto ho hj hi hp hk hij hy, (Renders.word (by omega)).append (by omega) hr hij⟩
  | block hb hinner hrest ihinner ih =>
    have hik := hinner.frame.le
    have hkj := hrest.frame.le
    obtain ⟨inner', hyi, hri⟩ := ihinner (by omega) hb.closes_ne_colon
    obtain ⟨rest', hy, hr⟩ := ih hj hcolon
    refine ⟨_, .block ho hj hb hik hkj (hinner.frame.text_ne_colon hb.closes_ne_colon) hyi hy, ?_⟩
    exact (hri.mono (by omega) (by omega)).append (by omega) hr hkj
  | ifThen hi he hyes hm hrest ihyes ih =>
    have hik := he.lt
    have hkm := hyes.frame.le
    have hmj := hrest.frame.le
    obtain ⟨yes', hyy, hry⟩ := ihyes (by omega) (hrest.frame.text_ne_colon hcolon)
    obtain ⟨rest', hy, hr⟩ := ih hj hcolon
    have hend := hyes.frame.statementEnd ho trivial (by omega) hmj
    refine ⟨_, .ifThen ho hj hi he.toParens hyy hend hm hkm hmj hy, ?_⟩
    exact (Renders.range (by omega) (by omega)).append (by omega) (hry.append hkm hr hmj) (by omega)
  | ifElse hi he hyes hm hno hrest ihyes ihno ih =>
    have hik := he.lt
    have hkm := hyes.frame.le
    have hml := hno.frame.le
    have hlj := hrest.frame.le
    obtain ⟨yes', hyy, hry⟩ := ihyes (by omega) (by simp [hm])
    obtain ⟨no', hyn, hrn⟩ := ihno (by omega) (hrest.frame.text_ne_colon hcolon)
    obtain ⟨rest', hy, hr⟩ := ih hj hcolon
    refine ⟨_, .ifElse ho hj hi he.toParens hyy (hyes.frame.statementEnd ho trivial (by omega) (by omega))
      hm hkm hyn (hno.frame.statementEnd ho trivial (by omega) hlj) hml hlj hy, ?_⟩
    exact (Renders.range (by omega) (by omega)).append (by omega) (hry.append hkm
      ((hrn.append hml hr hlj).mono (by omega) le_rfl) (by omega)) (by omega)
  | whileDo hi he hinner hrest ihinner ih =>
    have hik := he.lt
    have hkm := hinner.frame.le
    have hmj := hrest.frame.le
    obtain ⟨inner', hyi, hri⟩ := ihinner (by omega) (hrest.frame.text_ne_colon hcolon)
    obtain ⟨rest', hy, hr⟩ := ih hj hcolon
    have hend := hinner.frame.statementEnd ho trivial (by omega) hmj
    refine ⟨_, .whileDo ho hj hi he.toParens hyi hend hkm hmj hy, ?_⟩
    exact (Renders.range (by omega) (by omega)).append (by omega) (hri.append hkm hr hmj) (by omega)
  | doWhile hi hinner hm he hk hrest ihinner ih =>
    have him := hinner.frame.le
    have hmk := he.lt
    have hkj := hrest.frame.le
    have hmc := hm.trans_ne (show "while" ≠ ":" by decide)
    obtain ⟨inner', hyi, hri⟩ := ihinner (by omega) hmc
    obtain ⟨rest', hy, hr⟩ := ih hj hcolon
    refine ⟨_, .doWhile ho hj hi hyi (hinner.frame.statementEnd ho trivial (by omega) (by omega))
      (hinner.frame.text_ne_colon hmc) him hm he.toParens hk hkj hy, ?_⟩
    exact (hri.mono (by omega) le_rfl).append (by omega)
      ((Renders.range (by omega) (by omega)).append (by omega) hr (by omega)) (by omega)
  | @forDo n inner rest i a b k m j hi hopen hlink hia hinit ha hab htest hb hbk _ _ hinner hrest ihinner ih =>
    have hkm := hinner.frame.le
    have hmj := hrest.frame.le
    obtain ⟨inner', hyi, hri⟩ := ihinner (by omega) (hrest.frame.text_ne_colon hcolon)
    obtain ⟨rest', hy, hr⟩ := ih hj hcolon
    refine ⟨_, .forDo ho hj hi hopen hlink hia hinit.headerPart ha hab htest.headerPart hb hbk hyi
      (hinner.frame.statementEnd ho trivial (by omega) hmj) hkm hmj hy, ?_⟩
    refine (Renders.range (j := a + 1) (by omega) (by omega)).append (by omega) ?_ (by omega)
    refine (Renders.range (j := b + 1) le_rfl (by omega)).append (by omega) ?_ (by omega)
    exact (Renders.range le_rfl (by omega)).append (by omega) (hri.append hkm hr hmj) (by omega)
  | switch hi he hb hinside hrest ihinside ih =>
    have hik := he.lt
    have hkm := hinside.frame.le
    have hmj := hrest.frame.le
    obtain ⟨inside', hyi, hri⟩ := ihinside (by omega) hb.closes_ne_colon
    obtain ⟨rest', hy, hr⟩ := ih hj hcolon
    refine ⟨_, .switch ho hj hi he.toParens hb hkm hmj hyi hy, ?_⟩
    exact (Renders.range (by omega) (by omega)).append (by omega)
      ((hri.mono le_rfl (by omega)).append (by omega) hr (by omega)) (by omega)
  | braces hb hs ih =>
    have hik := hs.frame.le
    obtain ⟨s', hy, hr⟩ := ih (by omega) hb.closes_ne_colon
    exact ⟨s', .braces ho hb hik (by omega) hy, hr.mono (by omega) (by omega)⟩
  | single hs hi hlabel ih =>
    obtain ⟨s', hy, hr⟩ := ih hj hcolon
    exact ⟨s', .single hi hy fun limit hl => hs.frame.statementEnd ho ⟨rfl, hlabel⟩ hj hl, hr⟩
  | armsDone => exact ⟨.done, .done, .nil⟩
  | armsCase hi hik hp hk hahead ih =>
    have hkj := hahead.frame.le
    obtain ⟨ahead', hy, hr⟩ := ih hj hcolon
    exact ⟨_, .caseOf ho hj hi hik hp hk hkj hy, hr.mono (by omega) le_rfl⟩
  | armsDefault hi hk hahead ih =>
    obtain ⟨ahead', hy, hr⟩ := ih hj hcolon
    exact ⟨_, .default ho hj hi hk hahead.frame.le hy, hr.mono (by omega) le_rfl⟩
  | armsStmts hs hlabel hahead ihs ih =>
    have hkj := hahead.frame.le
    obtain ⟨s', hys, hrs⟩ := ihs (by omega) (hahead.frame.text_ne_colon hcolon)
    obtain ⟨ahead', hy, hr⟩ := ih hj hcolon
    have hend := hs.frame.statementEnd ho ⟨rfl, hlabel⟩ (by omega) hkj
    exact ⟨_, .stmts hs.text_not_case hys hend hs.frame.width_le hkj hy, hrs.append hs.frame.le hr hkj⟩

end Code

/-- Every token of an expression statement, a return, a condition or a loop header goes into exactly one
block of the function's graph, exactly once, whether control can reach it or not, and blocks have their
tokens in the order of the text. -/
theorem Program.tokens_placed_once (p : Program) (k firstId : Nat) {f : Function} {s : Scope}
    {start stop count : Nat} {body : Stmts} (hf : p.functions[k]? = some f)
    (hs : p.scopeOf k f = some s) (hstart : s.bodyStart = some start) (hstop : s.bodyEnd = some stop)
    (ho : p.code.Linked) (hb : p.code.Braces start stop)
    (hw : p.code.Spells (.list count body) (start + 1) stop) :
    ∃ g, p.graph? k firstId = some g ∧
      (∀ pos ∈ body.content, ∃ n < g.size, (g.block n).tokens.count pos = 1 ∧
        ∀ m < g.size, pos ∈ (g.block m).tokens → m = n) ∧
      ∀ n < g.size, (g.block n).tokens.Pairwise (· < ·) := by
  have hsize : stop < p.code.size := Code.lt_size_of_text (by simp [hb.closes])
  obtain ⟨body', hy, hr⟩ := hw.keeps ho hsize hb.closes_ne_colon
  have hread := hy.read_eq ho hw.frame.le hsize
  obtain ⟨hplaced, hsorted⟩ := Stmts.graph_places hr.sorted f.name firstId
  refine ⟨_, p.graph?_eq k firstId hf hs hstart hstop hread, fun pos hpos => ?_, fun n _ => hsorted n⟩
  obtain ⟨n, hn, hcount, hunique⟩ := hplaced pos (hr.kept hpos)
  exact ⟨n, hn, hcount, fun m _ hm => hunique m hm⟩

/-- The call that the tour makes on the way round its first loop stands in one block. -/
theorem Program.tokens_placed_once_tour :
    ∃ g, Tour.program.graph? 0 0 = some g ∧
      (∃ n < g.size, (g.block n).tokens.count 13 = 1 ∧
        ∀ m < g.size, 13 ∈ (g.block m).tokens → m = n) ∧
      ∀ n < g.size, (g.block n).tokens.Pairwise (· < ·) := by
  obtain ⟨g, hg, hplaced, hsorted⟩ := Program.tokens_placed_once Tour.program 0 0 rfl rfl rfl rfl
    (Code.row_ordered _).toLinked ⟨rfl, rfl, rfl⟩ Tour.spells_body
  exact ⟨g, hg, hplaced 13 (by decide), hsorted⟩

end SignFlow

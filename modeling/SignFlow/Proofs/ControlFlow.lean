import SignFlow.Graph.Program
import SignFlow.Proofs.Paths
import SignFlow.Proofs.Reading

/-! The graph of a function has the control flow of its text. -/

namespace SignFlow

namespace Code

theorem lt_size_of_text {c : Code} {i : Nat} (h : c.text i ≠ "") : i < c.size := by
  by_contra hi
  have hnone : c.tokens[i]? = none := Array.getElem?_eq_none (Nat.le_of_not_lt hi)
  exact h (by simp [text, token, hnone])

/-- Tokens in a row, each next to the one before. -/
def row (tokens : List Token) : Code :=
  ⟨(tokens.mapIdx fun i t =>
    { t with
      next := if i + 1 < tokens.length then some (i + 1) else none
      previous := if i = 0 then none else some (i - 1) }).toArray⟩

theorem row_ordered (tokens : List Token) : (row tokens).Ordered := by
  have hsize : (row tokens).size = tokens.length := by simp [row, size]
  refine ⟨⟨fun i hi => ?_⟩, fun i hi => ?_⟩
  · rw [hsize] at hi
    simp [token, row, hi, show i < tokens.length by omega]
  · rw [hsize] at hi
    simp [token, row, hi]

end Code

theorem Program.graph?_eq (p : Program) (k firstId : Nat) {f : Function} {s : Scope} {start stop : Nat}
    {body : Stmts} (hf : p.functions[k]? = some f) (hs : p.scopeOf k f = some s)
    (hstart : s.bodyStart = some start) (hstop : s.bodyEnd = some stop)
    (hbody : p.code.read (some stop) (p.code.token start).next = body) :
    p.graph? k firstId = some (body.graph f.name firstId) := by
  simp [graph?, hf, hs, hstart, hstop, graphOf, hbody]

/-- Every graph of a function is the graph of some body. -/
theorem Program.exists_body (p : Program) (k firstId : Nat) {g : Graph} (h : p.graph? k firstId = some g) :
    ∃ body name, g = Stmts.graph body name firstId := by
  simp only [graph?, Option.bind_eq_bind, Option.bind_eq_some_iff] at h
  obtain ⟨f, -, s, -, h⟩ := h
  split at h
  · next hbody =>
    obtain ⟨hstart, hstop⟩ := Bool.and_eq_true_iff.mp hbody
    obtain ⟨start, hstart⟩ := Option.isSome_iff_exists.mp hstart
    obtain ⟨stop, hstop⟩ := Option.isSome_iff_exists.mp hstop
    obtain rfl := Option.some.inj h
    exact ⟨p.code.read (some stop) (p.code.token start).next, f.name, by simp only [graphOf, hstart, hstop]⟩
  · cases h

/-- Along the paths of its graph from the entry to the exit, a function shows exactly what the complete
executions of its body show, token by token: which expressions are passed, how conditions come out,
and which labels switches go to. -/
theorem Program.paths_are_executions (p : Program) (k firstId : Nat) {f : Function} {s : Scope}
    {start stop count : Nat} {body : Stmts} (hf : p.functions[k]? = some f)
    (hs : p.scopeOf k f = some s) (hstart : s.bodyStart = some start) (hstop : s.bodyEnd = some stop)
    (ho : p.code.Ordered) (hb : p.code.Braces start stop)
    (hw : p.code.Spells (.list count body) (start + 1) stop) (hproper : body.Proper) :
    ∃ g, p.graph? k firstId = some g ∧ ∀ t, g.Trace Graph.entry t ↔ body.Executes t := by
  have hsize : stop < p.code.size := Code.lt_size_of_text (by simp [hb.closes])
  have hgraph : p.graph? k firstId = some (body.graph f.name firstId) := by
    simp [graph?, hf, hs, hstart, hstop, graphOf, hw.read_eq ho hb hsize]
  exact ⟨_, hgraph, fun t => Stmts.graph_trace_iff hproper⟩

namespace Tour

def word (text : String) : Token := { text, isName := true }

def sign (text : String) (link : Option Nat := none) : Token := { text, link }

/-- A loop to break out of, a loop in a loop, and a switch that jumps to the end. -/
def code : Code := .row
  [ sign "\x7b" (some 51),
    word "while", sign "(" (some 4), word "a", sign ")" (some 2), sign "\x7b" (some 17),
    word "if", sign "(" (some 9), word "b", sign ")" (some 7), word "break", sign ";",
    word "else", word "f", sign "(" (some 15), sign ")" (some 14), sign ";", sign "\x7d" (some 5),
    word "for", sign "(" (some 23), sign ";", word "c", sign ";", sign ")" (some 19),
    word "do", word "continue", sign ";",
    word "while", sign "(" (some 30), word "d", sign ")" (some 28), sign ";",
    word "switch", sign "(" (some 35), word "e", sign ")" (some 33), sign "\x7b" (some 46),
    word "case", sign "1", sign ":", word "goto", word "L", sign ";",
    word "default", sign ":", sign ";", sign "\x7d" (some 36),
    word "L", sign ":", word "return", sign ";", sign "\x7d" (some 0) ]

def program : Program where
  code := code
  functions := [⟨some "main", some "1"⟩]
  scopes := [{ isFunction := true, function := some 0, bodyStart := some 0, bodyEnd := some 51 }]

def body : Stmts :=
  .whileDo [3] (.ifElse [8] (.leave 10 .done)
    (.token 13 (.token 14 (.token 15 (.token 16 .done)))) .done) <|
  .forDo [] [21] [] (.doWhile (.next 25 .done) [29] .done) <|
  .switch [34] (.caseOf "1" (.stmts (.goto 40 "L" .done) (.default (.stmts (.token 45 .done) .done)))) <|
  .label "L" <| .returns [49, 50] .done

theorem spells_body : code.Spells (.list 5 body) 1 51 := by
  refine .whileDo (i := 1) (k := 4) (m := 18) rfl ⟨⟨by decide, rfl, rfl, rfl⟩, by decide⟩ ?_ ?_
  · refine .braces (n := 1) (k := 17) ⟨rfl, rfl, rfl⟩ ?_
    refine .ifElse (i := 6) (k := 9) (m := 12) (l := 17) rfl ⟨⟨by decide, rfl, rfl, rfl⟩, by decide⟩ ?_ rfl ?_
      .done
    · exact .single (.leave rfl rfl .done) (by decide) rfl
    · exact .single (.expression (i := 13) (k := 16) (by decide) (by decide) rfl .done) (by decide) rfl
  refine .forDo (i := 18) (a := 20) (b := 22) (k := 23) (m := 32) rfl rfl rfl (by decide) (by decide) rfl
    (by decide) (by decide) rfl (by decide) (by decide) rfl ?_ ?_
  · refine .single (.doWhile (i := 24) (m := 27) (k := 30) rfl ?_ rfl
      ⟨⟨by decide, rfl, rfl, rfl⟩, by decide⟩ rfl .done) (by decide) rfl
    exact .single (.next rfl rfl .done) (by decide) rfl
  refine .switch (i := 32) (k := 35) (m := 46) rfl ⟨⟨by decide, rfl, rfl, rfl⟩, by decide⟩
    ⟨rfl, rfl, rfl⟩ ?_ ?_
  · refine .armsCase (i := 37) (k := 39) rfl (by decide) (by decide) rfl ?_
    refine .armsStmts (k := 43) (.goto rfl (by decide) rfl .done) rfl ?_
    exact .armsDefault rfl rfl (.armsStmts (.empty rfl .done) rfl .armsDone)
  · exact .label rfl (by decide) rfl (.returns (i := 49) (k := 50) rfl (by decide) (by decide) rfl .done)

/-- One way through: neither loop is entered, and the switch goes to its case. -/
def passage : List Event :=
  [.token 3, .outcome false, .token 21, .outcome false, .token 34, .chose (some "1"), .token 40,
    .token 49, .token 50]

theorem executes_passage : body.Executes passage := by
  refine .whileDo (.loopEnd ?_)
  refine .forDo (.forEnd (by decide) ?_)
  refine .switch (.head _) (.armsStmts ?_)
  exact .goto rfl (.after .returns)

end Tour

theorem Program.paths_are_executions_tour :
    ∃ g, Tour.program.graph? 0 0 = some g ∧ g.Trace Graph.entry Tour.passage ∧
      ∀ t, g.Trace Graph.entry t ↔ Tour.body.Executes t := by
  obtain ⟨g, hg, h⟩ := Program.paths_are_executions Tour.program 0 0 rfl rfl rfl rfl
    (Code.row_ordered _) ⟨rfl, rfl, rfl⟩ Tour.spells_body ⟨by decide, by decide⟩
  exact ⟨g, hg, (h _).mpr Tour.executes_passage, h⟩

end SignFlow

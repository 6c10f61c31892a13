import SignFlow.Proofs.ControlFlow

/-! Where statements end that may be labelled.

Behind a label the scan looks for the next semicolon and no longer asks what kind of statement it is in. So a
labelled statement is left at its end only if its first semicolon is its last token. -/

namespace SignFlow

inductive Statement
  /-- An expression, a declaration, a jump or nothing, with its semicolon. -/
  | simple
  | block
  | ifThen (yes : Statement)
  | ifElse (yes no : Statement)
  /-- A loop with its condition first, or a switch. -/
  | loop (inner : Statement)
  | doWhile (inner : Statement)
  | labelled (inner : Statement)

namespace Statement

/-- All semicolons of the statement stand between brackets. -/
def isBare : Statement → Bool
  | simple | doWhile _ => false
  | block => true
  | ifThen s | loop s | labelled s => s.isBare
  | ifElse yes no => yes.isBare && no.isBare

/-- The first semicolon that does not stand between brackets is the end of the statement. -/
def endsFirst : Statement → Bool
  | simple => true
  | block => false
  | ifThen s | loop s | labelled s => s.endsFirst
  | ifElse yes no => yes.isBare && no.endsFirst
  | doWhile s => s.isBare

/-- No label stands before a statement whose first semicolon is not its end. -/
def isScanned : Statement → Bool
  | simple | block => true
  | ifThen s | loop s | doWhile s => s.isScanned
  | ifElse yes no => yes.isScanned && no.isScanned
  | labelled s => s.endsFirst

end Statement

namespace Code

structure InRow (c : Code) : Prop where
  next : ∀ i, (c.token i).next = if i + 1 < c.size then some (i + 1) else none

/-- The tokens from one position up to another are this statement. An `else` belongs to the nearest `if`. -/
inductive Spans (c : Code) : Statement → Nat → Nat → Prop
  | empty {i} (hi : c.text i = ";") : c.Spans .simple i (i + 1)
  | simple {i k} (hi : c.text i ∉ reserved ∨ c.text i ∈ ["break", "continue", "return", "goto"])
    (hlabel : c.text (i + 1) ≠ ":") (h : c.Crosses i k) (hk : c.text k = ";") : c.Spans .simple i (k + 1)
  | block {i k} (hik : i < k) (h : c.Braces i k) : c.Spans .block i (k + 1)
  | ifThen {yes i k j} (hi : c.text i = "if") (h : c.Parens (i + 1) k) (hyes : c.Spans yes (k + 1) j)
    (helse : c.text j ≠ "else") : c.Spans (.ifThen yes) i j
  | ifElse {yes no i k m j} (hi : c.text i = "if") (h : c.Parens (i + 1) k)
    (hyes : c.Spans yes (k + 1) m) (helse : c.text m = "else") (hno : c.Spans no (m + 1) j) :
    c.Spans (.ifElse yes no) i j
  | loop {inner i k j} (hi : c.text i ∈ ["while", "for", "switch"]) (h : c.Parens (i + 1) k)
    (hinner : c.Spans inner (k + 1) j) : c.Spans (.loop inner) i j
  | doWhile {inner i m k} (hi : c.text i = "do") (hinner : c.Spans inner (i + 1) m)
    (hm : c.text m = "while") (h : c.Parens (m + 1) k) (hk : c.text (k + 1) = ";") :
    c.Spans (.doWhile inner) i (k + 2)
  | labelled {inner i k j} (hi : c.text i ∉ reserved ∨ c.text i ∈ ["case", "default"])
    (hone : c.text i = "case" ∨ k = i + 1) (h : c.Crosses i k) (hk : c.text k = ":")
    (hinner : c.Spans inner (k + 1) j) : c.Spans (.labelled inner) i j

variable {c : Code} {s inner : Statement} {i j k r limit steps : Nat} {o : Option Nat}

theorem row_inRow (tokens : List Token) : (row tokens).InRow := by
  refine ⟨fun i => ?_⟩
  have hsize : (row tokens).size = tokens.length := by simp [row, size]
  rw [hsize]
  by_cases hi : i < tokens.length
  · simp [token, row, hi]
  · rw [if_neg (by omega)]
    simp [token, row, hi]

theorem InRow.linked (hc : c.InRow) : c.Linked := ⟨fun i hi => (hc.next i).trans (if_pos hi)⟩

theorem InRow.text_of_pastSemicolonWithin (hc : c.InRow)
    (h : c.pastSemicolonWithin (some limit) steps o = some r) : c.text (r - 1) = ";" := by
  induction steps generalizing o with
  | zero => cases h
  | succ steps ih =>
    cases o with
    | none => cases h
    | some i =>
      rw [pastSemicolonWithin] at h
      split at h
      · cases h
      split at h
      · rw [hc.next] at h
        split at h
        · cases h
          assumption
        · cases h
      · split at h
        · exact ih h
        · exact ih h

theorem not_head {text : String} {words : List String} (h : text ∉ reserved ∨ text ∈ words)
    (hwords : ∀ word ∈ words, word ∉ heads ∧ word ≠ ":") : text ∉ heads ∧ text ≠ ":" := by
  refine h.elim (fun h => ⟨fun hm => h (heads_subset hm), ?_⟩) (hwords text)
  exact (ne_of_mem_of_not_mem (by decide) h).symm

/-- Either there is no semicolon on the way, which ends with a brace, or there is a first one. -/
def FirstSemicolon (c : Code) (bare endsFirst : Bool) (i j : Nat) : Prop :=
  bare = true ∧ endsFirst = false ∧ c.Crosses i j ∧ c.text (j - 1) = "\x7d" ∨
    bare = false ∧ ∃ p, c.Crosses i p ∧ c.text p = ";" ∧ p < j ∧ (endsFirst = true ↔ p + 1 = j)

theorem FirstSemicolon.behind {bare endsFirst : Bool} (h : c.FirstSemicolon bare endsFirst k j)
    (hcross : c.Crosses i k) : c.FirstSemicolon bare endsFirst i j := by
  rcases h with ⟨hbare, hends, hkj, hbrace⟩ | ⟨hbare, p, hkp, hp⟩
  · exact .inl ⟨hbare, hends, hcross.trans hkj, hbrace⟩
  · exact .inr ⟨hbare, p, hcross.trans hkp, hp⟩

theorem crosses_word (hi : c.text i ∈ ["if", "else", "while", "for", "switch", "do", ":"])
    (h : c.Crosses (i + 1) k) : c.Crosses i k := by
  have hword : ∀ word ∈ ["if", "else", "while", "for", "switch", "do", ":"],
      opensBracket word = false ∧ word ≠ ";" := by decide
  exact .token (hword _ hi).1 (hword _ hi).2 h

namespace Spans

theorem lt (h : c.Spans s i j) : i < j := by
  induction h with
  | empty => omega
  | simple _ _ h => exact Nat.lt_succ_of_le h.le
  | block hik => omega
  | ifThen _ hp _ _ ih | loop _ hp _ ih =>
    have := hp.lt
    omega
  | ifElse _ hp _ _ _ ihyes ihno =>
    have := hp.lt
    omega
  | doWhile _ _ _ hp _ ih =>
    have := hp.lt
    omega
  | labelled _ _ h _ _ ih =>
    have := h.le
    omega

theorem first_semicolon (h : c.Spans s i j) : c.FirstSemicolon s.isBare s.endsFirst i j := by
  induction h with
  | @empty i hi => exact .inr ⟨rfl, i, .done, hi, Nat.lt_succ_self i, by simp [Statement.endsFirst]⟩
  | @simple i k _ _ h hk => exact .inr ⟨rfl, k, h, hk, Nat.lt_succ_self k, by simp [Statement.endsFirst]⟩
  | block hik h =>
    exact .inl ⟨rfl, rfl, .jump (by simp [h.opens, opensBracket]) h.link hik .done, h.closes⟩
  | ifThen hi hp _ _ ih => exact ih.behind (crosses_word (by simp [hi]) (.parens hp .done))
  | loop hi hp _ ih =>
    have hword : ["while", "for", "switch"] ⊆ ["if", "else", "while", "for", "switch", "do", ":"] := by decide
    exact ih.behind (crosses_word (hword hi) (.parens hp .done))
  | labelled _ _ h hk _ ih => exact ih.behind (h.trans (crosses_word (by simp [hk]) .done))
  | @ifElse yes no i k m j hi hp hyes helse hno ihyes ihno =>
    have hhead : c.Crosses i (k + 1) := crosses_word (by simp [hi]) (.parens hp .done)
    have hmj := hno.lt
    rcases ihyes with ⟨hbare, -, hcross, -⟩ | ⟨hbare, p, hcross, hp, hlt, -⟩
    · have helse : c.Crosses m (m + 1) := crosses_word (by simp [helse]) .done
      rw [Statement.isBare, Statement.endsFirst, hbare]
      exact ihno.behind (hhead.trans (hcross.trans helse))
    · rw [Statement.isBare, Statement.endsFirst, hbare]
      exact .inr ⟨rfl, p, hhead.trans hcross, hp, by omega, by simp; omega⟩
  | @doWhile inner i m k hi hinner hm hp hk ih =>
    have hdo : c.Crosses i (i + 1) := crosses_word (by simp [hi]) .done
    have hmk := hp.lt
    rcases ih with ⟨hbare, -, hcross, -⟩ | ⟨hbare, p, hcross, hp, hlt, -⟩
    · have htail : c.Crosses m (k + 1) := crosses_word (by simp [hm]) (.parens hp .done)
      refine .inr ⟨rfl, k + 1, hdo.trans (hcross.trans htail), hk, by omega, ?_⟩
      simp [Statement.endsFirst, hbare]
    · exact .inr ⟨rfl, p, hdo.trans hcross, hp, by omega, by simp [Statement.endsFirst, hbare]; omega⟩

theorem labelled_iff (hc : c.InRow) (h : c.Spans (.labelled inner) i j) (hl : j ≤ limit)
    (hsize : limit < c.size) :
    c.pastSemicolon (some limit) (some i) = some j ↔ inner.endsFirst = true := by
  rcases h.first_semicolon with ⟨-, hends, -, hbrace⟩ | ⟨-, p, hcross, hp, hlt, hiff⟩
  · constructor
    · intro hpast
      have hsemicolon := hc.text_of_pastSemicolonWithin hpast
      exact absurd (hbrace.symm.trans hsemicolon) (by decide)
    · intro hinner
      cases hends.symm.trans hinner
  · rw [hcross.pastSemicolon hc.linked hp (by omega) (by omega), Option.some_inj]
    exact hiff.symm

theorem framed (h : c.Spans s i j) (hs : s.isScanned = true) : c.Framed i j := by
  induction h with
  | empty hi => exact .simple (by simp [hi, heads]) (by simp [hi]) .done hi
  | simple hi _ h hk =>
    obtain ⟨hhead, hcolon⟩ := not_head hi (by decide)
    exact .simple hhead hcolon h hk
  | block hik h => exact .block hik h
  | ifThen hi hp _ helse ih => exact .ifThen hi hp (ih hs) helse
  | ifElse hi hp _ helse _ ihyes ihno =>
    obtain ⟨hyes, hno⟩ := Bool.and_eq_true_iff.mp hs
    exact .ifElse hi hp (ihyes hyes) helse (ihno hno)
  | loop hi hp _ ih => exact .loop hi hp (ih hs)
  | doWhile hi _ hm hp hk ih => exact .doWhile hi (ih hs) hm hp hk
  | labelled hi hone h hk hinner =>
    -- with its first semicolon last, it is to the scan like an expression
    obtain ⟨hhead, hcolon⟩ := not_head hi (by decide)
    have hfirst := (Spans.labelled hi hone h hk hinner).first_semicolon
    rcases hfirst with ⟨-, hends, -⟩ | ⟨-, p, hcross, hp, -, hiff⟩
    · cases hends.symm.trans hs
    · obtain rfl := hiff.mp hs
      exact .simple hhead hcolon hcross hp

end Spans

/-- Scanning from the first token of a statement stops right behind it, if no label in it stands before a
statement with an earlier semicolon or none. A labelled statement is left there in no other case. -/
theorem statementEnd_behind (hc : c.InRow) (h : c.Spans s i j) (hl : j ≤ limit) (hsize : limit < c.size) :
    (s.isScanned = true → c.statementEnd (some limit) (some i) = some j) ∧
    ∀ inner, s = .labelled inner →
      (c.statementEnd (some limit) (some i) = some j ↔ inner.endsFirst = true) := by
  refine ⟨fun hs => (h.framed hs).statementEnd hc.linked (by omega) hl, ?_⟩
  rintro inner rfl
  have hpast : c.statementEnd (some limit) (some i) = c.pastSemicolon (some limit) (some i) := by
    cases h with
    | labelled hi => exact statementEndWithin_simple (not_head hi (by decide)).1
  rw [hpast]
  exact h.labelled_iff hc hl hsize

namespace Marked

open Tour in
def code : Code := .row
  -- the text `if (a) L: do { x; } while (b); else for (;;) M: y = c ? 1 : 2;` and a brace behind it
  [ word "if", sign "(" (some 3), word "a", sign ")" (some 1),
    word "L", sign ":", word "do", sign "\x7b" (some 10), word "x", sign ";", sign "\x7d" (some 7),
    word "while", sign "(" (some 14), word "b", sign ")" (some 12), sign ";",
    word "else", word "for", sign "(" (some 21), sign ";", sign ";", sign ")" (some 18),
    word "M", sign ":", word "y", sign "=", word "c", sign "?", sign "1", sign ":", sign "2", sign ";",
    sign "\x7d" ]

def statement : Statement := .ifElse (.labelled (.doWhile .block)) (.loop (.labelled .simple))

theorem spans_statement : code.Spans statement 0 32 := by
  refine .ifElse (i := 0) (k := 3) (m := 16) rfl ⟨by decide, rfl, rfl, rfl⟩ ?_ rfl ?_
  · refine .labelled (i := 4) (k := 5) (by decide) (.inr rfl) ?_ rfl ?_
    · exact Loose.crosses (by decide) (by decide)
    · exact .doWhile (i := 6) (m := 11) (k := 14) rfl (.block (k := 10) (by decide) ⟨rfl, rfl, rfl⟩) rfl
        ⟨by decide, rfl, rfl, rfl⟩ rfl
  · refine .loop (i := 17) (k := 21) (by decide) ⟨by decide, rfl, rfl, rfl⟩ ?_
    refine .labelled (i := 22) (k := 23) (by decide) (.inr rfl) ?_ rfl ?_
    · exact Loose.crosses (by decide) (by decide)
    · exact .simple (i := 24) (k := 31) (by decide) (by decide) (Loose.crosses (by decide) (by decide)) rfl

end Marked

theorem statementEnd_behind_marked :
    (Marked.code.InRow ∧ Marked.code.Spans Marked.statement 0 32 ∧ 32 ≤ 32 ∧ 32 < Marked.code.size ∧
      Marked.statement.isScanned = true) ∧
    Marked.code.statementEnd (some 32) (some 0) = some 32 :=
  ⟨⟨row_inRow _, Marked.spans_statement, by decide, by decide, rfl⟩,
    (statementEnd_behind (row_inRow _) Marked.spans_statement (by decide) (by decide)).1 rfl⟩

namespace Overrun

open Tour in
def code : Code := .row
  -- the text `{ if (c) L: { a; } b; }`
  [ sign "\x7b" (some 13), word "if", sign "(" (some 4), word "c", sign ")" (some 2),
    word "L", sign ":", sign "\x7b" (some 10), word "a", sign ";", sign "\x7d" (some 7),
    word "b", sign ";", sign "\x7d" (some 0) ]

end Overrun

/-- Behind a label the end of a block is not seen, and the next statement is taken into the condition. -/
theorem labelled_block_overrun :
    Overrun.code.InRow ∧ Overrun.code.Spans (.ifThen (.labelled .block)) 1 11 ∧
    Overrun.code.statementEnd (some 13) (some 1) = some 13 := by
  refine ⟨row_inRow _, ?_, by decide⟩
  refine .ifThen (i := 1) (k := 4) rfl ⟨by decide, rfl, rfl, rfl⟩ ?_ (by decide)
  refine .labelled (i := 5) (k := 6) (by decide) (.inr rfl) ?_ rfl
    (.block (k := 10) (by decide) ⟨rfl, rfl, rfl⟩)
  exact Loose.crosses (by decide) (by decide)

end Code

end SignFlow

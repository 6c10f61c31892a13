import SignFlow.Syntax.Stmts
import Mathlib.Data.List.Range

/-! The texts that spell well-formed function bodies, and where their statements end.

`Spells` says which tokens stand for which statements. Scanning such a text from the start of a
statement finds the end of that statement, whatever is nested inside it. -/

namespace SignFlow

/-- The words that no expression holds. -/
def reserved : List String :=
  ["if", "else", "while", "do", "for", "switch", "case", "default", "break", "continue", "return",
    "goto", ";", ":", "\x7b", "\x7d"]

/-- What the statements start with that do not just run up to a semicolon. -/
def heads : List String := ["\x7b", "if", "while", "for", "switch", "do"]

theorem heads_subset : heads ⊆ reserved := by decide

def Stmts.behind (tokens : List Nat) (rest : Stmts) : Stmts := tokens.foldr .token rest

def Stmts.isLabel : Stmts → Bool
  | .label _ _ => true
  | _ => false

inductive Form
  /-- So many statements and labels in a row. -/
  | list (count : Nat) (s : Stmts)
  /-- The body of a condition or a loop. -/
  | body (s : Stmts)
  /-- The inside of a switch. -/
  | arms (a : Arms)

/-- A form with this width takes at least so many tokens. -/
def Form.width : Form → Nat
  | list count _ => count
  | body _ => 1
  | arms _ => 0

/-- A single statement, as the body of a construct is, given which statements may start with a label. -/
def Form.IsStatement (label : Stmts → Bool) : Form → Prop
  | list count s => count = 1 ∧ label s = false
  | body _ => True
  | arms _ => False

namespace Code

/-- Every token points to the one behind it. -/
structure Linked (c : Code) : Prop where
  next : ∀ i, i + 1 < c.size → (c.token i).next = some (i + 1)

/-- Every token points to both its neighbours. -/
structure Ordered (c : Code) : Prop extends c.Linked where
  previous : ∀ i, i + 1 < c.size → (c.token (i + 1)).previous = some i

/-- The positions from one up to another hold an expression, or nothing: no reserved word, and every
bracket closes inside. -/
def Plain (c : Code) (i j : Nat) : Prop :=
  ∀ n ∈ List.range' i (j - i), c.text n ∉ reserved ∧
    (opensBracket (c.text n) = true → ∀ k ∈ (c.token n).link, n < k ∧ k < j)

instance (c : Code) (i j : Nat) : Decidable (c.Plain i j) :=
  inferInstanceAs (Decidable (∀ n ∈ _, _ ∧ (_ → ∀ k ∈ _, _)))

/-- The same, but with colons: an expression may choose between two others. -/
def Loose (c : Code) (i j : Nat) : Prop :=
  ∀ n ∈ List.range' i (j - i), (c.text n ∈ reserved → c.text n = ":") ∧
    (opensBracket (c.text n) = true → ∀ k ∈ (c.token n).link, n < k ∧ k < j)

instance (c : Code) (i j : Nat) : Decidable (c.Loose i j) :=
  inferInstanceAs (Decidable (∀ n ∈ _, (_ → _) ∧ (_ → ∀ k ∈ _, _)))

def HeaderPart (c : Code) (i j : Nat) : Prop := ∀ n ∈ List.range' i (j - i), c.text n ≠ ";"

instance (c : Code) (i j : Nat) : Decidable (c.HeaderPart i j) :=
  inferInstanceAs (Decidable (∀ n ∈ _, _))

structure Parens (c : Code) (i k : Nat) : Prop where
  lt : i < k
  opens : c.text i = "("
  link : (c.token i).link = some k
  closes : c.text k = ")"

/-- Parentheses, with what an expression inside them may hold. -/
structure Encloses (c : Code) (i k : Nat) : Prop extends c.Parens i k where
  plain : c.Plain (i + 1) k

structure Braces (c : Code) (i k : Nat) : Prop where
  opens : c.text i = "\x7b"
  link : (c.token i).link = some k
  closes : c.text k = "\x7d"

/-- Between two positions there is no semicolon, but for those between brackets that are jumped over. -/
inductive Crosses (c : Code) : Nat → Nat → Prop
  | done {i} : c.Crosses i i
  | step {i k} (hi : c.text i ≠ ";") (hopen : opensBracket (c.text i) = true → (c.token i).link = none)
    (h : c.Crosses (i + 1) k) : c.Crosses i k
  | jump {i l k} (hopen : opensBracket (c.text i) = true) (hlink : (c.token i).link = some l) (hil : i < l)
    (h : c.Crosses (l + 1) k) : c.Crosses i k

/-- The tokens from one position up to another spell this. An `else` belongs to the nearest `if`, and a
label stands only between the statements of a block. -/
inductive Spells (c : Code) : Form → Nat → Nat → Prop
  | done {i} : c.Spells (.list 0 .done) i i
  | expression {n rest i k j} (hi : i < k) (h : c.Plain i k) (hk : c.text k = ";")
    (hrest : c.Spells (.list n rest) (k + 1) j) :
    c.Spells (.list (n + 1) (rest.behind (List.range' i (k + 1 - i)))) i j
  | empty {n rest i j} (hi : c.text i = ";") (hrest : c.Spells (.list n rest) (i + 1) j) :
    c.Spells (.list (n + 1) (.token i rest)) i j
  | label {n rest i j} (hname : (c.token i).isName = true) (hi : c.text i ∉ reserved)
    (hcolon : c.text (i + 1) = ":") (hrest : c.Spells (.list n rest) (i + 2) j) :
    c.Spells (.list (n + 1) (.label (c.text i) rest)) i j
  | returns {n rest i k j} (hi : c.text i = "return") (hik : i < k) (h : c.Plain (i + 1) k)
    (hk : c.text k = ";") (hrest : c.Spells (.list n rest) (k + 1) j) :
    c.Spells (.list (n + 1) (.returns (List.range' i (k + 1 - i)) rest)) i j
  | leave {n rest i j} (hi : c.text i = "break") (hk : c.text (i + 1) = ";")
    (hrest : c.Spells (.list n rest) (i + 2) j) : c.Spells (.list (n + 1) (.leave i rest)) i j
  | next {n rest i j} (hi : c.text i = "continue") (hk : c.text (i + 1) = ";")
    (hrest : c.Spells (.list n rest) (i + 2) j) : c.Spells (.list (n + 1) (.next i rest)) i j
  | goto {n rest i j} (hi : c.text i = "goto") (h : c.Plain (i + 1) (i + 2))
    (hk : c.text (i + 2) = ";") (hrest : c.Spells (.list n rest) (i + 3) j) :
    c.Spells (.list (n + 1) (.goto i (c.text (i + 1)) rest)) i j
  | block {n m inner rest i k j} (h : c.Braces i k) (hinner : c.Spells (.list m inner) (i + 1) k)
    (hrest : c.Spells (.list n rest) (k + 1) j) : c.Spells (.list (n + 1) (.block inner rest)) i j
  | ifThen {n yes rest i k m j} (hi : c.text i = "if") (h : c.Encloses (i + 1) k)
    (hyes : c.Spells (.body yes) (k + 1) m) (hm : c.text m ≠ "else")
    (hrest : c.Spells (.list n rest) m j) :
    c.Spells (.list (n + 1) (.ifThen (List.range' (i + 2) (k - (i + 2))) yes rest)) i j
  | ifElse {n yes no rest i k m l j} (hi : c.text i = "if") (h : c.Encloses (i + 1) k)
    (hyes : c.Spells (.body yes) (k + 1) m) (hm : c.text m = "else")
    (hno : c.Spells (.body no) (m + 1) l) (hrest : c.Spells (.list n rest) l j) :
    c.Spells (.list (n + 1) (.ifElse (List.range' (i + 2) (k - (i + 2))) yes no rest)) i j
  | whileDo {n inner rest i k m j} (hi : c.text i = "while") (h : c.Encloses (i + 1) k)
    (hinner : c.Spells (.body inner) (k + 1) m) (hrest : c.Spells (.list n rest) m j) :
    c.Spells (.list (n + 1) (.whileDo (List.range' (i + 2) (k - (i + 2))) inner rest)) i j
  | doWhile {n inner rest i m k j} (hi : c.text i = "do")
    (hinner : c.Spells (.body inner) (i + 1) m) (hm : c.text m = "while")
    (h : c.Encloses (m + 1) k) (hk : c.text (k + 1) = ";")
    (hrest : c.Spells (.list n rest) (k + 2) j) :
    c.Spells (.list (n + 1) (.doWhile inner (List.range' (m + 2) (k - (m + 2))) rest)) i j
  | forDo {n inner rest i a b k m j} (hi : c.text i = "for") (hopen : c.text (i + 1) = "(")
    (hlink : (c.token (i + 1)).link = some k) (hia : i + 1 < a) (hinit : c.Plain (i + 2) a)
    (ha : c.text a = ";") (hab : a < b) (htest : c.Plain (a + 1) b) (hb : c.text b = ";")
    (hbk : b < k) (hstep : c.Plain (b + 1) k) (hclose : c.text k = ")")
    (hinner : c.Spells (.body inner) (k + 1) m) (hrest : c.Spells (.list n rest) m j) :
    c.Spells (.list (n + 1) (.forDo (List.range' (i + 2) (a - (i + 2)))
      (List.range' (a + 1) (b - (a + 1))) (List.range' (b + 1) (k - (b + 1))) inner rest)) i j
  | switch {n inside rest i k m j} (hi : c.text i = "switch") (h : c.Encloses (i + 1) k)
    (hbraces : c.Braces (k + 1) m) (hinside : c.Spells (.arms inside) (k + 2) m)
    (hrest : c.Spells (.list n rest) (m + 1) j) :
    c.Spells (.list (n + 1) (.switch (List.range' (i + 2) (k - (i + 2))) inside rest)) i j
  | braces {n s i k} (h : c.Braces i k) (hs : c.Spells (.list n s) (i + 1) k) :
    c.Spells (.body s) i (k + 1)
  | single {s i j} (hs : c.Spells (.list 1 s) i j) (hi : c.text i ≠ "\x7b")
    (hlabel : s.isLabel = false) : c.Spells (.body s) i j
  | armsDone {i} : c.Spells (.arms .done) i i
  | armsCase {ahead i k j} (hi : c.text i = "case") (hik : i < k) (h : c.Plain (i + 1) k)
    (hk : c.text k = ":") (hahead : c.Spells (.arms ahead) (k + 1) j) :
    c.Spells (.arms (.caseOf
      (" ".intercalate ((List.range' (i + 1) (k - (i + 1))).map c.text)) ahead)) i j
  | armsDefault {ahead i j} (hi : c.text i = "default") (hk : c.text (i + 1) = ":")
    (hahead : c.Spells (.arms ahead) (i + 2) j) : c.Spells (.arms (.default ahead)) i j
  | armsStmts {s ahead i k j} (hs : c.Spells (.list 1 s) i k) (hlabel : s.isLabel = false)
    (hahead : c.Spells (.arms ahead) k j) : c.Spells (.arms (.stmts s ahead)) i j

section
variable {c : Code} {F : Form} {s : Stmts} {i j k n l limit steps : Nat}

theorem Linked.next_some (ho : c.Linked) (hi : i + 1 < c.size) : c.next (some i) = some (i + 1) :=
  ho.next i hi

theorem Plain.not_reserved (h : c.Plain i j) (hi : i ≤ n) (hj : n < j) : c.text n ∉ reserved :=
  (h n (List.mem_range'_1.mpr (by omega))).1

theorem Plain.tail (h : c.Plain i j) (hi : i ≤ n) : c.Plain n j := by
  intro m hm
  obtain ⟨hle, hlt⟩ := List.mem_range'_1.mp hm
  exact h m (List.mem_range'_1.mpr (by omega))

theorem Plain.loose (h : c.Plain i j) : c.Loose i j :=
  fun n hn => ⟨fun hr => absurd hr (h n hn).1, (h n hn).2⟩

theorem Plain.headerPart (h : c.Plain i j) : c.HeaderPart i j :=
  fun n hn => (ne_of_mem_of_not_mem (by decide) (h n hn).1).symm

theorem Loose.eq_colon (h : c.Loose i j) (hi : i ≤ n) (hj : n < j) (hr : c.text n ∈ reserved) :
    c.text n = ":" := (h n (List.mem_range'_1.mpr (by omega))).1 hr

theorem Loose.link (h : c.Loose i j) (hi : i ≤ n) (hj : n < j)
    (hopen : opensBracket (c.text n) = true) (hl : (c.token n).link = some l) : n < l ∧ l < j :=
  (h n (List.mem_range'_1.mpr (by omega))).2 hopen l hl

theorem Loose.tail (h : c.Loose i j) (hi : i ≤ n) : c.Loose n j := by
  intro m hm
  obtain ⟨hle, hlt⟩ := List.mem_range'_1.mp hm
  exact h m (List.mem_range'_1.mpr (by omega))

theorem HeaderPart.text_ne (h : c.HeaderPart i j) (hi : i ≤ n) (hj : n < j) : c.text n ≠ ";" :=
  h n (List.mem_range'_1.mpr (by omega))

theorem Braces.braceEnd (h : c.Braces i k) : c.braceEnd (some i) = some k := by
  simp only [Code.braceEnd, Option.bind_some, h.opens, if_true, h.link]

theorem Braces.closes_ne_colon (h : c.Braces i k) : c.text k ≠ ":" := by simp [h.closes]

theorem pastParenthesis_eq (ho : c.Linked) (hi : c.text i = "(") (hl : (c.token i).link = some k)
    (hk : k + 1 < c.size) : c.pastParenthesis (some i) = some (k + 1) := by
  have hi' : (c.token i).text = "(" := hi
  simp only [pastParenthesis, hi', if_true, hl, ho.next k hk]

theorem pastSemicolonWithin_here (hi : c.text i = ";") (hne : i ≠ limit) :
    c.pastSemicolonWithin (some limit) (steps + 1) (some i) = (c.token i).next := by
  have hi' : (c.token i).text = ";" := hi
  rw [pastSemicolonWithin, if_neg (by simpa using hne), if_pos hi']

theorem pastSemicolonWithin_step (hi : c.text i ≠ ";") (hne : i ≠ limit)
    (hopen : opensBracket (c.text i) = true → (c.token i).link = none) :
    c.pastSemicolonWithin (some limit) (steps + 1) (some i) =
      c.pastSemicolonWithin (some limit) steps (c.token i).next := by
  have hi' : (c.token i).text ≠ ";" := hi
  have hnone : (if opensBracket (c.token i).text then (c.token i).link else none) = none := by
    split_ifs with h
    · exact hopen h
    · rfl
  rw [pastSemicolonWithin, if_neg (by simpa using hne), if_neg hi']
  simp only [hnone]

theorem pastSemicolonWithin_link (hi : opensBracket (c.text i) = true) (hne : i ≠ limit)
    (hl : (c.token i).link = some l) :
    c.pastSemicolonWithin (some limit) (steps + 1) (some i) =
      c.pastSemicolonWithin (some limit) steps (c.token l).next := by
  have hi' : (c.token i).text ≠ ";" := by
    intro he
    rw [Code.text, he] at hi
    exact absurd hi (by decide)
  have hsome : (if opensBracket (c.token i).text then (c.token i).link else none) = some l := by
    rw [← Code.text, if_pos hi, hl]
  rw [pastSemicolonWithin, if_neg (by simpa using hne), if_neg hi']
  simp only [hsome]

namespace Crosses

theorem le (h : c.Crosses i k) : i ≤ k := by
  induction h with
  | done => exact le_rfl
  | step _ _ _ ih => omega
  | jump _ _ hil _ ih => omega

theorem trans (h : c.Crosses i n) (hn : c.Crosses n k) : c.Crosses i k := by
  induction h with
  | done => exact hn
  | step hi hopen _ ih => exact .step hi hopen (ih hn)
  | jump hopen hlink hil _ ih => exact .jump hopen hlink hil (ih hn)

theorem token (hi : opensBracket (c.text i) = false) (hne : c.text i ≠ ";") (h : c.Crosses (i + 1) k) :
    c.Crosses i k := .step hne (fun hopen => absurd (hi.symm.trans hopen) (by decide)) h

theorem parens (hp : c.Parens i n) (h : c.Crosses (n + 1) k) : c.Crosses i k :=
  .jump (by simp [hp.opens, opensBracket]) hp.link hp.lt h

/-- The walk to a semicolon ends behind the first one that it comes to. -/
theorem pastSemicolonWithin (ho : c.Linked) (h : c.Crosses i k) (hk : c.text k = ";")
    (hsize : k + 1 < c.size) (hl : k < limit) (hs : k - i < steps) :
    c.pastSemicolonWithin (some limit) steps (some i) = some (k + 1) := by
  obtain ⟨steps, rfl⟩ := Nat.exists_eq_add_one.mpr (Nat.zero_lt_of_lt hs)
  induction h generalizing steps with
  | done => rw [pastSemicolonWithin_here hk hl.ne, ho.next _ hsize]
  | step hi hopen h ih =>
    have := h.le
    obtain ⟨steps, rfl⟩ : ∃ n, steps = n + 1 := ⟨steps - 1, by omega⟩
    rw [pastSemicolonWithin_step hi (by omega) hopen, ho.next _ (by omega)]
    exact ih hk hsize hl _ (by omega)
  | jump hopen hlink hil h ih =>
    have := h.le
    obtain ⟨steps, rfl⟩ : ∃ n, steps = n + 1 := ⟨steps - 1, by omega⟩
    rw [pastSemicolonWithin_link hopen (by omega) hlink, ho.next _ (by omega)]
    exact ih hk hsize hl _ (by omega)

theorem pastSemicolon (ho : c.Linked) (h : c.Crosses i k) (hk : c.text k = ";") (hsize : k + 1 < c.size)
    (hl : k < limit) : c.pastSemicolon (some limit) (some i) = some (k + 1) :=
  h.pastSemicolonWithin ho hk hsize hl (by omega)

end Crosses

/-- An expression is crossed: the brackets on the way close inside it. -/
theorem Loose.crosses (h : c.Loose i k) (hik : i ≤ k) : c.Crosses i k := by
  induction hn : k - i using Nat.strongRecOn generalizing i with
  | ind n ih =>
    rcases hik.eq_or_lt with rfl | hlt
    · exact .done
    have hne : c.text i ≠ ";" := fun hi => by
      have hcolon := h.eq_colon le_rfl hlt (hi ▸ by decide)
      rw [hi] at hcolon
      exact absurd hcolon (by decide)
    by_cases hopen : opensBracket (c.text i) = true ∧ (c.token i).link ≠ none
    · obtain ⟨l, hlink⟩ := Option.ne_none_iff_exists'.mp hopen.2
      obtain ⟨hil, hlk⟩ := h.link le_rfl hlt hopen.1 hlink
      exact .jump hopen.1 hlink hil (ih (k - (l + 1)) (by omega) (h.tail (by omega)) (by omega) rfl)
    · exact .step hne (fun h => by_contra fun hn => hopen ⟨h, hn⟩)
        (ih (k - (i + 1)) (by omega) (h.tail (by omega)) (by omega) rfl)

theorem Loose.pastSemicolonWithin (ho : c.Linked) (h : c.Loose i k) (hik : i ≤ k)
    (hk : c.text k = ";") (hsize : k + 1 < c.size) (hl : k < limit) (hs : k - i < steps) :
    c.pastSemicolonWithin (some limit) steps (some i) = some (k + 1) :=
  (h.crosses hik).pastSemicolonWithin ho hk hsize hl hs

theorem pastSemicolon_keyword (ho : c.Linked) (hne : c.text i ≠ ";")
    (hopen : opensBracket (c.text i) = false) (h : c.Plain (i + 1) k) (hik : i < k)
    (hk : c.text k = ";") (hsize : k + 1 < c.size) (hl : k < limit) :
    c.pastSemicolon (some limit) (some i) = some (k + 1) :=
  (Crosses.token hopen hne (h.loose.crosses hik)).pastSemicolon ho hk hsize hl

/-- An expression does not start with a colon, nor does what follows an empty one. -/
theorem Plain.text_ne_colon (h : c.Plain i k) (hik : i ≤ k) (hk : c.text k ≠ ":") :
    c.text i ≠ ":" := by
  rcases hik.eq_or_lt with rfl | hlt
  · exact hk
  · exact (ne_of_mem_of_not_mem (by decide) (h.not_reserved le_rfl hlt)).symm

theorem Plain.nil : c.Plain i i := by
  intro n hn
  have := List.mem_range'_1.mp hn
  omega

/-- The token in front of a position ends a statement or a label, or opens a block. -/
def Closed (c : Code) (i : Nat) : Prop := c.text (i - 1) ∈ [";", "\x7b", "\x7d", ":"]

theorem Closed.of_text {text : String} (hi : c.text i = text)
    (h : text ∈ [";", "\x7b", "\x7d", ":"]) : c.Closed (i + 1) := by
  rwa [Closed, Nat.add_sub_cancel, hi]

theorem Closed.of_lt (h : c.Closed i) (hij : i ≤ j) (hj : i < j → c.Closed j) : c.Closed j := by
  rcases hij.eq_or_lt with rfl | hlt
  · exact h
  · exact hj hlt

theorem Closed.atStart (ho : c.Ordered) (h : c.Closed i) (h0 : 0 < i) (hi : i < c.size) :
    c.atStart (c.token i) = true := by
  obtain ⟨i, rfl⟩ := Nat.exists_eq_add_one.mpr h0
  rw [Code.atStart, ho.previous i hi, Option.all_some]
  exact List.contains_iff_mem.mpr h

theorem statementEndWithin_simple {limit : Option Nat} {depth : Nat} (hi : c.text i ∉ heads) :
    c.statementEndWithin limit (depth + 1) (some i) = c.pastSemicolon limit (some i) := by
  simp only [heads, List.mem_cons, List.not_mem_nil, or_false, not_or] at hi
  simp [statementEndWithin, textAt, hi]

/-- A statement that starts here ends there. -/
def Ends (c : Code) (limit i j : Nat) : Prop :=
  ∀ depth, j - i < depth → c.statementEndWithin (some limit) depth (some i) = some j

namespace Ends
variable {m : Nat}

theorem brace (ho : c.Linked) (h : c.Braces i k) (hk : k + 1 < c.size) : c.Ends limit i (k + 1) := by
  rintro (_ | depth) hd
  · omega
  · simp only [statementEndWithin, textAt, Option.elim_some, h.opens, if_true, h.braceEnd,
      ho.next_some hk]

theorem ifThen (ho : c.Linked) (hi : c.text i = "if") (h : c.Parens (i + 1) k)
    (hk : k + 1 < c.size) (hm : c.Ends limit (k + 1) m) (hkm : k < m) (helse : c.text m ≠ "else") :
    c.Ends limit i m := by
  rintro (_ | depth) hd
  · omega
  have := h.lt
  have hyes := hm depth (by omega)
  simp [statementEndWithin, textAt, hi, ho.next_some (i := i) (by omega),
    pastParenthesis_eq ho h.opens h.link hk, hyes, helse]

theorem ifElse (ho : c.Linked) (hi : c.text i = "if") (h : c.Parens (i + 1) k)
    (hm : c.Ends limit (k + 1) m) (hkm : k < m) (helse : c.text m = "else") (hmj : m + 1 < j)
    (hj : j < c.size) (hno : c.Ends limit (m + 1) j) : c.Ends limit i j := by
  rintro (_ | depth) hd
  · omega
  have := h.lt
  have hyes := hm depth (by omega)
  simp [statementEndWithin, textAt, hi, ho.next_some (i := i) (by omega),
    pastParenthesis_eq ho h.opens h.link (by omega), hyes, helse, ho.next_some (i := m) (by omega),
    hno depth (by omega)]

theorem loop (ho : c.Linked) (hi : c.text i ∈ ["while", "for", "switch"])
    (h : c.Parens (i + 1) k) (hkm : k < m) (hsize : m < c.size) (hm : c.Ends limit (k + 1) m) :
    c.Ends limit i m := by
  rintro (_ | depth) hd
  · omega
  have := h.lt
  have hinner := hm depth (by omega)
  simp only [List.mem_cons, List.not_mem_nil, or_false] at hi
  rcases hi with hi | hi | hi <;>
    simp [statementEndWithin, textAt, hi, ho.next_some (i := i) (by omega),
      pastParenthesis_eq ho h.opens h.link (by omega), hinner]

theorem doWhile (ho : c.Linked) (hi : c.text i = "do") (hm : c.Ends limit (i + 1) m)
    (him : i + 1 < m) (hwhile : c.text m = "while") (h : c.Parens (m + 1) k)
    (hk : c.text (k + 1) = ";") (hsize : k + 2 < c.size) (hl : k + 1 < limit) :
    c.Ends limit i (k + 2) := by
  rintro (_ | depth) hd
  · omega
  have := h.lt
  have hinner := hm depth (by omega)
  have hcross : c.Crosses m (k + 1) :=
    .token (by simp [hwhile, opensBracket]) (by simp [hwhile]) (.parens h .done)
  have hpast := hcross.pastSemicolon ho hk hsize hl
  simp [statementEndWithin, textAt, hi, ho.next_some (i := i) (by omega), hinner, hpast]

theorem simple (hi : c.text i ∉ heads) (h : c.pastSemicolon (some limit) (some i) = some j) :
    c.Ends limit i j := by
  rintro (_ | depth) hd
  · omega
  · rw [statementEndWithin_simple hi, h]

end Ends

/-- A statement as far as scanning looks at it: how it starts, the brackets that are jumped over, and the
statements inside whose ends have to be found. -/
inductive Framed (c : Code) : Nat → Nat → Prop
  | simple {i k : Nat} (hi : c.text i ∉ heads) (hcolon : c.text i ≠ ":") (h : c.Crosses i k)
    (hk : c.text k = ";") : c.Framed i (k + 1)
  | block {i k : Nat} (hik : i < k) (h : c.Braces i k) : c.Framed i (k + 1)
  | ifThen {i k j : Nat} (hi : c.text i = "if") (h : c.Parens (i + 1) k) (hyes : c.Framed (k + 1) j)
    (helse : c.text j ≠ "else") : c.Framed i j
  | ifElse {i k m j : Nat} (hi : c.text i = "if") (h : c.Parens (i + 1) k) (hyes : c.Framed (k + 1) m)
    (helse : c.text m = "else") (hno : c.Framed (m + 1) j) : c.Framed i j
  | loop {i k j : Nat} (hi : c.text i ∈ ["while", "for", "switch"]) (h : c.Parens (i + 1) k)
    (hinner : c.Framed (k + 1) j) : c.Framed i j
  | doWhile {i m k : Nat} (hi : c.text i = "do") (hinner : c.Framed (i + 1) m) (hm : c.text m = "while")
    (h : c.Parens (m + 1) k) (hk : c.text (k + 1) = ";") : c.Framed i (k + 2)

namespace Framed

theorem lt (h : c.Framed i j) : i < j := by
  induction h with
  | simple _ _ h => exact Nat.lt_succ_of_le h.le
  | block hik => omega
  | ifThen _ hp _ _ ih | loop _ hp _ ih =>
    have := hp.lt
    omega
  | ifElse _ hp _ _ _ ihyes ihno =>
    have := hp.lt
    omega
  | doWhile _ _ _ hp _ ih =>
    have := hp.lt
    omega

theorem jump (hi : c.text i ∈ ["return", "break", "continue", "goto"]) (hik : i < k) (h : c.Plain (i + 1) k)
    (hk : c.text k = ";") : c.Framed i (k + 1) := by
  have hwords : ∀ word ∈ ["return", "break", "continue", "goto"],
      (word ∉ heads ∧ word ≠ ":") ∧ opensBracket word = false ∧ word ≠ ";" := by decide
  obtain ⟨⟨hhead, hcolon⟩, hopen, hne⟩ := hwords _ hi
  exact .simple hhead hcolon (.token hopen hne (h.loose.crosses hik)) hk

theorem text_ne_colon (h : c.Framed i j) : c.text i ≠ ":" := by
  cases h with
  | simple _ hcolon => exact hcolon
  | block _ hb => simp [hb.opens]
  | ifThen hi | ifElse hi | doWhile hi => simp [hi]
  | loop hi => exact ne_of_mem_of_not_mem hi (by decide)

/-- Scanning from the start of a statement finds its end. -/
theorem ends (h : c.Framed i j) (ho : c.Linked) (hj : j < c.size) (hl : j ≤ limit) :
    c.Ends limit i j := by
  induction h with
  | simple hi _ h hk => exact .simple hi (h.pastSemicolon ho hk hj hl)
  | block _ hb => exact .brace ho hb hj
  | ifThen hi hp hyes helse ih =>
    have := hyes.lt
    exact .ifThen ho hi hp (by omega) (ih hj hl) (by omega) helse
  | ifElse hi hp hyes helse hno ihyes ihno =>
    have := hyes.lt
    have := hno.lt
    exact .ifElse ho hi hp (ihyes (by omega) (by omega)) (by omega) helse (by omega) hj (ihno hj hl)
  | loop hi hp hinner ih =>
    have := hinner.lt
    exact .loop ho hi hp (by omega) hj (ih hj hl)
  | doWhile hi hinner hm hp hk ih =>
    have := hp.lt
    have := hinner.lt
    exact .doWhile ho hi (ih (by omega) (by omega)) (by omega) hm hp hk hj (by omega)

theorem statementEnd (h : c.Framed i j) (ho : c.Linked) (hj : j < c.size) (hl : j ≤ limit) :
    c.statementEnd (some limit) (some i) = some j := h.ends ho hj hl _ (by omega)

end Framed

/-- So many statements and labels in a row; the first may be a label only if that is said. -/
inductive Delimited (c : Code) : Nat → Bool → Nat → Nat → Prop
  | done {b : Bool} {i : Nat} : c.Delimited 0 b i i
  | statement {b b' : Bool} {n i k j : Nat} (h : c.Framed i k) (hrest : c.Delimited n b' k j) :
    c.Delimited (n + 1) b i j
  | label {b' : Bool} {n i k j : Nat} (hi : c.text i ≠ ":") (hik : i < k) (hrest : c.Delimited n b' k j) :
    c.Delimited (n + 1) true i j

namespace Delimited

variable {b : Bool}

theorem width_le (h : c.Delimited n b i j) : i + n ≤ j := by
  induction h with
  | done => exact le_rfl
  | statement h _ ih =>
    have := h.lt
    omega
  | label _ hik _ ih => omega

theorem text_ne_colon (h : c.Delimited n b i j) (hj : c.text j ≠ ":") : c.text i ≠ ":" := by
  cases h with
  | done => exact hj
  | statement h => exact h.text_ne_colon
  | label hi => exact hi

theorem framed (h : c.Delimited 1 b i j) (hb : b = false) : c.Framed i j := by
  cases h with
  | statement h hrest =>
    cases hrest
    exact h
  | label => cases hb

end Delimited

/-- What a form is to a scan, given which statements may start with a label. -/
def Frame (c : Code) (label : Stmts → Bool) : Form → Nat → Nat → Prop
  | .list n s => c.Delimited n (label s)
  | .body _ => c.Framed
  | .arms _ => fun i j => ∃ n b, c.Delimited n b i j

namespace Frame

variable {label : Stmts → Bool}

theorem width_le (h : c.Frame label F i j) : i + F.width ≤ j := by
  cases F with
  | list n s => exact Delimited.width_le h
  | body s => exact Framed.lt h
  | arms a =>
    obtain ⟨n, b, h⟩ := h
    exact (Nat.le_add_right i n).trans h.width_le

theorem le (h : c.Frame label F i j) : i ≤ j := (Nat.le_add_right i _).trans h.width_le

theorem text_ne_colon (h : c.Frame label F i j) (hj : c.text j ≠ ":") : c.text i ≠ ":" := by
  cases F with
  | list n s => exact Delimited.text_ne_colon h hj
  | body s => exact Framed.text_ne_colon h
  | arms a =>
    obtain ⟨n, b, h⟩ := h
    exact h.text_ne_colon hj

theorem framed (h : c.Frame label F i j) (hF : F.IsStatement label) : c.Framed i j := by
  cases F with
  | list n s =>
    obtain ⟨rfl, hlabel⟩ := hF
    exact Delimited.framed h hlabel
  | body s => exact h
  | arms a => exact hF.elim

theorem statementEnd (h : c.Frame label F i j) (ho : c.Linked) (hF : F.IsStatement label)
    (hj : j < c.size) (hl : j ≤ limit) : c.statementEnd (some limit) (some i) = some j :=
  (h.framed hF).statementEnd ho hj hl

end Frame

namespace Spells

theorem frame (h : c.Spells F i j) : c.Frame Stmts.isLabel F i j := by
  induction h with
  | done => exact .done
  | expression hi hp hk hrest ih =>
    have hfirst := hp.not_reserved le_rfl hi
    refine .statement (.simple (fun hm => hfirst (heads_subset hm)) ?_ (hp.loose.crosses hi.le) hk) ih
    exact (ne_of_mem_of_not_mem (by decide) hfirst).symm
  | empty hi hrest ih => exact .statement (.simple (by simp [hi, heads]) (by simp [hi]) .done hi) ih
  | label _ hi _ hrest ih =>
    exact .label (ne_of_mem_of_not_mem (by decide) hi).symm (by omega) ih
  | returns hi hik hp hk hrest ih => exact .statement (.jump (by simp [hi]) hik hp hk) ih
  | leave hi hk hrest ih | next hi hk hrest ih =>
    exact .statement (.jump (by simp [hi]) (Nat.lt_succ_self _) .nil hk) ih
  | goto hi hp hk hrest ih => exact .statement (.jump (by simp [hi]) (by omega) hp hk) ih
  | block hb _ hrest ihinner ih =>
    have := Delimited.width_le ihinner
    exact .statement (.block (by omega) hb) ih
  | ifThen hi he _ hm hrest ihyes ih => exact .statement (.ifThen hi he.toParens ihyes hm) ih
  | ifElse hi he _ hm _ hrest ihyes ihno ih => exact .statement (.ifElse hi he.toParens ihyes hm ihno) ih
  | whileDo hi he _ hrest ihinner ih => exact .statement (.loop (by simp [hi]) he.toParens ihinner) ih
  | doWhile hi _ hm he hk hrest ihinner ih => exact .statement (.doWhile hi ihinner hm he.toParens hk) ih
  | forDo hi hopen hlink hia _ _ hab _ _ hbk _ hclose _ hrest ihinner ih =>
    exact .statement (.loop (by simp [hi]) ⟨by omega, hopen, hlink, hclose⟩ ihinner) ih
  | switch hi he hb _ hrest ihinside ih =>
    -- a scan jumps over the arms, as over any block
    obtain ⟨n, b, hinside⟩ := ihinside
    have := hinside.width_le
    exact .statement (.loop (by simp [hi]) he.toParens (.block (by omega) hb)) ih
  | braces hb _ ih =>
    have := Delimited.width_le ih
    exact .block (by omega) hb
  | single _ _ hlabel ih => exact Delimited.framed ih hlabel
  | armsDone => exact ⟨0, false, .done⟩
  | armsCase hi hik _ _ hahead ih =>
    obtain ⟨n, b, ih⟩ := ih
    exact ⟨n + 1, true, .label (by simp [hi]) (by omega) ih⟩
  | armsDefault hi _ hahead ih =>
    obtain ⟨n, b, ih⟩ := ih
    exact ⟨n + 1, true, .label (by simp [hi]) (by omega) ih⟩
  | armsStmts _ hlabel _ ihs ih =>
    obtain ⟨n, b, ih⟩ := ih
    exact ⟨n + 1, false, .statement (Delimited.framed ihs hlabel) ih⟩

theorem text_not_case (h : c.Spells (.list (n + 1) s) i j) : c.text i ∉ ["case", "default"] := by
  have hsub : ["case", "default"] ⊆ reserved := by decide
  cases h with
  | expression hi hp => exact fun hm => hp.not_reserved le_rfl hi (hsub hm)
  | label _ hi => exact fun hm => hi (hsub hm)
  | block hb => simp [hb.opens]
  | empty hi | returns hi | leave hi | next hi | goto hi | ifThen hi | ifElse hi | whileDo hi
  | doWhile hi | forDo hi | switch hi => simp [hi]

/-- Every statement ends where a label may stand. -/
theorem closed (h : c.Spells F i j) (hij : i < j) : c.Closed j := by
  induction h with
  | done | armsDone => exact absurd hij (lt_irrefl _)
  | expression _ _ hk hrest ih | returns _ _ _ hk hrest ih =>
    exact (Closed.of_text hk (by decide)).of_lt hrest.frame.le ih
  | empty hk hrest ih | leave _ hk hrest ih | next _ hk hrest ih | label _ _ hk hrest ih
  | goto _ _ hk hrest ih | armsDefault _ hk hrest ih =>
    exact (Closed.of_text hk (by decide)).of_lt hrest.frame.le ih
  | armsCase _ _ _ hk hrest ih => exact (Closed.of_text hk (by decide)).of_lt hrest.frame.le ih
  | doWhile _ _ _ _ hk hrest _ ih => exact (Closed.of_text hk (by decide)).of_lt hrest.frame.le ih
  | block hb _ hrest _ ih | switch _ _ hb _ hrest _ ih =>
    exact (Closed.of_text hb.closes (by decide)).of_lt hrest.frame.le ih
  | ifThen _ _ hbody _ hrest ihbody ih | whileDo _ _ hbody hrest ihbody ih =>
    exact (ihbody hbody.frame.width_le).of_lt hrest.frame.le ih
  | ifElse _ _ _ _ hbody hrest _ ihbody ih => exact (ihbody hbody.frame.width_le).of_lt hrest.frame.le ih
  | forDo _ _ _ _ _ _ _ _ _ _ _ _ hbody hrest ihbody ih =>
    exact (ihbody hbody.frame.width_le).of_lt hrest.frame.le ih
  | braces hb => exact Closed.of_text hb.closes (by decide)
  | single _ _ _ ih => exact ih hij
  | armsStmts hs _ hahead ihs ih => exact (ihs hs.frame.width_le).of_lt hahead.frame.le ih

end Spells

end

end Code

end SignFlow

import SignFlow.Proofs.Grammar

/-! Reading a text gives back the statements it spells.

For each construct there is a rule: from what its parts are read as follows what the whole is read as.
The rules are then put together along the way the text is written. -/

namespace SignFlow.Code

section
variable {c : Code} {stop : Nat → Bool} {i j k : Nat}

theorem collectWithin_eq {steps : Nat} (ho : c.Linked) (hik : i ≤ k) (hk : k < c.size)
    (hstop : stop k = true) (hgo : ∀ n, i ≤ n → n < k → stop n = false) (hs : k - i < steps) :
    c.collectWithin stop steps (some i) = (List.range' i (k - i), some k) := by
  induction steps generalizing i with
  | zero => omega
  | succ steps ih =>
    rcases hik.eq_or_lt with rfl | hlt
    · simp [collectWithin, hstop]
    have hrest := ih (i := i + 1) hlt (fun n hn => hgo n (by omega)) (by omega)
    have hlen : k - i = (k - (i + 1)) + 1 := by omega
    simp only [collectWithin, hgo i le_rfl hlt, ho.next i (by omega), hrest, hlen, List.range'_succ]
    rfl

theorem collect_eq (ho : c.Linked) (hik : i ≤ k) (hk : k < c.size) (hstop : stop k = true)
    (hgo : ∀ n, i ≤ n → n < k → stop n = false) :
    c.collect stop (some i) = (List.range' i (k - i), some k) :=
  collectWithin_eq ho hik hk hstop hgo (by omega)

theorem Parens.parenthesised (ho : c.Linked) (h : c.Parens i k) (hk : k + 1 < c.size) :
    c.parenthesised (some i) = (List.range' (i + 1) (k - (i + 1)), some (k + 1)) := by
  have hik := h.lt
  have hinside : c.collect (fun n => some n = some k) (some (i + 1)) = _ :=
    collect_eq ho hik (by omega) (by simp) fun n _ hn => by simpa using hn.ne
  simp only [Code.parenthesised, textAt, Option.elim_some, h.opens, if_true, Option.bind_some, h.link,
    ho.next_some (i := i) (by omega), hinside, ho.next_some hk]

theorem skip_eq {text : String} (ho : c.Linked) (hi : c.text i = text) (hk : i + 1 < c.size) :
    c.skip text (some i) = some (i + 1) := by
  simp only [skip, Option.isSome_some, textAt, Option.elim_some, hi, and_self, if_true,
    ho.next_some hk]

theorem atStart_of_text {text : String} (ho : c.Ordered) (hi : c.text i = text)
    (h : text ∈ [";", "\x7b", "\x7d", ":"]) (hk : i + 1 < c.size) :
    c.atStart (c.token (i + 1)) = true :=
  (Closed.of_text hi h).atStart ho (Nat.succ_pos i) hk

theorem isLabel_eq_false (ho : c.Linked) (hi : i + 1 < c.size) (h : c.text (i + 1) ≠ ":") :
    c.isLabel i = false := by
  simp [isLabel, ho.next i hi, textAt, h]

theorem isLabel_eq_true (ho : c.Linked) (hi : i + 2 < c.size) (hname : (c.token i).isName = true)
    (htext : c.text i ∉ reserved) (hstart : c.atStart (c.token i) = true)
    (hcolon : c.text (i + 1) = ":") (hnext : c.text (i + 2) ≠ ":") : c.isLabel i = true := by
  have hcase : (c.token i).text ≠ "case" := (ne_of_mem_of_not_mem (by decide) htext).symm
  have hdefault : (c.token i).text ≠ "default" := (ne_of_mem_of_not_mem (by decide) htext).symm
  simp [isLabel, hname, hstart, ho.next i (by omega), textAt, hcolon, ho.next_some hi, hnext, hcase,
    hdefault]

end

/-- The words that constructs start with. -/
def openers : List String :=
  ["return", "break", "continue", "goto", "if", "while", "for", "do", "switch", "\x7b"]

theorem openers_subset : openers ⊆ reserved := by decide

/-- Reading from one position up to another gives these statements. -/
def Yields (c : Code) (i j : Nat) (s : Stmts) : Prop :=
  ∀ fuel, j - i < fuel → c.readWithin fuel (some j) (some i) = s

/-- Reading the body that starts here gives these statements, wherever the enclosing text ends. -/
def YieldsBody (c : Code) (i j : Nat) (s : Stmts) : Prop :=
  ∀ fuel limit, j - i < fuel → j ≤ limit → c.bodyBy (c.readWithin fuel) (some limit) (some i) = s

def YieldsArms (c : Code) (i j : Nat) (a : Arms) : Prop :=
  ∀ fuel, j - i + 1 < fuel → c.readArmsWithin fuel (some j) (some i) = a

namespace Yields
variable {c : Code} {s rest inner : Stmts} {i j k m : Nat}

theorem done : c.Yields i i .done := fun fuel _ => c.readWithin_limit fuel i

/-- What starts with no label and is not over is read by its first word. -/
theorem of_step (ho : c.Linked) (hj : j < c.size) (hij : i < j) (hcolon : c.text (i + 1) ≠ ":")
    (h : ∀ fuel, j - i ≤ fuel → c.isLabel i = false → some i ≠ some j →
      c.readWithin (fuel + 1) (some j) (some i) = s) : c.Yields i j s := by
  rintro (_ | fuel) hd
  · omega
  · exact h fuel (by omega) (isLabel_eq_false ho (by omega) hcolon) (by simpa using hij.ne)

theorem label (ho : c.Linked) (hj : j < c.size) (hlabel : c.isLabel i = true) (hij : i + 2 ≤ j)
    (hrest : c.Yields (i + 2) j rest) : c.Yields i j (.label (c.text i) rest) := by
  rintro (_ | fuel) hd
  · omega
  have hne : some i ≠ some j := by simpa using (show i < j by omega).ne
  simp only [readWithin, if_neg hne, if_pos hlabel, ho.next i (by omega),
    ho.next_some (i := i + 1) (by omega), hrest fuel (by omega), text]

/-- What is neither a label nor the first word of a construct stays as it is. -/
theorem plain (ho : c.Linked) (hj : j < c.size) (hlabel : c.isLabel i = false)
    (hi : c.text i ∉ openers) (hij : i < j) (hrest : c.Yields (i + 1) j rest) :
    c.Yields i j (.token i rest) := by
  rintro (_ | fuel) hd
  · omega
  have hne : some i ≠ some j := by simpa using hij.ne
  rw [readWithin, if_neg hne, hlabel, if_neg Bool.false_ne_true]
  split <;> simp_all [openers, text, ho.next i (by omega), hrest fuel (by omega)]

theorem token (ho : c.Linked) (hj : j < c.size) (hi : c.text i ∉ reserved ∨ c.text i = ";")
    (hcolon : c.text (i + 1) ≠ ":") (hij : i < j) (hrest : c.Yields (i + 1) j rest) :
    c.Yields i j (.token i rest) := by
  refine plain ho hj (isLabel_eq_false ho (by omega) hcolon) ?_ hij hrest
  rcases hi with hi | hi
  · exact fun hm => hi (openers_subset hm)
  · simp [hi, openers]

theorem expression (ho : c.Linked) (hj : j < c.size) (hik : i ≤ k) (h : c.Plain i k)
    (hk : c.text k = ";") (hkj : k < j) (hcolon : c.text (k + 1) ≠ ":")
    (hrest : c.Yields (k + 1) j rest) : c.Yields i j (rest.behind (List.range' i (k + 1 - i))) := by
  induction hn : k - i generalizing i with
  | zero =>
    obtain rfl : i = k := by omega
    rw [Nat.add_sub_cancel_left]
    exact token ho hj (.inr hk) hcolon hkj hrest
  | succ n ih =>
    have hi : i + 1 ≤ k := by omega
    have htail := h.tail (n := i + 1) (by omega)
    have hnext := htail.text_ne_colon hi (by simp [hk])
    have hlen : k + 1 - i = (k + 1 - (i + 1)) + 1 := by omega
    rw [hlen, List.range'_succ]
    exact token ho hj (.inl (h.not_reserved le_rfl hi)) hnext (by omega)
      (ih hi htail (by omega))

theorem returns (ho : c.Linked) (hj : j < c.size) (hi : c.text i = "return") (hik : i < k)
    (h : c.Plain (i + 1) k) (hk : c.text k = ";") (hkj : k < j) (hcolon : c.text (i + 1) ≠ ":")
    (hrest : c.Yields (k + 1) j rest) :
    c.Yields i j (.returns (List.range' i (k + 1 - i)) rest) := by
  refine of_step ho hj (by omega) hcolon fun fuel hf hlabel hne => ?_
  have hi' : (c.token i).text = "return" := hi
  have hpast : c.pastSemicolon (some j) (some i) = some (k + 1) :=
    pastSemicolon_keyword ho (by simp [hi]) (by simp [hi, opensBracket]) h hik hk (by omega) hkj
  have hpart : c.collect (fun n => some n = some (k + 1) || some n = some j) (some i) = _ :=
    collect_eq (k := k + 1) ho (by omega) (by omega) (by simp) fun n _ hn => by simp; omega
  rw [readWithin, if_neg hne, hlabel, if_neg Bool.false_ne_true]
  simp only [hi', hpast, hpart, hrest fuel (by omega)]

theorem leave (ho : c.Linked) (hj : j < c.size) (hi : c.text i = "break") (hk : c.text (i + 1) = ";")
    (hij : i + 2 ≤ j) (hrest : c.Yields (i + 2) j rest) : c.Yields i j (.leave i rest) := by
  refine of_step ho hj (by omega) (by simp [hk]) fun fuel hf hlabel hne => ?_
  have hi' : (c.token i).text = "break" := hi
  have hpast : c.pastSemicolon (some j) (some (i + 1)) = some (i + 2) :=
    Plain.nil.loose.pastSemicolonWithin ho le_rfl hk (by omega) hij (by omega)
  rw [readWithin, if_neg hne, hlabel, if_neg Bool.false_ne_true]
  simp only [hi', ho.next i (by omega), hpast, hrest fuel (by omega)]

theorem next (ho : c.Linked) (hj : j < c.size) (hi : c.text i = "continue")
    (hk : c.text (i + 1) = ";") (hij : i + 2 ≤ j) (hrest : c.Yields (i + 2) j rest) :
    c.Yields i j (.next i rest) := by
  refine of_step ho hj (by omega) (by simp [hk]) fun fuel hf hlabel hne => ?_
  have hi' : (c.token i).text = "continue" := hi
  have hpast : c.pastSemicolon (some j) (some (i + 1)) = some (i + 2) :=
    Plain.nil.loose.pastSemicolonWithin ho le_rfl hk (by omega) hij (by omega)
  rw [readWithin, if_neg hne, hlabel, if_neg Bool.false_ne_true]
  simp only [hi', ho.next i (by omega), hpast, hrest fuel (by omega)]

theorem goto (ho : c.Linked) (hj : j < c.size) (hi : c.text i = "goto")
    (h : c.Plain (i + 1) (i + 2)) (hk : c.text (i + 2) = ";") (hij : i + 3 ≤ j)
    (hrest : c.Yields (i + 3) j rest) : c.Yields i j (.goto i (c.text (i + 1)) rest) := by
  have htarget := h.not_reserved (n := i + 1) le_rfl (by omega)
  have hcolon : c.text (i + 1) ≠ ":" := (ne_of_mem_of_not_mem (by decide) htarget).symm
  refine of_step ho hj (by omega) hcolon fun fuel hf hlabel hne => ?_
  have hi' : (c.token i).text = "goto" := hi
  have hpast : c.pastSemicolon (some j) (some (i + 1)) = some (i + 3) :=
    h.loose.pastSemicolonWithin ho (by omega) hk (by omega) hij (by omega)
  rw [readWithin, if_neg hne, hlabel, if_neg Bool.false_ne_true]
  simp only [hi', ho.next i (by omega), textAt, Option.elim_some, hpast, hrest fuel (by omega)]

theorem block (ho : c.Linked) (hj : j < c.size) (h : c.Braces i k) (hik : i < k) (hkj : k < j)
    (hcolon : c.text (i + 1) ≠ ":") (hinner : c.Yields (i + 1) k inner)
    (hrest : c.Yields (k + 1) j rest) : c.Yields i j (.block inner rest) := by
  refine of_step ho hj (by omega) hcolon fun fuel hf hlabel hne => ?_
  have hi' : (c.token i).text = "\x7b" := h.opens
  rw [readWithin, if_neg hne, hlabel, if_neg Bool.false_ne_true]
  simp only [hi', h.link, ho.next i (by omega), ho.next k (by omega), hinner fuel (by omega),
    hrest fuel (by omega)]

theorem ifThen {yes : Stmts} (ho : c.Linked) (hj : j < c.size) (hi : c.text i = "if")
    (h : c.Parens (i + 1) k) (hyes : c.YieldsBody (k + 1) m yes)
    (hend : c.statementEnd (some j) (some (k + 1)) = some m) (helse : c.text m ≠ "else")
    (hkm : k < m) (hmj : m ≤ j) (hrest : c.Yields m j rest) :
    c.Yields i j (.ifThen (List.range' (i + 2) (k - (i + 2))) yes rest) := by
  have hik := h.lt
  refine of_step ho hj (by omega) (by simp [h.opens]) fun fuel hf hlabel hne => ?_
  have hi' : (c.token i).text = "if" := hi
  rw [readWithin, if_neg hne, hlabel, if_neg Bool.false_ne_true]
  simp only [hi', ho.next i (by omega), h.parenthesised ho (by omega), Option.isNone_some,
    Bool.false_eq_true, if_false, hend, textAt, Option.elim_some, helse, and_false,
    hyes fuel j (by omega) hmj, hrest fuel (by omega)]

theorem ifElse {yes no : Stmts} {l : Nat} (ho : c.Linked) (hj : j < c.size) (hi : c.text i = "if")
    (h : c.Parens (i + 1) k) (hyes : c.YieldsBody (k + 1) m yes)
    (hend : c.statementEnd (some j) (some (k + 1)) = some m) (helse : c.text m = "else")
    (hkm : k < m) (hno : c.YieldsBody (m + 1) l no)
    (hend' : c.statementEnd (some j) (some (m + 1)) = some l) (hml : m < l) (hlj : l ≤ j)
    (hrest : c.Yields l j rest) :
    c.Yields i j (.ifElse (List.range' (i + 2) (k - (i + 2))) yes no rest) := by
  have hik := h.lt
  refine of_step ho hj (by omega) (by simp [h.opens]) fun fuel hf hlabel hne => ?_
  have hi' : (c.token i).text = "if" := hi
  have hmj : some m ≠ some j := by simpa using (show m < j by omega).ne
  rw [readWithin, if_neg hne, hlabel, if_neg Bool.false_ne_true]
  simp only [hi', ho.next i (by omega), h.parenthesised ho (by omega), Option.isNone_some,
    Bool.false_eq_true, if_false, hend, Option.isSome_some, ne_eq, hmj, not_false_eq_true, textAt,
    Option.elim_some, helse, and_self, if_true, ho.next_some (i := m) (by omega), hend',
    hyes fuel j (by omega) (by omega), hno fuel j (by omega) hlj, hrest fuel (by omega)]

theorem whileDo (ho : c.Linked) (hj : j < c.size) (hi : c.text i = "while")
    (h : c.Parens (i + 1) k) (hinner : c.YieldsBody (k + 1) m inner)
    (hend : c.statementEnd (some j) (some (k + 1)) = some m) (hkm : k < m) (hmj : m ≤ j)
    (hrest : c.Yields m j rest) :
    c.Yields i j (.whileDo (List.range' (i + 2) (k - (i + 2))) inner rest) := by
  have hik := h.lt
  refine of_step ho hj (by omega) (by simp [h.opens]) fun fuel hf hlabel hne => ?_
  have hi' : (c.token i).text = "while" := hi
  rw [readWithin, if_neg hne, hlabel, if_neg Bool.false_ne_true]
  simp only [hi', ho.next i (by omega), h.parenthesised ho (by omega), hend,
    hinner fuel j (by omega) hmj, hrest fuel (by omega)]

theorem doWhile (ho : c.Linked) (hj : j < c.size) (hi : c.text i = "do")
    (hinner : c.YieldsBody (i + 1) m inner)
    (hend : c.statementEnd (some j) (some (i + 1)) = some m) (hcolon : c.text (i + 1) ≠ ":")
    (him : i < m) (hwhile : c.text m = "while") (h : c.Parens (m + 1) k)
    (hk : c.text (k + 1) = ";") (hkj : k + 2 ≤ j) (hrest : c.Yields (k + 2) j rest) :
    c.Yields i j (.doWhile inner (List.range' (m + 2) (k - (m + 2))) rest) := by
  have hmk := h.lt
  refine of_step ho hj (by omega) hcolon fun fuel hf hlabel hne => ?_
  have hi' : (c.token i).text = "do" := hi
  rw [readWithin, if_neg hne, hlabel, if_neg Bool.false_ne_true]
  simp only [hi', ho.next i (by omega), hend, textAt, Option.elim_some, hwhile, if_true,
    ho.next_some (i := m) (by omega), h.parenthesised ho (by omega), skip_eq ho hk (by omega),
    hinner fuel j (by omega) (by omega), hrest fuel (by omega)]

theorem forDo {a b : Nat} (ho : c.Linked) (hj : j < c.size) (hi : c.text i = "for")
    (hopen : c.text (i + 1) = "(") (hlink : (c.token (i + 1)).link = some k) (hia : i + 1 < a)
    (hinit : c.HeaderPart (i + 2) a) (ha : c.text a = ";") (hab : a < b) (htest : c.HeaderPart (a + 1) b)
    (hb : c.text b = ";") (hbk : b < k) (hinner : c.YieldsBody (k + 1) m inner)
    (hend : c.statementEnd (some j) (some (k + 1)) = some m) (hkm : k < m) (hmj : m ≤ j)
    (hrest : c.Yields m j rest) :
    c.Yields i j (.forDo (List.range' (i + 2) (a - (i + 2))) (List.range' (a + 1) (b - (a + 1)))
      (List.range' (b + 1) (k - (b + 1))) inner rest) := by
  refine of_step ho hj (by omega) (by simp [hopen]) fun fuel hf hlabel hne => ?_
  have hi' : (c.token i).text = "for" := hi
  -- Up to its semicolon a part meets neither the closing bracket nor another semicolon.
  have hpart : ∀ p q, p ≤ q → q < k → c.HeaderPart p q → c.text q = ";" →
      c.collect (fun n => some n = some k || c.text n == ";") (some p) =
        (List.range' p (q - p), some q) := by
    intro p q hpq hqk hp hq
    refine collect_eq ho hpq (by omega) (by simp [hq]) fun n hpn hnq => ?_
    simpa [hp.text_ne hpn hnq] using (show n < k by omega).ne
  have hstep : c.collect (fun n => some n = some k) (some (b + 1)) = _ :=
    collect_eq ho hbk (by omega) (by simp) fun n _ hn => by simpa using hn.ne
  rw [readWithin, if_neg hne, hlabel, if_neg Bool.false_ne_true]
  simp only [hi', ho.next i (by omega), textAt, Option.elim_some, hopen, if_true, Option.bind_some,
    hlink, ho.next_some (i := i + 1) (by omega), hpart (i + 2) a hia (by omega) hinit ha,
    skip_eq ho ha (by omega), hpart (a + 1) b hab hbk htest hb, skip_eq ho hb (by omega), hstep,
    ho.next_some (i := k) (by omega), hend, hinner fuel j (by omega) hmj, hrest fuel (by omega)]

theorem switch {inside : Arms} (ho : c.Linked) (hj : j < c.size) (hi : c.text i = "switch")
    (h : c.Parens (i + 1) k) (hbraces : c.Braces (k + 1) m) (hkm : k + 1 < m) (hmj : m < j)
    (hinside : c.YieldsArms (k + 2) m inside) (hrest : c.Yields (m + 1) j rest) :
    c.Yields i j (.switch (List.range' (i + 2) (k - (i + 2))) inside rest) := by
  have hik := h.lt
  refine of_step ho hj (by omega) (by simp [h.opens]) fun fuel hf hlabel hne => ?_
  have hi' : (c.token i).text = "switch" := hi
  rw [readWithin, if_neg hne, hlabel, if_neg Bool.false_ne_true]
  simp only [hi', ho.next i (by omega), h.parenthesised ho (by omega), textAt, Option.elim_some,
    hbraces.opens, if_true, hbraces.braceEnd, ho.next_some (i := k + 1) (by omega),
    ho.next_some (i := m) (by omega), hinside fuel (by omega), hrest fuel (by omega)]

end Yields

namespace YieldsArms
variable {c : Code} {s : Stmts} {ahead : Arms} {i j k : Nat}

theorem done : c.YieldsArms i i .done := fun fuel _ => c.readArmsWithin_limit fuel i

theorem caseOf (ho : c.Linked) (hj : j < c.size) (hi : c.text i = "case") (hik : i < k)
    (h : c.Plain (i + 1) k) (hk : c.text k = ":") (hkj : k < j)
    (hahead : c.YieldsArms (k + 1) j ahead) :
    c.YieldsArms i j (.caseOf
      (" ".intercalate ((List.range' (i + 1) (k - (i + 1))).map c.text)) ahead) := by
  rintro (_ | fuel) hd
  · omega
  have hne : some i ≠ some j := by simpa using (show i < j by omega).ne
  have hvalue : c.collect (fun n => c.text n == ":" || some n = some j) (some (i + 1)) =
      (List.range' (i + 1) (k - (i + 1)), some k) := by
    refine collect_eq ho hik (by omega) (by simp [hk]) fun n hin hnk => ?_
    have hn : c.text n ≠ ":" := (ne_of_mem_of_not_mem (by decide) (h.not_reserved hin hnk)).symm
    simpa [hn] using (show n < j by omega).ne
  rw [readArmsWithin, if_neg hne]
  simp only [hi, ho.next i (by omega), hvalue, skip_eq ho hk (by omega), hahead fuel (by omega)]

theorem default (ho : c.Linked) (hj : j < c.size) (hi : c.text i = "default")
    (hk : c.text (i + 1) = ":") (hij : i + 2 ≤ j) (hahead : c.YieldsArms (i + 2) j ahead) :
    c.YieldsArms i j (.default ahead) := by
  rintro (_ | fuel) hd
  · omega
  have hne : some i ≠ some j := by simpa using (show i < j by omega).ne
  rw [readArmsWithin, if_neg hne]
  simp only [hi, ho.next i (by omega), skip_eq ho hk (by omega), hahead fuel (by omega)]

theorem stmts (hi : c.text i ∉ ["case", "default"]) (hs : c.Yields i k s)
    (hend : c.statementEnd (some j) (some i) = some k) (hik : i < k) (hkj : k ≤ j)
    (hahead : c.YieldsArms k j ahead) : c.YieldsArms i j (.stmts s ahead) := by
  rintro (_ | fuel) hd
  · omega
  have hne : some i ≠ some j := by simpa using (show i < j by omega).ne
  rw [readArmsWithin, if_neg hne]
  split
  · simp_all
  · simp_all
  · simp only [hend, hs fuel (by omega), hahead fuel (by omega)]

end YieldsArms

namespace YieldsBody
variable {c : Code} {s : Stmts} {i j k : Nat}

theorem braces (ho : c.Linked) (h : c.Braces i k) (hik : i < k) (hk : k < c.size)
    (hs : c.Yields (i + 1) k s) : c.YieldsBody i (k + 1) s := by
  intro fuel limit hd _
  simp only [bodyBy, textAt, Option.elim_some, h.opens, if_true, h.braceEnd,
    ho.next_some (i := i) (by omega), hs fuel (by omega)]

theorem single (hi : c.text i ≠ "\x7b") (hs : c.Yields i j s)
    (hend : ∀ limit, j ≤ limit → c.statementEnd (some limit) (some i) = some j) :
    c.YieldsBody i j s := by
  intro fuel limit hd hl
  simp only [bodyBy, textAt, Option.elim_some, if_neg hi, hend limit hl, hs fuel hd]

end YieldsBody

/-- What is written is what is read; a label also needs something in front that it may follow. -/
def ReadAs (c : Code) : Form → Nat → Nat → Prop
  | .list _ s, i, j => (s.isLabel = true → c.atStart (c.token i) = true) → c.Yields i j s
  | .body s, i, j => c.YieldsBody i j s
  | .arms a, i, j => c.YieldsArms i j a

theorem Spells.readAs {c : Code} {F : Form} {i j : Nat} (h : c.Spells F i j) (ho : c.Ordered)
    (hj : j < c.size) (hcolon : c.text j ≠ ":") : c.ReadAs F i j := by
  have hl := ho.toLinked
  -- a name is a label only at the start of a statement, so that has to be known behind each one again
  induction h with
  | done => exact fun _ => .done
  | expression hi hp hk hrest ih =>
    have hkj := hrest.frame.le
    exact fun _ => .expression hl hj hi.le hp hk hkj (hrest.frame.text_ne_colon hcolon)
      (ih hj hcolon fun _ => atStart_of_text ho hk (by decide) (by omega))
  | empty hi hrest ih =>
    have hij := hrest.frame.le
    exact fun _ => .token hl hj (.inr hi) (hrest.frame.text_ne_colon hcolon) hij
      (ih hj hcolon fun _ => atStart_of_text ho hi (by decide) (by omega))
  | label hname hi hk hrest ih =>
    have hij := hrest.frame.le
    exact fun hstart => .label hl hj
      (isLabel_eq_true hl (by omega) hname hi (hstart rfl) hk (hrest.frame.text_ne_colon hcolon)) hij
      (ih hj hcolon fun _ => atStart_of_text ho hk (by decide) (by omega))
  | returns hi hik hp hk hrest ih =>
    have hkj := hrest.frame.le
    exact fun _ => .returns hl hj hi hik hp hk hkj (hp.text_ne_colon hik (by simp [hk]))
      (ih hj hcolon fun _ => atStart_of_text ho hk (by decide) (by omega))
  | leave hi hk hrest ih =>
    have hij := hrest.frame.le
    exact fun _ => .leave hl hj hi hk hij
      (ih hj hcolon fun _ => atStart_of_text ho hk (by decide) (by omega))
  | next hi hk hrest ih =>
    have hij := hrest.frame.le
    exact fun _ => .next hl hj hi hk hij
      (ih hj hcolon fun _ => atStart_of_text ho hk (by decide) (by omega))
  | goto hi hp hk hrest ih =>
    have hij := hrest.frame.le
    exact fun _ => .goto hl hj hi hp hk hij
      (ih hj hcolon fun _ => atStart_of_text ho hk (by decide) (by omega))
  | block hb hinner hrest ihinner ih =>
    have hik := hinner.frame.le
    have hkj := hrest.frame.le
    exact fun _ => .block hl hj hb hik hkj (hinner.frame.text_ne_colon hb.closes_ne_colon)
      (ihinner (by omega) hb.closes_ne_colon fun _ =>
        atStart_of_text ho hb.opens (by decide) (by omega))
      (ih hj hcolon fun _ => atStart_of_text ho hb.closes (by decide) (by omega))
  | ifThen hi he hyes hm hrest ihyes ih =>
    have hkm := hyes.frame.le
    have hmj := hrest.frame.le
    have hmc := hrest.frame.text_ne_colon hcolon
    exact fun _ => .ifThen hl hj hi he.toParens (ihyes (by omega) hmc)
      (hyes.frame.statementEnd hl trivial (by omega) hmj) hm hkm hmj
      (ih hj hcolon fun _ => (hyes.closed hyes.frame.width_le).atStart ho (by omega) (by omega))
  | ifElse hi he hyes hm hno hrest ihyes ihno ih =>
    have hkm := hyes.frame.le
    have hml := hno.frame.le
    have hlj := hrest.frame.le
    have hlc := hrest.frame.text_ne_colon hcolon
    exact fun _ => .ifElse hl hj hi he.toParens (ihyes (by omega) (by simp [hm]))
      (hyes.frame.statementEnd hl trivial (by omega) (by omega)) hm hkm (ihno (by omega) hlc)
      (hno.frame.statementEnd hl trivial (by omega) hlj) hml hlj
      (ih hj hcolon fun _ => (hno.closed hno.frame.width_le).atStart ho (by omega) (by omega))
  | whileDo hi he hinner hrest ihinner ih =>
    have hkm := hinner.frame.le
    have hmj := hrest.frame.le
    exact fun _ => .whileDo hl hj hi he.toParens (ihinner (by omega) (hrest.frame.text_ne_colon hcolon))
      (hinner.frame.statementEnd hl trivial (by omega) hmj) hkm hmj
      (ih hj hcolon fun _ => (hinner.closed hinner.frame.width_le).atStart ho (by omega) (by omega))
  | doWhile hi hinner hm he hk hrest ihinner ih =>
    have him := hinner.frame.le
    have hmk := he.lt
    have hkj := hrest.frame.le
    have hmc := hm.trans_ne (show "while" ≠ ":" by decide)
    exact fun _ => .doWhile hl hj hi (ihinner (by omega) hmc)
      (hinner.frame.statementEnd hl trivial (by omega) (by omega)) (hinner.frame.text_ne_colon hmc) him hm
      he.toParens hk hkj (ih hj hcolon fun _ => atStart_of_text ho hk (by decide) (by omega))
  | forDo hi hopen hlink hia hinit ha hab htest hb hbk _ _ hinner hrest ihinner ih =>
    have hkm := hinner.frame.le
    have hmj := hrest.frame.le
    exact fun _ => .forDo hl hj hi hopen hlink hia hinit.headerPart ha hab htest.headerPart hb hbk
      (ihinner (by omega) (hrest.frame.text_ne_colon hcolon))
      (hinner.frame.statementEnd hl trivial (by omega) hmj) hkm hmj
      (ih hj hcolon fun _ => (hinner.closed hinner.frame.width_le).atStart ho (by omega) (by omega))
  | switch hi he hb hinside hrest ihinside ih =>
    have hkm := hinside.frame.le
    have hmj := hrest.frame.le
    exact fun _ => .switch hl hj hi he.toParens hb hkm hmj (ihinside (by omega) hb.closes_ne_colon)
      (ih hj hcolon fun _ => atStart_of_text ho hb.closes (by decide) (by omega))
  | braces hb hs ih =>
    have hik := hs.frame.le
    exact .braces hl hb hik (by omega) (ih (by omega) hb.closes_ne_colon fun _ =>
      atStart_of_text ho hb.opens (by decide) (by omega))
  | single hs hi hlabel ih =>
    exact .single hi (ih hj hcolon fun h => absurd h (by simp [hlabel])) fun limit hle =>
      hs.frame.statementEnd hl ⟨rfl, hlabel⟩ hj hle
  | armsDone => exact .done
  | armsCase hi hik hp hk hahead ih =>
    have hkj := hahead.frame.le
    exact .caseOf hl hj hi hik hp hk hkj (ih hj hcolon)
  | armsDefault hi hk hahead ih => exact .default hl hj hi hk hahead.frame.le (ih hj hcolon)
  | armsStmts hs hlabel hahead ihs ih =>
    have hkj := hahead.frame.le
    exact .stmts hs.text_not_case (ihs (by omega) (hahead.frame.text_ne_colon hcolon) fun h =>
        absurd h (by simp [hlabel]))
      (hs.frame.statementEnd hl ⟨rfl, hlabel⟩ (by omega) hkj) hs.frame.width_le hkj (ih hj hcolon)

/-- Reading from behind a position has steps enough. -/
theorem Yields.read_eq {c : Code} {s : Stmts} {i k : Nat} (ho : c.Linked) (hik : i < k) (hk : k < c.size)
    (h : c.Yields (i + 1) k s) : c.read (some k) (c.token i).next = s := by
  rw [Code.read, ho.next i (by omega)]
  refine h _ ?_
  calc k - (i + 1) < c.size + 2 := by omega
    _ ≤ (c.size + 2) * (c.size + 2) := Nat.le_mul_of_pos_left _ (by omega)
    _ ≤ (c.size + 2) * (c.size + 2) * (c.size + 2) := Nat.le_mul_of_pos_right _ (by omega)

/-- Reading a block from behind its opening brace up to its closing one gives what it holds. -/
theorem Spells.read_eq {c : Code} {s : Stmts} {i k n : Nat} (ho : c.Ordered) (hb : c.Braces i k)
    (hk : k < c.size) (h : c.Spells (.list n s) (i + 1) k) :
    c.read (some k) (c.token i).next = s := by
  have hik := h.frame.le
  refine Yields.read_eq ho.toLinked hik hk (h.readAs ho hk hb.closes_ne_colon fun _ => ?_)
  exact atStart_of_text ho hb.opens (by decide) (by omega)

end SignFlow.Code

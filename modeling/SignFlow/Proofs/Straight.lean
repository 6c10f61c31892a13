import SignFlow.Proofs.Placement

/-! Texts of bodies without jumps, where a loop may also run over a range.

A loop over a range has no semicolon between its parentheses, so that all of them is read as the first
part of the header, and the loop has neither a condition nor a step. -/

namespace SignFlow

/-- Nothing in the statements moves control out of its course. -/
def Stmts.jumpless : Stmts → Bool
  | .done => true
  | .token _ rest | .label _ rest => rest.jumpless
  | .block inner rest | .ifThen _ inner rest | .whileDo _ inner rest | .doWhile inner _ rest
  | .forDo _ _ _ inner rest => inner.jumpless && rest.jumpless
  | .ifElse _ yes no rest => yes.jumpless && no.jumpless && rest.jumpless
  | _ => false

def Form.jumpless : Form → Bool
  | .list _ s | .body s => s.jumpless
  | .arms _ => false

namespace Code

/-- So many tokens in front of some statements, as they are read: where a choice stands in another one, a
name between two colons is taken for a label. -/
def phrase (c : Code) (rest : Stmts) : Nat → Nat → Stmts
  | _, 0 => rest
  | i, 1 => .token i rest
  | i, n + 2 =>
    if c.isLabel i then .label (c.text i) (c.phrase rest (i + 2) n)
    else .token i (c.phrase rest (i + 1) (n + 1))

/-- The tokens from one position up to another spell this, without jumps: expression statements, blocks,
conditions, loops with a condition, and loops over a range. -/
inductive Straight (c : Code) : Form → Nat → Nat → Prop
  | done {i} : c.Straight (.list 0 .done) i i
  | expression {n rest i k j} (hi : i < k) (h : c.Loose i k) (hfirst : c.text i ≠ ":")
    (hk : c.text k = ";") (hrest : c.Straight (.list n rest) (k + 1) j) :
    c.Straight (.list (n + 1) (c.phrase rest i (k + 1 - i))) i j
  | empty {n rest i j} (hi : c.text i = ";") (hrest : c.Straight (.list n rest) (i + 1) j) :
    c.Straight (.list (n + 1) (.token i rest)) i j
  | block {n m inner rest i k j} (h : c.Braces i k) (hinner : c.Straight (.list m inner) (i + 1) k)
    (hrest : c.Straight (.list n rest) (k + 1) j) : c.Straight (.list (n + 1) (.block inner rest)) i j
  | ifThen {n yes rest i k m j} (hi : c.text i = "if") (h : c.Parens (i + 1) k)
    (hyes : c.Straight (.body yes) (k + 1) m) (hm : c.text m ≠ "else")
    (hrest : c.Straight (.list n rest) m j) :
    c.Straight (.list (n + 1) (.ifThen (List.range' (i + 2) (k - (i + 2))) yes rest)) i j
  | ifElse {n yes no rest i k m l j} (hi : c.text i = "if") (h : c.Parens (i + 1) k)
    (hyes : c.Straight (.body yes) (k + 1) m) (hm : c.text m = "else")
    (hno : c.Straight (.body no) (m + 1) l) (hrest : c.Straight (.list n rest) l j) :
    c.Straight (.list (n + 1) (.ifElse (List.range' (i + 2) (k - (i + 2))) yes no rest)) i j
  | whileDo {n inner rest i k m j} (hi : c.text i = "while") (h : c.Parens (i + 1) k)
    (hinner : c.Straight (.body inner) (k + 1) m) (hrest : c.Straight (.list n rest) m j) :
    c.Straight (.list (n + 1) (.whileDo (List.range' (i + 2) (k - (i + 2))) inner rest)) i j
  | doWhile {n inner rest i m k j} (hi : c.text i = "do")
    (hinner : c.Straight (.body inner) (i + 1) m) (hm : c.text m = "while")
    (h : c.Parens (m + 1) k) (hk : c.text (k + 1) = ";")
    (hrest : c.Straight (.list n rest) (k + 2) j) :
    c.Straight (.list (n + 1) (.doWhile inner (List.range' (m + 2) (k - (m + 2))) rest)) i j
  | forDo {n inner rest i a b k m j} (hi : c.text i = "for") (h : c.Parens (i + 1) k) (hia : i + 1 < a)
    (hinit : c.HeaderPart (i + 2) a) (ha : c.text a = ";") (hab : a + 1 < b)
    (htest : c.HeaderPart (a + 1) b) (hb : c.text b = ";") (hbk : b < k)
    (hstep : c.HeaderPart (b + 1) k) (hinner : c.Straight (.body inner) (k + 1) m)
    (hrest : c.Straight (.list n rest) m j) :
    c.Straight (.list (n + 1) (.forDo (List.range' (i + 2) (a - (i + 2)))
      (List.range' (a + 1) (b - (a + 1))) (List.range' (b + 1) (k - (b + 1))) inner rest)) i j
  | forRange {n inner rest i a k m j} (hi : c.text i = "for") (h : c.Parens (i + 1) k) (hia : i + 2 < a)
    (ha : c.text a = ":") (hak : a + 1 < k) (hheader : c.HeaderPart (i + 2) k)
    (hinner : c.Straight (.body inner) (k + 1) m) (hrest : c.Straight (.list n rest) m j) :
    c.Straight (.list (n + 1) (.forDo (List.range' (i + 2) (k - (i + 2))) [] [] inner rest)) i j
  | braces {n s i k} (h : c.Braces i k) (hs : c.Straight (.list n s) (i + 1) k) :
    c.Straight (.body s) i (k + 1)
  | single {s i j} (hs : c.Straight (.list 1 s) i j) (hi : c.text i ≠ "\x7b") : c.Straight (.body s) i j

variable {c : Code} {F : Form} {s inner rest : Stmts} {i j k m n limit : Nat}

section phrase
variable (c) (rest : Stmts)

theorem phrase_jumpless (i n : Nat) : (c.phrase rest i n).jumpless = rest.jumpless := by
  fun_induction phrase c rest i n with
  | case1 | case2 => rfl
  | case3 _ _ _ ih | case4 _ _ _ ih => exact ih

variable {c rest}

theorem phrase_renders (hij : i + n ≤ j)
    (h : Renders (rest.positions false) (rest.positions false) (rest.positions true) (i + n) j) :
    Renders ((c.phrase rest i n).positions false) ((c.phrase rest i n).positions false)
      ((c.phrase rest i n).positions true) i j := by
  have hone : ∀ i, Renders [i] [i] [i] i (i + 1) := fun i => .range (n := 1) le_rfl le_rfl
  fun_induction phrase c rest i n with
  | case1 => exact h
  | case2 i => exact (hone i).append (by omega) h hij
  | case3 i n hlabel ih => exact (ih (by omega) (h.mono (by omega) le_rfl)).mono (by omega) le_rfl
  | case4 i n hlabel ih =>
    exact (hone i).append (by omega) (ih (by omega) (h.mono (by omega) le_rfl)) (by omega)

theorem Yields.phrase (ho : c.Linked) (hj : j < c.size) (hn : i + n = k + 1) (h : c.Loose i k)
    (hk : c.text k = ";") (hkj : k < j) (hcolon : c.text (k + 1) ≠ ":") (hrest : c.Yields (k + 1) j rest) :
    c.Yields i j (c.phrase rest i n) := by
  fun_induction Code.phrase c rest i n with
  | case1 i =>
    obtain rfl : i = k + 1 := hn
    exact hrest
  | case2 i =>
    obtain rfl : i = k := by omega
    exact .token ho hj (.inr hk) hcolon hkj hrest
  | case3 i n hlabel ih =>
    exact .label ho hj hlabel (by omega) (ih (by omega) (h.tail (by omega)))
  | case4 i n hlabel ih =>
    have hi : c.text i ∉ openers := fun hm => by
      have hcolon := h.eq_colon le_rfl (by omega) (openers_subset hm)
      rw [hcolon] at hm
      exact absurd hm (by decide)
    exact .plain ho hj (by simpa using hlabel) hi (by omega) (ih (by omega) (h.tail (by omega)))

end phrase

/-- Without a semicolon, all between the parentheses of a loop is its first part. -/
theorem Yields.forRange (ho : c.Linked) (hj : j < c.size) (hi : c.text i = "for")
    (h : c.Parens (i + 1) k) (hheader : c.HeaderPart (i + 2) k) (hinner : c.YieldsBody (k + 1) m inner)
    (hend : c.statementEnd (some j) (some (k + 1)) = some m) (hkm : k < m) (hmj : m ≤ j)
    (hrest : c.Yields m j rest) :
    c.Yields i j (.forDo (List.range' (i + 2) (k - (i + 2))) [] [] inner rest) := by
  have hik := h.lt
  refine of_step ho hj (by omega) (by simp [h.opens]) fun fuel hf hlabel hne => ?_
  have hi' : (c.token i).text = "for" := hi
  have hinit : c.collect (fun n => some n = some k || c.text n == ";") (some (i + 2)) =
      (List.range' (i + 2) (k - (i + 2)), some k) := by
    refine collect_eq ho (by omega) (by omega) (by simp) fun n hin hnk => ?_
    simpa [hheader.text_ne hin hnk] using hnk.ne
  -- the walk has come to the closing parenthesis, and stays there
  have hskip : c.skip ";" (some k) = some k := by simp [skip, textAt, h.closes]
  have hnone : ∀ stop : Nat → Bool, stop k = true → c.collect stop (some k) = ([], some k) := by
    intro stop hstop
    have hcollect := collect_eq (k := k) ho le_rfl (by omega) hstop (fun n hn hk => absurd hk (by omega))
    rwa [Nat.sub_self] at hcollect
  rw [readWithin, if_neg hne, hlabel, if_neg Bool.false_ne_true]
  simp only [hi', ho.next i (by omega), textAt, Option.elim_some, h.opens, if_true, Option.bind_some,
    h.link, ho.next_some (i := i + 1) (by omega), hinit, hskip,
    hnone (fun n => some n = some k || c.text n == ";") (by simp), hnone (fun n => some n = some k) (by simp),
    ho.next_some (i := k) (by omega), hend, hinner fuel j (by omega) hmj, hrest fuel (by omega)]

theorem Straight.frame (h : c.Straight F i j) : c.Frame (fun _ => false) F i j := by
  -- no statement is a label here, though an expression may be read as one
  induction h with
  | done => exact .done
  | expression hi hp hfirst hk _ ih =>
    have hhead : c.text _ ∉ heads := fun hm => hfirst (hp.eq_colon le_rfl hi (heads_subset hm))
    exact .statement (.simple hhead hfirst (hp.crosses hi.le) hk) ih
  | empty hi _ ih => exact .statement (.simple (by simp [hi, heads]) (by simp [hi]) .done hi) ih
  | block hb _ _ ihinner ih =>
    have := Delimited.width_le ihinner
    exact .statement (.block (by omega) hb) ih
  | ifThen hi hp _ hm _ ihyes ih => exact .statement (.ifThen hi hp ihyes hm) ih
  | ifElse hi hp _ hm _ _ ihyes ihno ih => exact .statement (.ifElse hi hp ihyes hm ihno) ih
  | whileDo hi hp _ _ ihinner ih => exact .statement (.loop (by simp [hi]) hp ihinner) ih
  | doWhile hi _ hm hp hk _ ihinner ih => exact .statement (.doWhile hi ihinner hm hp hk) ih
  | forDo hi hp _ _ _ _ _ _ _ _ _ _ ihinner ih => exact .statement (.loop (by simp [hi]) hp ihinner) ih
  | forRange hi hp _ _ _ _ _ _ ihinner ih => exact .statement (.loop (by simp [hi]) hp ihinner) ih
  | braces hb _ ih =>
    have := Delimited.width_le ih
    exact .block (by omega) hb
  | single _ _ ih => exact Delimited.framed ih rfl

def ReadsBack (c : Code) : Form → Nat → Nat → Prop
  | .list _ s, i, j => c.Yields i j s ∧
    Renders (s.positions false) (s.positions false) (s.positions true) i j
  | .body s, i, j => c.YieldsBody i j s ∧
    Renders (s.positions false) (s.positions false) (s.positions true) i j
  | .arms _, _, _ => True

theorem Straight.readsBack (h : c.Straight F i j) (ho : c.Linked) (hj : j < c.size)
    (hcolon : c.text j ≠ ":") : c.ReadsBack F i j := by
  induction h with
  | done => exact ⟨.done, .nil⟩
  | @expression n rest i k j hi hp _ hk hrest ih =>
    have hkj := hrest.frame.le
    have hend : i + (k + 1 - i) = k + 1 := by omega
    obtain ⟨hy, hr⟩ := ih hj hcolon
    refine ⟨.phrase ho hj hend hp hk hkj (hrest.frame.text_ne_colon hcolon) hy, ?_⟩
    exact phrase_renders (by omega) (hend.symm ▸ hr)
  | empty hi hrest ih =>
    have hij := hrest.frame.le
    obtain ⟨hy, hr⟩ := ih hj hcolon
    refine ⟨.token ho hj (.inr hi) (hrest.frame.text_ne_colon hcolon) hij hy, ?_⟩
    exact (Renders.range (n := 1) le_rfl le_rfl).append (by omega) hr hij
  | block hb hinner hrest ihinner ih =>
    have hik := hinner.frame.le
    have hkj := hrest.frame.le
    obtain ⟨hyi, hri⟩ := ihinner (by omega) hb.closes_ne_colon
    obtain ⟨hy, hr⟩ := ih hj hcolon
    refine ⟨.block ho hj hb hik hkj (hinner.frame.text_ne_colon hb.closes_ne_colon) hyi hy, ?_⟩
    exact (hri.mono (by omega) (by omega)).append (by omega) hr hkj
  | ifThen hi he hyes hm hrest ihyes ih =>
    have hik := he.lt
    have hkm := hyes.frame.le
    have hmj := hrest.frame.le
    obtain ⟨hyy, hry⟩ := ihyes (by omega) (hrest.frame.text_ne_colon hcolon)
    obtain ⟨hy, hr⟩ := ih hj hcolon
    refine ⟨.ifThen ho hj hi he hyy (hyes.frame.statementEnd ho trivial (by omega) hmj) hm hkm hmj hy, ?_⟩
    exact (Renders.range (by omega) (by omega)).append (by omega) (hry.append hkm hr hmj) (by omega)
  | ifElse hi he hyes hm hno hrest ihyes ihno ih =>
    have hik := he.lt
    have hkm := hyes.frame.le
    have hml := hno.frame.le
    have hlj := hrest.frame.le
    obtain ⟨hyy, hry⟩ := ihyes (by omega) (by simp [hm])
    obtain ⟨hyn, hrn⟩ := ihno (by omega) (hrest.frame.text_ne_colon hcolon)
    obtain ⟨hy, hr⟩ := ih hj hcolon
    refine ⟨.ifElse ho hj hi he hyy (hyes.frame.statementEnd ho trivial (by omega) (by omega)) hm hkm hyn
      (hno.frame.statementEnd ho trivial (by omega) hlj) hml hlj hy, ?_⟩
    exact (Renders.range (by omega) (by omega)).append (by omega) (hry.append hkm
      ((hrn.append hml hr hlj).mono (by omega) le_rfl) (by omega)) (by omega)
  | whileDo hi he hinner hrest ihinner ih =>
    have hik := he.lt
    have hkm := hinner.frame.le
    have hmj := hrest.frame.le
    obtain ⟨hyi, hri⟩ := ihinner (by omega) (hrest.frame.text_ne_colon hcolon)
    obtain ⟨hy, hr⟩ := ih hj hcolon
    refine ⟨.whileDo ho hj hi he hyi (hinner.frame.statementEnd ho trivial (by omega) hmj) hkm hmj hy, ?_⟩
    exact (Renders.range (by omega) (by omega)).append (by omega) (hri.append hkm hr hmj) (by omega)
  | doWhile hi hinner hm he hk hrest ihinner ih =>
    have him := hinner.frame.le
    have hmk := he.lt
    have hkj := hrest.frame.le
    have hmc := hm.trans_ne (show "while" ≠ ":" by decide)
    obtain ⟨hyi, hri⟩ := ihinner (by omega) hmc
    obtain ⟨hy, hr⟩ := ih hj hcolon
    refine ⟨.doWhile ho hj hi hyi (hinner.frame.statementEnd ho trivial (by omega) (by omega))
      (hinner.frame.text_ne_colon hmc) him hm he hk hkj hy, ?_⟩
    exact (hri.mono (by omega) le_rfl).append (by omega)
      ((Renders.range (by omega) (by omega)).append (by omega) hr (by omega)) (by omega)
  | @forDo n inner rest i a b k m j hi he hia hinit ha hab htest hb hbk _ hinner hrest ihinner ih =>
    have hkm := hinner.frame.le
    have hmj := hrest.frame.le
    obtain ⟨hyi, hri⟩ := ihinner (by omega) (hrest.frame.text_ne_colon hcolon)
    obtain ⟨hy, hr⟩ := ih hj hcolon
    refine ⟨.forDo ho hj hi he.opens he.link hia hinit ha (by omega) htest hb hbk hyi
      (hinner.frame.statementEnd ho trivial (by omega) hmj) hkm hmj hy, ?_⟩
    refine (Renders.range (j := a + 1) (by omega) (by omega)).append (by omega) ?_ (by omega)
    refine (Renders.range (j := b + 1) le_rfl (by omega)).append (by omega) ?_ (by omega)
    exact (Renders.range le_rfl (by omega)).append (by omega) (hri.append hkm hr hmj) (by omega)
  | forRange hi he hia ha hak hheader hinner hrest ihinner ih =>
    have hik := he.lt
    have hkm := hinner.frame.le
    have hmj := hrest.frame.le
    obtain ⟨hyi, hri⟩ := ihinner (by omega) (hrest.frame.text_ne_colon hcolon)
    obtain ⟨hy, hr⟩ := ih hj hcolon
    refine ⟨.forRange ho hj hi he hheader hyi
      (hinner.frame.statementEnd ho trivial (by omega) hmj) hkm hmj hy, ?_⟩
    exact (Renders.range (by omega) (by omega)).append (by omega) (hri.append hkm hr hmj) (by omega)
  | braces hb hs ih =>
    have hik := hs.frame.le
    obtain ⟨hy, hr⟩ := ih (by omega) hb.closes_ne_colon
    exact ⟨.braces ho hb hik (by omega) hy, hr.mono (by omega) (by omega)⟩
  | single hs hi ih =>
    obtain ⟨hy, hr⟩ := ih hj hcolon
    exact ⟨.single hi hy fun limit hl => hs.frame.statementEnd ho ⟨rfl, rfl⟩ hj hl, hr⟩

theorem Straight.jumpless (h : c.Straight F i j) : F.jumpless = true := by
  induction h with
  | done => rfl
  | expression _ _ _ _ _ ih => exact (phrase_jumpless _ _ _ _).trans ih
  | empty _ _ ih => exact ih
  | block _ _ _ ihinner ih | whileDo _ _ _ _ ihinner ih => exact Bool.and_eq_true_iff.mpr ⟨ihinner, ih⟩
  | ifThen _ _ _ _ _ ihyes ih => exact Bool.and_eq_true_iff.mpr ⟨ihyes, ih⟩
  | ifElse _ _ _ _ _ _ ihyes ihno ih =>
    exact Bool.and_eq_true_iff.mpr ⟨Bool.and_eq_true_iff.mpr ⟨ihyes, ihno⟩, ih⟩
  | doWhile _ _ _ _ _ _ ihinner ih => exact Bool.and_eq_true_iff.mpr ⟨ihinner, ih⟩
  | forDo _ _ _ _ _ _ _ _ _ _ _ _ ihinner ih => exact Bool.and_eq_true_iff.mpr ⟨ihinner, ih⟩
  | forRange _ _ _ _ _ _ _ _ ihinner ih => exact Bool.and_eq_true_iff.mpr ⟨ihinner, ih⟩
  | braces _ _ ih => exact ih
  | single _ _ ih => exact ih

end Code

end SignFlow

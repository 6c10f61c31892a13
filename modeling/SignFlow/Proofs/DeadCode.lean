import SignFlow.Proofs.Evaluation
import SignFlow.Proofs.Observation
import SignFlow.Proofs.StoreOrder
import SignFlow.Report.DivisionCheck

/-! Dead code.

The arm of a condition that nothing gets to is evaluated too, on the unreachable store. Variables and
literals have the impossible sign there, and most operators pass it on, so that a division by it is not
suspect. What does not look at its operands does not: a call, a subscript or a bit operation may have any
sign even where nothing can arrive, and a division by it is suspect. -/

namespace SignFlow

theorem Operator.apply_bottom (op : Operator) {a b : Sign} :
    a = .bottom ∨ b = .bottom → op.apply a b = .bottom := by
  cases op <;> cases a <;> cases b <;> decide

theorem Fact.convert_bottom (src dst : Option ValueType) :
    Fact.convert (some .bottom) src dst = some .bottom := by
  cases src <;> cases dst <;> rfl

namespace Walk

variable {α β : Type} {Q : α → Prop}

/-- On the unreachable store the step stays there, notes only divisions by what is impossible, and returns
only such values. -/
structure Dead (x : Walk α) (Q : α → Prop) : Prop where
  store : (x .unreachable).store = .unreachable
  sites : ∀ site ∈ (x .unreachable).sites, site.divisor = .bottom
  value : ∀ ⦃a⦄, (x .unreachable).value = .ok a → Q a

namespace Dead

theorem mono {x : Walk α} {R : α → Prop} (h : x.Dead Q) (hqr : ∀ a, Q a → R a) : x.Dead R :=
  ⟨h.store, h.sites, fun _ ha => hqr _ (h.value ha)⟩

theorem pure {a : α} (h : Q a) : (Pure.pure a : Walk α).Dead Q :=
  ⟨rfl, fun _ hs => absurd hs List.not_mem_nil, fun _ ha => Except.ok.inj ha ▸ h⟩

theorem bind {x : Walk α} {f : α → Walk β} {R : β → Prop} (hx : x.Dead Q) (hf : ∀ a, Q a → (f a).Dead R) :
    (x >>= f).Dead R := by
  cases hv : (x .unreachable).value with
  | error e =>
    have heq := bind_of_error (f := f) hv
    refine ⟨by rw [heq]; exact hx.store, by rw [heq]; exact hx.sites, fun b hb => ?_⟩
    rw [heq] at hb
    cases hb
  | ok a =>
    have heq := bind_of_ok (f := f) hv
    have hfa := hf a (hx.value hv)
    rw [hx.store] at heq
    refine ⟨by rw [heq]; exact hfa.store, fun site hs => ?_, fun b hb => ?_⟩
    · rw [heq] at hs
      exact (List.mem_append.mp hs).elim (hx.sites site) (hfa.sites site)
    · rw [heq] at hb
      exact hfa.value hb

theorem readStore : Walk.store.Dead (· = .unreachable) :=
  ⟨rfl, fun _ hs => absurd hs List.not_mem_nil, fun _ ha => (Except.ok.inj ha).symm⟩

theorem change {g : Store → Store} (h : g .unreachable = .unreachable) :
    (Walk.change g).Dead fun _ => True :=
  ⟨h, fun _ hs => absurd hs List.not_mem_nil, fun _ _ => trivial⟩

theorem note {site : Site} (h : site.divisor = .bottom) : (Walk.note site).Dead fun _ => True :=
  ⟨rfl, fun _ hs => List.mem_singleton.mp hs ▸ h, fun _ _ => trivial⟩

theorem lift {x : Except Fault α} (h : ∀ a, x = .ok a → Q a) : (Walk.lift x).Dead Q :=
  ⟨rfl, fun _ hs => absurd hs List.not_mem_nil, h⟩

theorem aside {x : Walk α} (h : x.Dead Q) :
    (Walk.aside .unreachable x).Dead fun p => Q p.1 ∧ p.2 = .unreachable := by
  refine ⟨rfl, h.sites, fun p hp => ?_⟩
  have hp : (x .unreachable).value.map (fun a => (a, (x .unreachable).store)) = .ok p := hp
  cases hv : (x .unreachable).value with
  | error e =>
    rw [hv] at hp
    cases hp
  | ok a =>
    rw [hv] at hp
    cases hp
    exact ⟨h.value hv, h.store⟩

theorem ite {c : Prop} [Decidable c] {x y : Walk α} (hx : c → x.Dead Q) (hy : ¬c → y.Dead Q) :
    (if c then x else y).Dead Q := by
  split
  · exact hx ‹_›
  · exact hy ‹_›

theorem assignTo (target : Expr) (f : Fact) : (Walk.assignTo target f).Dead fun _ => True := by
  unfold Walk.assignTo
  split
  · exact .pure trivial
  · split
    · exact .ite (fun _ => .change rfl) fun _ => .change rfl
    · exact .change rfl

theorem forgetTarget (target : Expr) : (Walk.forgetTarget target).Dead fun _ => True := by
  unfold Walk.forgetTarget
  split
  · exact .pure trivial
  · exact .change rfl

end Dead

end Walk

/-- The fact of dead code with the outline: a sign where it is tracked, and the impossible one where it
vanishes. -/
structure Outline.Fades (o : Outline) (vanishes : Bool) (f : Fact) : Prop where
  isSome : f.isSome = o.tracked
  bottom : vanishes = true → f = some .bottom

namespace Outline.Fades

variable {o a b : Outline} {v va vb : Bool} {f g : Fact}

theorem convert (h : o.Fades v f) (src dst : Option ValueType) : o.Fades v (f.convert src dst) :=
  ⟨(f.isSome_convert src dst).trans h.isSome, fun hv => by rw [h.bottom hv, Fact.convert_bottom]⟩

theorem unknown {t : Token} (h : o.tracked = t.isNumeric) : o.Fades false t.unknown :=
  ⟨t.isSome_unknown.trans h.symm, fun hv => nomatch hv⟩

/-- If a side has no sign, an operation does not vanish. -/
theorem operation_unknown {t : Token} {mark : Mark} (ha : a.Fades va f) (hb : b.Fades vb g)
    (h : f = none ∨ g = none) (w : Bool) :
    (operation t mark a b).Fades (a.tracked && b.tracked && w) t.unknown := by
  have hboth : (a.tracked && b.tracked) = false := by
    rw [← ha.isSome, ← hb.isSome, Bool.and_eq_false_iff]
    exact h.imp (fun h => by rw [h]; rfl) fun h => by rw [h]; rfl
  rw [hboth]
  exact unknown (by rw [operation, hboth, Bool.false_or])

theorem apply_bottom {x y : Sign} (ha : a.Fades va (some x)) (hb : b.Fades vb (some y)) (op : Operator)
    (h : (va || vb) = true) : op.apply x y = .bottom := by
  refine op.apply_bottom ?_
  rcases Bool.or_eq_true_iff.mp h with h | h
  · exact .inl (Option.some.inj (ha.bottom h))
  · exact .inr (Option.some.inj (hb.bottom h))

end Outline.Fades

def Walk.Fades (o : Outline) (vanishes : Bool) (x : Walk Fact) : Prop := x.Dead (o.Fades vanishes)

theorem Walk.Fades.ite {c : Prop} [Decidable c] {o o' : Outline} {v v' : Bool} {x y : Walk Fact}
    (hx : c → x.Fades o v) (hy : ¬c → y.Fades o' v') :
    (if c then x else y).Fades (if c then o else o') (if c then v else v') := by
  by_cases hc : c
  · simpa only [if_pos hc] using hx hc
  · simpa only [if_neg hc] using hy hc

namespace Eval

open Walk

variable {pos : Nat} {t : Token} {op : Operator} {l r : Expr} {a b : Outline} {va vb : Bool}
  {left right : Walk Fact}

theorem leaf_fades : (leaf t).Fades ⟨t.isNumeric, []⟩ t.isNumeric := by
  unfold leaf
  cases hn : t.isNumeric with
  | false => exact .pure ⟨rfl, fun h => nomatch h⟩
  | true =>
    refine Dead.readStore.bind fun s hs => ?_
    rw [hs]
    exact .pure ⟨rfl, fun _ => rfl⟩

theorem assign_fades (hl : left.Fades a va) (hr : right.Fades b vb) :
    (assign l r left right).Fades (.assign l a b) (l.isNumeric && vb) := by
  refine hr.bind fun f hf => ?_
  have hf := hf.convert r.type? l.type?
  have last : Walk.Fades (.assign l a b) (l.isNumeric && vb) (do
      assignTo l (f.convert r.type? l.type?)
      pure (if l.isNumeric then f.convert r.type? l.type? else none)) := by
    refine (Dead.assignTo _ _).bind fun _ _ => .pure ?_
    cases hn : l.isNumeric with
    | false => exact ⟨by simp [Outline.assign, hn], fun h => nomatch h⟩
    | true => exact ⟨by simpa [Outline.assign, hn] using hf.isSome, hf.bottom⟩
  exact .ite (fun _ => hl.bind fun _ _ => last) fun _ => last

theorem arithmetic_fades {mark : Mark} (hl : left.Fades a va) (hr : right.Fades b vb)
    (hd : op.isDivision = true → a.tracked = true → b.tracked = true → vb = true) :
    (arithmetic pos t op l r left right).Fades (.operation t mark a b)
      (a.tracked && b.tracked && (va || vb)) := by
  refine hl.bind fun f hf => hr.bind fun g hg => ?_
  replace hf := hf.convert l.type? t.type
  replace hg := hg.convert r.type? t.type
  dsimp only
  generalize f.convert l.type? t.type = f at hf
  generalize g.convert r.type? t.type = g at hg
  rcases f with _ | x
  case none => exact .pure (hf.operation_unknown hg (.inl rfl) _)
  rcases g with _ | y
  case none => exact .pure (hf.operation_unknown hg (.inr rfl) _)
  have ha : a.tracked = true := hf.isSome.symm
  have hb : b.tracked = true := hg.isSome.symm
  have hresult : (Outline.operation t mark a b).Fades (a.tracked && b.tracked && (va || vb))
      (Fact.fit (some (if cancels op l r && op.apply x y != .bottom then .zero else op.apply x y)) t.type) := by
    refine ⟨by rw [Fact.isSome_fit]; simp [Outline.operation, ha, hb], fun h => ?_⟩
    rw [hf.apply_bottom hg op (Bool.and_eq_true_iff.mp h).2, if_neg (by simp)]
    rfl
  refine .ite (fun h => (Dead.note ?_).bind fun _ _ => .pure hresult) fun _ => .pure hresult
  exact Option.some.inj (hg.bottom (hd h ha hb))

theorem compound_fades {mark : Mark} (hl : left.Fades a va) (hr : right.Fades b vb)
    (hd : op.isDivision = true → a.tracked = true → b.tracked = true → vb = true) :
    (compound pos t op l r left right).Fades (.operation t mark b a)
      (b.tracked && a.tracked && ((va || vb) && !(l.isIntegral && !r.isIntegral))) := by
  refine hr.bind fun g hg => hl.bind fun f hf => ?_
  rcases f with _ | x
  case none =>
    exact (Dead.assignTo _ _).bind fun _ _ => .pure (hg.operation_unknown hf (.inr rfl) _)
  rcases g with _ | y
  case none =>
    exact (Dead.assignTo _ _).bind fun _ _ => .pure (hg.operation_unknown hf (.inl rfl) _)
  have ha : a.tracked = true := hf.isSome.symm
  have hb : b.tracked = true := hg.isSome.symm
  have hresult : (Outline.operation t mark b a).Fades
      (b.tracked && a.tracked && ((va || vb) && !(l.isIntegral && !r.isIntegral)))
      (Fact.narrow (some (if l.isIntegral && !r.isIntegral && op.apply x y != .zero then .top
        else op.apply x y)) l.type?) := by
    refine ⟨by rw [Fact.isSome_narrow]; simp [Outline.operation, ha, hb], fun h => ?_⟩
    simp only [Bool.and_eq_true, Bool.not_eq_true'] at h
    rw [hf.apply_bottom hg op h.2.1, h.2.2]
    rfl
  have last := (Dead.assignTo l (Fact.narrow (some (if l.isIntegral && !r.isIntegral &&
    op.apply x y != .zero then .top else op.apply x y)) l.type?)).bind fun _ _ => .pure hresult
  refine .ite (fun h => (Dead.note ?_).bind fun _ _ => last) fun _ => last
  exact Option.some.inj (hg.bottom (hd h ha hb))

theorem comparison_fades (hl : left.Fades a va) (hr : right.Fades b vb) :
    (comparison left right).Fades (.both a b) (va || vb) := by
  refine hl.bind fun f hf => hr.bind fun g hg => .pure ⟨rfl, fun h => ?_⟩
  rw [Comparison.value, if_pos]
  rcases Bool.or_eq_true_iff.mp h with h | h
  · exact .inl (by rw [hf.bottom h]; rfl)
  · exact .inr (by rw [hg.bottom h]; rfl)

theorem step_fades {operand : Expr} {value : Walk Fact} (h : value.Fades a va) :
    (step op operand value).Fades (.step operand a) (va && operand.isNumeric) := by
  refine h.bind fun f hf => ?_
  have hnone : (a.tracked && operand.isNumeric) = false →
      Walk.Fades (.step operand a) (va && operand.isNumeric) (do assignTo operand none; pure none) := by
    intro hn
    refine (Dead.assignTo _ _).bind fun _ _ => .pure ⟨hn.symm, fun hv => ?_⟩
    obtain ⟨hv, hnum⟩ := Bool.and_eq_true_iff.mp hv
    rw [hnum, Bool.and_true, ← hf.isSome, hf.bottom hv] at hn
    cases hn
  rcases f with _ | old
  case none => exact hnone (by rw [← hf.isSome]; rfl)
  have ha : a.tracked = true := hf.isSome.symm
  refine .ite (fun hn => ?_) fun hn => hnone (by simp [hn])
  refine (Dead.assignTo _ _).bind fun _ _ => .pure ⟨?_, fun hv => ?_⟩
  · rw [Option.isSome_map, Fact.isSome_narrow]
    simp [Outline.step, ha, hn]
  · cases hf.bottom (Bool.and_eq_true_iff.mp hv).1
    rw [op.apply_bottom (.inl rfl)]
    rfl

theorem unary_fades {operand : Expr} {value : Walk Fact} (h : value.Fades a va) :
    (unary t operand value).Fades (.unary t a) (["-", "+", "!"].contains t.text && va) := by
  refine h.bind fun f hf => ?_
  split
  · rename_i ht
    refine .pure ⟨?_, fun hv => ?_⟩
    · simp only [Outline.unary, ht, ← hf.isSome]
      cases f with
      | none => rfl
      | some x => exact Fact.isSome_fit _ _
    · rw [hf.bottom (Bool.and_eq_true_iff.mp hv).2]
      rfl
  · rename_i ht
    refine .pure ⟨by simpa [Outline.unary, ht] using hf.isSome, fun hv => ?_⟩
    exact hf.bottom (Bool.and_eq_true_iff.mp hv).2
  · rename_i ht
    refine (Dead.forgetTarget _).bind fun _ _ => .pure ⟨by simp [Outline.unary, ht], fun hv => ?_⟩
    simp [ht] at hv
  · rename_i ht
    refine .pure ⟨?_, fun hv => ?_⟩
    · split <;> simp [Outline.unary, ht]
    · rw [if_pos (hf.bottom (Bool.and_eq_true_iff.mp hv).2)]
  · refine .pure ⟨?_, fun hv => ?_⟩
    · rw [Token.isSome_unknown, Outline.unary]
      split <;> simp_all
    · simp_all

theorem other_fades (hl : left.Fades a va) (hr : right.Fades b vb) :
    (other t l left right).Fades (.other t a b) false := by
  have last : Walk.Fades (.other t a b) false (do
      let _ ← right
      if Expr.assignments.contains t.text then assignTo l (some .top)
      pure t.unknown) := by
    refine hr.bind fun _ _ => .ite (fun _ => ?_) fun _ => .pure (.unknown rfl)
    exact (Dead.assignTo _ _).bind fun _ _ => .pure (.unknown rfl)
  exact Dead.ite (fun _ => hl.bind fun _ _ => last) fun _ => last

end Eval

/-- Which of an expression and its operands vanish. -/
structure Vanishing where
  value : Bool := false
  left : Bool := false
  right : Bool := false

namespace Expr

/-- Whether a node has the impossible sign in dead code, by what it is and by its operands. -/
def vanishingOf (t : Token) (l r : Expr) (a b : Vanishing) : Bool :=
  if l.isAbsent && r.isAbsent then t.isNumeric
  else if t.text == "=" && !r.isAbsent then l.isNumeric && b.value
  else
    match binaryOf? t l r with
    | some (.arithmetic _) => l.tracked && r.tracked && (a.value || b.value)
    | some (.compound _) =>
      -- what is not integral is cut off on its way into an integral variable, and may leave anything
      r.tracked && l.tracked && ((a.value || b.value) && !(l.isIntegral && !r.isIntegral))
    | some (.comparison _) => a.value || b.value
    | none =>
      if t.text == "++" || t.text == "--" then
        if l.isAbsent then b.value && r.isNumeric else a.value && l.isNumeric
      else if t.text == "&&" || t.text == "||" then true
      else if t.text == "?" then r.text == ":" && (b.left && b.right)
      else if t.text == "." || t.text == "::" then false
      else if isCastOf t l r then a.value
      else if r.isAbsent then ["-", "+", "!"].contains t.text && a.value
      else if t.text == "," then b.value
      else false

def vanishing : Expr → Vanishing
  | absent => {}
  | node _ t l r => ⟨vanishingOf t l r l.vanishing r.vanishing, l.vanishing.value, r.vanishing.value⟩

def vanishes (e : Expr) : Bool := e.vanishing.value

/-- If the node divides one sign by another, the divisor vanishes. -/
def divisorVanishes (t : Token) (l r : Expr) : Bool :=
  match binaryOf? t l r with
  | some (.arithmetic op) | some (.compound op) =>
    !(op.isDivision && l.tracked && r.tracked) || r.vanishes
  | _ => true

end Expr

/-- The evaluations fade as outlined, and nothing is assumed where nothing can arrive. -/
structure Meaning.Fades (o : Outlines) (v : Vanishing) (m : Meaning) : Prop where
  value : m.value.Fades o.value v.value
  left : m.left.Fades o.left v.left
  right : m.right.Fades o.right v.right
  assume : ∀ truth, m.assume truth .unreachable = .ok .unreachable

namespace Eval

open Walk

variable {pos : Nat} {t : Token} {l r : Expr} {ml mr : Meaning} {ol ops : Outlines} {vl vr : Vanishing}

theorem assume_dead (hl : ml.Fades ol vl) (truth : Bool) :
    (Walk.lift (ml.assume truth .unreachable)).Dead (· = .unreachable) :=
  .lift fun _ h => (Except.ok.inj ((hl.assume truth).symm.trans h)).symm

theorem shortCircuit_fades {goesOn : Bool} (hl : ml.Fades ol vl) (hr : mr.Fades ops vr) :
    (shortCircuit goesOn ml mr).Fades (.both ol.value ops.value) true := by
  refine hl.value.bind fun _ _ => Dead.readStore.bind fun s hs => ?_
  subst hs
  refine (assume_dead hl goesOn).bind fun taken ht => ?_
  subst ht
  refine (Dead.aside hr.value).bind fun ⟨w, branch⟩ hw => ?_
  have hchange : (change (·.absorb branch)).Dead fun _ => True := .change Store.absorb_unreachable
  refine hchange.bind fun _ _ => Dead.readStore.bind fun s hs => ?_
  subst hs
  exact .pure ⟨rfl, fun _ => rfl⟩

theorem conditional_fades {hasArms : Bool} (hl : ml.Fades ol vl) (hr : mr.Fades ops vr) :
    (conditional t hasArms ml mr).Fades
      (.conditional t hasArms ol.value ops.value ops.left ops.right) (hasArms && (vr.left && vr.right)) := by
  refine hl.value.bind fun _ _ => .ite (fun h => ?_) fun h => ?_
  · have h : hasArms = false := by simpa using h
    rw [h]
    exact hr.value.bind fun _ _ => .pure (.unknown rfl)
  have h : hasArms = true := by simpa using h
  rw [h]
  refine Dead.readStore.bind fun s hs => ?_
  subst hs
  refine (assume_dead hl true).bind fun yesStore hyes => ?_
  subst hyes
  refine (Dead.aside hr.left).bind fun ⟨yes, yesEnd⟩ hy => Dead.readStore.bind fun s hs => ?_
  subst hs
  refine (assume_dead hl false).bind fun noStore hno => ?_
  subst hno
  refine (Dead.aside hr.right).bind fun ⟨no, noEnd⟩ hn => ?_
  have hchange : (change (·.adopt (yesEnd.join noEnd))).Dead fun _ => True :=
    .change Store.adopt_unreachable
  refine hchange.bind fun _ _ => ?_
  obtain ⟨hy, -⟩ := hy
  obtain ⟨hn, -⟩ := hn
  dsimp only at hy hn ⊢
  have hunknown : (yes.isSome && no.isSome) = false →
      (Outline.conditional t true ol.value ops.value ops.left ops.right).Fades
        (true && (vr.left && vr.right)) t.unknown := by
    intro hnone
    refine ⟨?_, fun hv => ?_⟩
    · rw [Token.isSome_unknown, Outline.conditional, if_pos rfl, ← hy.isSome, ← hn.isSome, hnone, Bool.false_or]
    · simp only [Bool.true_and, Bool.and_eq_true] at hv
      rw [hy.bottom hv.1, hn.bottom hv.2] at hnone
      cases hnone
  rcases yes with _ | x
  case none => exact .pure (hunknown rfl)
  rcases no with _ | y
  case none => exact .pure (hunknown rfl)
  refine .pure ⟨?_, fun hv => ?_⟩
  · rw [Outline.conditional, if_pos rfl, ← hy.isSome, ← hn.isSome]
    rfl
  · simp only [Bool.true_and, Bool.and_eq_true] at hv
    cases hy.bottom hv.1
    cases hn.bottom hv.2
    rfl

theorem visit_fades (hl : ml.Fades l.outlines vl) (hr : mr.Fades r.outlines vr)
    (hd : ∀ op compound, Expr.Divides t l r op compound → l.tracked = true → r.tracked = true →
      vr.value = true) :
    (visit pos t l r ml mr).Fades (Expr.outlineOf pos t l r l.outlines r.outlines)
      (Expr.vanishingOf t l r vl vr) := by
  refine .ite (fun _ => leaf_fades) fun _ => .ite (fun _ => assign_fades hl.value hr.value) fun _ => ?_
  cases hb : Expr.binaryOf? t l r with
  | some kind =>
    cases kind with
    | arithmetic op => exact arithmetic_fades hl.value hr.value fun h => hd op false ⟨hb, h⟩
    | compound op => exact compound_fades hl.value hr.value fun h => hd op true ⟨hb, h⟩
    | comparison c => exact comparison_fades hl.value hr.value
  | none =>
    refine .ite (fun _ => .ite (fun _ => step_fades hr.value) fun _ => step_fades hl.value) fun _ => ?_
    refine .ite (fun _ => shortCircuit_fades hl hr) fun _ => .ite (fun _ => conditional_fades hl hr) fun _ => ?_
    refine .ite (fun _ => hl.value.bind fun _ _ => .pure (.unknown rfl)) fun _ => ?_
    refine .ite (fun _ => hl.value.bind fun f hf => .pure (hf.convert _ _)) fun _ => ?_
    refine .ite (fun _ => unary_fades hl.value) fun _ => .ite (fun _ => ?_) fun _ => other_fades hl.value hr.value
    exact hl.value.bind fun _ _ => hr.value.mono fun f hf => ⟨hf.isSome, hf.bottom⟩

/-- Values known for certain do not count where nothing can arrive. -/
theorem withKnown_fades {o : Outline} {v : Bool} {visited : Walk Fact} (h : visited.Fades o v) :
    (withKnown t visited).Fades o v := by
  refine h.bind fun f hf => (Dead.lift fun _ _ => trivial).bind fun known _ => ?_
  cases known with
  | none => exact .pure hf
  | some n =>
    refine Dead.readStore.bind fun s hs => ?_
    subst hs
    rw [if_neg (by simp [Store.isReachable])]
    exact .pure hf

end Eval

theorem Expr.meaning_fades {e : Expr} (h : e.Each fun _ t l r => divisorVanishes t l r = true) :
    e.meaning.Fades e.outlines e.vanishing := by
  induction e with
  | absent =>
    have hnone : (pure none : Walk Fact).Fades {} false := .pure ⟨rfl, fun h => nomatch h⟩
    exact ⟨hnone, hnone, hnone, fun _ => rfl⟩
  | node pos t l r ihl ihr =>
    obtain ⟨hd, hl, hr⟩ := h
    have hdivisor : ∀ op compound, Divides t l r op compound → l.tracked = true → r.tracked = true →
        r.vanishes = true := by
      rintro op compound ⟨hb, hop⟩ htl htr
      unfold divisorVanishes at hd
      rw [hb] at hd
      cases compound <;> simpa [hop, htl, htr] using hd
    exact ⟨Eval.withKnown_fades (Eval.visit_fades (ihl hl) (ihr hr) hdivisor), (ihl hl).value,
      (ihr hr).value, fun _ => rfl⟩

theorem Walk.mem_sites_bind {α β : Type} {x : Walk α} {f : α → Walk β} {s : Store} {site : Site}
    (h : site ∈ ((x >>= f) s).sites) :
    site ∈ (x s).sites ∨ ∃ a, (x s).value = .ok a ∧ site ∈ (f a (x s).store).sites := by
  cases hv : (x s).value with
  | error e =>
    rw [bind_of_error hv] at h
    exact .inl h
  | ok a =>
    rw [bind_of_ok hv] at h
    exact (List.mem_append.mp h).imp_right fun h => ⟨a, rfl, h⟩

namespace Eval

open Walk

variable {t : Token} {ml mr : Meaning} {s : Store} {site : Site}

/-- The right side notes its divisions on the store that goes on. -/
theorem shortCircuit_sites {goesOn : Bool} (h : site ∈ (shortCircuit goesOn ml mr s).sites) :
    site ∈ (ml.value s).sites ∨
      ∃ taken, ml.assume goesOn (ml.value s).store = .ok taken ∧ site ∈ (mr.value taken).sites := by
  rcases mem_sites_bind h with h | ⟨_, -, h⟩
  · exact .inl h
  rcases mem_sites_bind h with h | ⟨_, hstore, h⟩
  · cases h
  cases hstore
  rcases mem_sites_bind h with h | ⟨taken, htaken, h⟩
  · cases h
  rcases mem_sites_bind h with h | ⟨_, -, h⟩
  · exact .inr ⟨taken, htaken, h⟩
  · cases h

/-- Each arm notes its divisions on the store of its outcome. -/
theorem conditional_sites (h : site ∈ (conditional t true ml mr s).sites) :
    site ∈ (ml.value s).sites ∨ ∃ truth s', ml.assume truth (ml.value s).store = .ok s' ∧
      site ∈ ((if truth then mr.left else mr.right) s').sites := by
  rcases mem_sites_bind h with h | ⟨_, -, h⟩
  · exact .inl h
  rcases mem_sites_bind h with h | ⟨_, hstore, h⟩
  · cases h
  cases hstore
  rcases mem_sites_bind h with h | ⟨yesStore, hyes, h⟩
  · cases h
  rcases mem_sites_bind h with h | ⟨⟨yes, yesEnd⟩, -, h⟩
  · exact .inr ⟨true, yesStore, hyes, h⟩
  rcases mem_sites_bind h with h | ⟨_, hstore, h⟩
  · cases h
  cases hstore
  rcases mem_sites_bind h with h | ⟨noStore, hno, h⟩
  · cases h
  rcases mem_sites_bind h with h | ⟨⟨no, noEnd⟩, -, h⟩
  · exact .inr ⟨false, noStore, hno, h⟩
  rcases mem_sites_bind h with h | ⟨_, -, h⟩
  · cases h
  · cases yes <;> cases no <;> cases h

theorem withKnown_sites {visited : Walk Fact} (h : site ∈ (withKnown t visited s).sites) :
    site ∈ (visited s).sites := by
  rcases mem_sites_bind h with h | ⟨f, -, h⟩
  · exact h
  rcases mem_sites_bind h with h | ⟨known, -, h⟩
  · cases h
  cases known with
  | none => cases h
  | some n =>
    rcases mem_sites_bind h with h | ⟨_, -, h⟩
    · cases h
    · split at h <;> cases h

end Eval

namespace Expr

/-- Code where whatever is divided by vanishes. Where nothing can arrive it changes nothing and none of its
divisions is suspect. As the arm of a condition that has the other outcome, or on the right of a logical
operator that the left side decides, it adds no suspect division to those of the rest. -/
theorem dead_code_unsuspected (e : Expr) (he : e.Each fun _ t l r => divisorVanishes t l r = true) :
    ((e.eval .unreachable).store = .unreachable ∧
      ∀ site ∈ (e.eval .unreachable).sites, site.divisor.mayBeZero = false) ∧
    (∀ (pos q : Nat) (t colon : Token) (test other : Expr) (truth : Bool) (s : Store),
      t.text = "?" → colon.text = ":" → test.isAbsent = false →
      test.assume truth (test.eval s).store = .ok .unreachable →
      ∀ site ∈ ((node pos t test
          (node q colon (if truth then e else other) (if truth then other else e))).eval s).sites,
        DivisionCheck.isSuspect site = true → site ∈ (test.eval s).sites ∨
          ∃ s', test.assume (!truth) (test.eval s).store = .ok s' ∧ site ∈ (other.eval s').sites) ∧
    ∀ (pos : Nat) (t : Token) (left : Expr) (conj : Bool) (s : Store),
      t.text = (if conj then "&&" else "||") → left.isAbsent = false → e.isAbsent = false →
      left.assume conj (left.eval s).store = .ok .unreachable →
      ∀ site ∈ ((node pos t left e).eval s).sites,
        DivisionCheck.isSuspect site = true → site ∈ (left.eval s).sites := by
  have hdead : e.eval.Fades e.outlines.value e.vanishing.value := (meaning_fades he).value
  have hunsuspected : ∀ site ∈ (e.eval .unreachable).sites, site.divisor.mayBeZero = false := by
    intro site hsite
    rw [hdead.sites site hsite]
    rfl
  have hno : ∀ site ∈ (e.eval .unreachable).sites, DivisionCheck.isSuspect site ≠ true := by
    intro site hsite
    rw [DivisionCheck.isSuspect, hunsuspected site hsite, Bool.and_false]
    exact Bool.false_ne_true
  refine ⟨⟨hdead.store, hunsuspected⟩, ?_, ?_⟩
  · intro pos q t colon test other truth s ht hc htest hout site hsite hsuspect
    have hvisit := Eval.withKnown_sites hsite
    rw [Eval.visit_conditional ht hc htest] at hvisit
    rcases Eval.conditional_sites hvisit with h | ⟨outcome, s', hs', h⟩
    · exact .inl h
    by_cases houtcome : outcome = truth
    · subst houtcome
      cases hs'.symm.trans hout
      exact absurd hsuspect (hno site (by cases outcome <;> exact h))
    · obtain rfl : outcome = !truth := Bool.eq_not.mpr houtcome
      exact .inr ⟨s', hs', by cases truth <;> exact h⟩
  · intro pos t left conj s ht hleft hright hout site hsite hsuspect
    have hvisit := Eval.withKnown_sites hsite
    rw [Eval.visit_logical ht hleft hright] at hvisit
    rcases Eval.shortCircuit_sites hvisit with h | ⟨taken, htaken, h⟩
    · exact h
    · cases htaken.symm.trans hout
      exact absurd hsuspect (hno site h)

def divisor : Key := .id 1

def integer (pos : Nat) (text : String) : Expr :=
  .node pos { text, isNumber := true, type := intType } .absent .absent

def named (pos : Nat) (k : Key) : Expr :=
  .node pos { text := "v", variableKey := some k, type := intType } .absent .absent

def divisorTest : Expr :=
  -- the tree of `d != 0`
  .node 1 { text := "!=", type := some { base := .bool } } (named 0 divisor) (integer 2 "0")

def guardedBy (yes no : Expr) : Expr :=
  -- the tree of `d != 0 ? … : …`
  .node 3 { text := "?", type := intType } divisorTest (.node 20 { text := ":" } yes no)

def differenceDivision : Expr :=
  -- the tree of `7 / -(x - d)`
  .node 5 { text := "/", type := intType } (integer 4 "7")
    (.node 6 { text := "-", type := intType }
      (.node 8 { text := "-", type := intType } (named 7 (.id 2)) (named 9 divisor)) .absent)

/-- With the divisor zero, the first arm notes its division and only the second one's is suspect. -/
theorem dead_code_unsuspected_difference :
    (differenceDivision.Each fun _ t l r => divisorVanishes t l r = true) ∧
    (differenceDivision.eval .unreachable).sites ≠ [] ∧
    (∀ site ∈ (differenceDivision.eval .unreachable).sites, site.divisor.mayBeZero = false) ∧
    ∀ last : Expr, ∀ site ∈ ((guardedBy differenceDivision last).eval (Store.empty.bind divisor .zero)).sites,
      DivisionCheck.isSuspect site = true → site ∈ (last.eval (Store.empty.bind divisor .zero)).sites := by
  have hvanish : differenceDivision.Each fun _ t l r => divisorVanishes t l r = true := by decide
  obtain ⟨⟨-, hdead⟩, harms, -⟩ := dead_code_unsuspected differenceDivision hvanish
  refine ⟨hvanish, by decide, hdead, fun last site hsite hsuspect => ?_⟩
  rcases harms 3 20 _ _ divisorTest last true _ rfl rfl rfl rfl site hsite hsuspect with h | ⟨s', hs', h⟩
  · cases h
  · cases hs'
    exact h

def callDivision : Expr :=
  -- the tree of `x / f()`
  .node 5 { text := "/", type := intType } (named 4 (.id 2))
    (.node 7 { text := "(", previous := some 6, type := intType }
      (.node 6 { text := "f" } .absent .absent) .absent)

/-- A suspect division where nothing can arrive: the call may have any sign. -/
theorem dead_call_suspected :
    divisorTest.assume true (divisorTest.eval (Store.empty.bind divisor .zero)).store = .ok .unreachable ∧
    ((guardedBy callDivision (integer 21 "1")).eval (Store.empty.bind divisor .zero)).sites =
      (callDivision.eval .unreachable).sites ∧
    ∃ site ∈ (callDivision.eval .unreachable).sites,
      site.divisor = .top ∧ DivisionCheck.isSuspect site = true := by
  refine ⟨rfl, rfl, ⟨5, .divide, .bottom, .top, false, true⟩, ?_, rfl, rfl⟩
  exact List.mem_singleton.mpr rfl

end Expr

end SignFlow

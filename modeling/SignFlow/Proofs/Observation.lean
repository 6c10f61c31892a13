import SignFlow.Proofs.Outline

/-! Which divisions are noted.

Evaluation notes a division if both its operands have a sign. An integral type alone is not enough: casts,
signs, steps, assignments and commas take their sign over from an operand, and have none where the operand
has none. -/

namespace SignFlow

namespace Expr

structure Shaped (t : Token) (l r : Expr) : Prop where
  leaf : t.variableKey.isSome = true → l.isAbsent = true ∧ r.isAbsent = true
  cast : isCastOf t l r = true → r.isAbsent = true
  step : t.text ∈ steps → l.isAbsent = true ∨ r.isAbsent = true

instance (t : Token) (l r : Expr) : Decidable (Shaped t l r) :=
  decidable_of_iff
    ((t.variableKey.isSome = true → l.isAbsent = true ∧ r.isAbsent = true) ∧
      (isCastOf t l r = true → r.isAbsent = true) ∧
      (t.text ∈ steps → l.isAbsent = true ∨ r.isAbsent = true))
    ⟨fun h => ⟨h.1, h.2.1, h.2.2⟩, fun h => ⟨h.leaf, h.cast, h.step⟩⟩

/-- The first expression stands inside the other, but not in the function that a call names and not in
the member after a dot or a double colon. -/
inductive Inside (d : Expr) : Expr → Prop
  | self : Inside d d
  | left {pos : Nat} {t : Token} {l r : Expr} (h : Inside d l)
    (call : t.text = "(" → isCastOf t l r = true ∨ r.isAbsent = true) : Inside d (node pos t l r)
  | right {pos : Nat} {t : Token} {l r : Expr} (h : Inside d r) (dot : t.text ≠ ".")
    (colons : t.text ≠ "::") : Inside d (node pos t l r)

def Divides (t : Token) (l r : Expr) (op : Operator) (compound : Bool) : Prop :=
  binaryOf? t l r = some (if compound then .compound op else .arithmetic op) ∧ op.isDivision = true

variable {pos : Nat} {t : Token} {l r : Expr}

theorem marks_node : (node pos t l r).marks = (outlineOf pos t l r l.outlines r.outlines).marks := rfl

theorem marks_of_isAbsent {e : Expr} (h : e.isAbsent = true) : e.marks = [] := by
  rw [eq_absent h]
  rfl

theorem binaryOf?_eq_some {kind : Binary} (h : binaryOf? t l r = some kind) :
    l.isAbsent = false ∧ r.isAbsent = false ∧ Binary.ofText? t.text = some kind := by
  unfold binaryOf? at h
  split at h
  · cases h
  · rename_i ha
    simp only [Bool.or_eq_true, not_or, Bool.not_eq_true] at ha
    exact ⟨ha.1, ha.2, h⟩

/-- What evaluating the left operand notes is noted with the node, but for calls and variables that are
assigned. -/
theorem marks_left (hcall : t.text = "(" → isCastOf t l r = true ∨ r.isAbsent = true)
    (hkey : t.text = "=" → l.key? = none) : l.marks ⊆ (node pos t l r).marks := by
  rw [marks_node, outlineOf]
  split
  · rename_i h
    rw [marks_of_isAbsent (Bool.and_eq_true_iff.mp h).1]
    exact List.nil_subset _
  split
  · rename_i h
    rw [Outline.assign, hkey (beq_iff_eq.mp (Bool.and_eq_true_iff.mp h).1)]
    exact List.subset_append_right _ _
  cases binaryOf? t l r with
  | some kind =>
    cases kind with
    | arithmetic op => exact fun m hm => List.mem_append_left _ (List.mem_append_left _ hm)
    | compound op => exact fun m hm => List.mem_append_left _ (List.mem_append_right _ hm)
    | comparison c => exact List.subset_append_left _ _
  | none =>
    dsimp only
    split
    · split
      · rename_i hl
        rw [marks_of_isAbsent hl]
        exact List.nil_subset _
      · exact List.Subset.refl _
    split
    · exact List.subset_append_left _ _
    split
    · unfold Outline.conditional
      split
      · exact fun m hm => List.mem_append_left _ (List.mem_append_left _ hm)
      · exact List.subset_append_left _ _
    split
    · exact List.Subset.refl _
    split
    · exact List.Subset.refl _
    rename_i hcast
    split
    · exact List.Subset.refl _
    rename_i hr
    split
    · exact List.subset_append_left _ _
    · have ht : t.text ≠ "(" := fun ht => (hcall ht).elim hcast hr
      rw [Outline.other, if_pos (by simpa using ht)]
      exact List.subset_append_left _ _

theorem marks_colon {e : Expr} (h : e.text = ":") :
    e.marks = e.outlines.left.marks ++ e.outlines.right.marks := by
  cases e with
  | absent => rfl
  | node pos t l r =>
    have ht : t.text = ":" := h
    have hb : binaryOf? t l r = none := by
      unfold binaryOf?
      rw [ht]
      split <;> rfl
    have hcast : isCastOf t l r = false := by simp [isCastOf, ht]
    show _ = l.marks ++ r.marks
    rw [marks_node, outlineOf, hb, hcast]
    split
    · rename_i habsent
      rw [Bool.and_eq_true] at habsent
      rw [marks_of_isAbsent habsent.1, marks_of_isAbsent habsent.2]
      rfl
    rw [if_neg (by simp [ht])]
    dsimp only
    rw [if_neg (by simp [ht]), if_neg (by simp [ht]), if_neg (by simp [ht]), if_neg (by simp [ht]),
      if_neg Bool.false_ne_true]
    split
    · rename_i hr
      rw [marks_of_isAbsent hr, List.append_nil]
      rfl
    · rw [if_neg (by simp [ht]), Outline.other, if_pos (by simp [ht])]
      rfl

theorem marks_right (hs : Shaped t l r) (hdot : t.text ≠ ".") (hcolons : t.text ≠ "::") :
    r.marks ⊆ (node pos t l r).marks := by
  by_cases hr : r.isAbsent = true
  · rw [marks_of_isAbsent hr]
    exact List.nil_subset _
  rw [marks_node, outlineOf, if_neg (by simp [hr])]
  split
  · exact List.subset_append_left _ _
  cases binaryOf? t l r with
  | some kind =>
    cases kind with
    | arithmetic op => exact fun m hm => List.mem_append_left _ (List.mem_append_right _ hm)
    | compound op => exact fun m hm => List.mem_append_left _ (List.mem_append_left _ hm)
    | comparison c => exact List.subset_append_right _ _
  | none =>
    dsimp only
    split
    · rename_i hstep
      have hl : l.isAbsent = true := (hs.step (by simpa [steps] using hstep)).resolve_right hr
      rw [if_pos hl]
      exact List.Subset.refl _
    split
    · exact List.subset_append_right _ _
    split
    · unfold Outline.conditional
      split
      · rename_i hc
        rw [List.append_assoc, ← marks_colon (beq_iff_eq.mp hc)]
        exact List.subset_append_right _ _
      · exact List.subset_append_right _ _
    split
    · rename_i h
      simp [hdot, hcolons] at h
    split
    · rename_i h
      exact absurd (hs.cast h) hr
    split
    · exact List.subset_append_right _ _
    · exact List.subset_append_right _ _

theorem mem_marks {pos : Nat} {op : Operator} {compound : Bool} (h : Divides t l r op compound)
    (hl : l.tracked = true) (hr : r.tracked = true) :
    ⟨pos, op, compound, if compound then r.isIntegral else l.isIntegral && r.isIntegral⟩ ∈
      (node pos t l r).marks := by
  obtain ⟨hb, hdiv⟩ := h
  obtain ⟨hla, hra, htext⟩ := binaryOf?_eq_some hb
  have hne : t.text ≠ "=" := fun ht => by
    rw [ht] at htext
    cases htext
  have hl : l.outlines.value.tracked = true := hl
  have hr : r.outlines.value.tracked = true := hr
  rw [marks_node, outlineOf, if_neg (by simp [hla]), if_neg (by simp [hne]), hb]
  cases compound <;> simp [Outline.operation, hdiv, hl, hr]

theorem Inside.key?_eq_none {e : Expr} (h : Inside (node pos t l r) e) (he : e.Each fun _ => Shaped)
    (hl : l.isAbsent = false) : e.key? = none := by
  cases e with
  | absent => rfl
  | node q v a b =>
    cases hk : v.variableKey with
    | none => exact hk
    | some k =>
    obtain ⟨ha, hb⟩ := he.1.leaf (by rw [hk]; rfl)
    cases h with
    | self => cases ha.symm.trans hl
    | left h call =>
      cases h with
      | self => cases ha
      | left | right => cases ha
    | right h dot colons =>
      cases h with
      | self => cases hb
      | left | right => cases hb

theorem Inside.mem_marks {e : Expr} {op : Operator} {compound : Bool}
    (h : Inside (node pos t l r) e) (he : e.Each fun _ => Shaped) (hd : Divides t l r op compound)
    (hl : l.tracked = true) (hr : r.tracked = true) :
    ⟨pos, op, compound, if compound then r.isIntegral else l.isIntegral && r.isIntegral⟩ ∈ e.marks := by
  induction h with
  | self => exact Expr.mem_marks hd hl hr
  | left h call ih =>
    exact marks_left call (fun _ => h.key?_eq_none he.2.1 (binaryOf?_eq_some hd.1).1) (ih he.2.1)
  | right h dot colons ih => exact marks_right he.1 dot colons (ih he.2.2)

theorem mem_operation {mark m : Mark} {a b : Outline} (hm : m ∈ (Outline.operation t mark a b).marks) :
    m ∈ a.marks ∨ m ∈ b.marks ∨
      m = mark ∧ mark.operator.isDivision = true ∧ a.tracked = true ∧ b.tracked = true := by
  rcases List.mem_append.mp hm with hm | hm
  · exact (List.mem_append.mp hm).imp_right .inl
  · split at hm
    · rename_i hdiv
      simp only [Bool.and_eq_true] at hdiv
      exact .inr (.inr ⟨List.mem_singleton.mp hm, hdiv.1.1, hdiv.1.2, hdiv.2⟩)
    · cases hm

/-- A mark of a node comes from an operand that is evaluated, or it is the node's own and both operands have
a sign. -/
inductive MarkFrom (m : Mark) (pos : Nat) (t : Token) (l r : Expr) : Prop
  | left (hm : m ∈ l.marks) (call : t.text = "(" → isCastOf t l r = true ∨ r.isAbsent = true)
  | right (hm : m ∈ r.marks) (dot : t.text ≠ ".") (colons : t.text ≠ "::")
  | own (hpos : m.pos = pos) (hd : Divides t l r m.operator m.compound) (hl : l.tracked = true)
    (hr : r.tracked = true)

namespace MarkFrom
variable {m : Mark}

theorem operand (ht : t.text ∉ ["(", ".", "::"]) (hm : m ∈ l.marks ∨ m ∈ r.marks) : MarkFrom m pos t l r := by
  simp only [List.mem_cons, List.not_mem_nil, or_false, not_or] at ht
  exact hm.elim (fun hl => .left hl fun hcall => absurd hcall ht.1) fun hr => .right hr ht.2.1 ht.2.2

theorem of_binary {kind : Binary} (hb : binaryOf? t l r = some kind)
    (hm : m ∈ (node pos t l r).marks) : MarkFrom m pos t l r := by
  obtain ⟨hl, -, htext⟩ := binaryOf?_eq_some hb
  have hne : t.text ∉ ["(", ".", "::"] := by
    intro ht
    simp only [List.mem_cons, List.not_mem_nil, or_false] at ht
    rcases ht with ht | ht | ht <;>
      · rw [ht] at htext
        cases htext
  rw [marks_node, outlineOf, if_neg (by simp [hl])] at hm
  split at hm
  · rename_i h
    rw [beq_iff_eq.mp (Bool.and_eq_true_iff.mp h).1] at htext
    cases htext
  rw [hb] at hm
  cases kind with
  | arithmetic op =>
    rcases mem_operation hm with hm | hm | ⟨rfl, hdiv, hl, hr⟩
    · exact .operand hne (.inl hm)
    · exact .operand hne (.inr hm)
    · exact .own rfl ⟨hb, hdiv⟩ hl hr
  | compound op =>
    rcases mem_operation hm with hm | hm | ⟨rfl, hdiv, hr, hl⟩
    · exact .operand hne (.inr hm)
    · exact .operand hne (.inl hm)
    · exact .own rfl ⟨hb, hdiv⟩ hl hr
  | comparison c => exact .operand hne (List.mem_append.mp hm)

theorem of_mem (hm : m ∈ (node pos t l r).marks) : MarkFrom m pos t l r := by
  cases hb : binaryOf? t l r with
  | some kind => exact .of_binary hb hm
  | none =>
    rw [marks_node, outlineOf, hb] at hm
    split at hm
    · cases hm
    split at hm
    · rename_i h
      have ht : t.text = "=" := beq_iff_eq.mp (Bool.and_eq_true_iff.mp h).1
      refine .operand (by simp [ht]) ?_
      rcases List.mem_append.mp hm with hm | hm
      · exact .inr hm
      · split at hm
        · exact .inl hm
        · cases hm
    dsimp only at hm
    split at hm
    · rename_i hstep
      have htext : t.text = "++" ∨ t.text = "--" := by simpa using hstep
      refine .operand (by rcases htext with ht | ht <;> simp [ht]) ?_
      split at hm
      · exact .inr hm
      · exact .inl hm
    split at hm
    · rename_i hlogical
      have htext : t.text = "&&" ∨ t.text = "||" := by simpa using hlogical
      exact .operand (by rcases htext with ht | ht <;> simp [ht]) (List.mem_append.mp hm)
    split at hm
    · rename_i ht
      refine .operand (by simp [beq_iff_eq.mp ht]) ?_
      unfold Outline.conditional at hm
      split at hm
      · rename_i hcolon
        rw [List.append_assoc, ← marks_colon (beq_iff_eq.mp hcolon)] at hm
        exact List.mem_append.mp hm
      · exact List.mem_append.mp hm
    split at hm
    · rename_i hmember
      have htext : t.text = "." ∨ t.text = "::" := by simpa using hmember
      exact .left hm fun ht => by rcases htext with h | h <;> simp [ht] at h
    rename_i hmember
    have hmember : t.text ≠ "." ∧ t.text ≠ "::" := by simpa using hmember
    split at hm
    · rename_i hcast
      exact .left hm fun _ => .inl hcast
    split at hm
    · rename_i hr
      exact .left hm fun _ => .inr hr
    split at hm
    · rename_i ht
      exact .operand (by simp [beq_iff_eq.mp ht]) (List.mem_append.mp hm)
    rcases List.mem_append.mp hm with hm | hm
    · split at hm
      · rename_i ht
        exact .left hm fun h => absurd h (by simpa using ht)
      · cases hm
    · exact .right hm hmember.1 hmember.2

end MarkFrom

theorem exists_inside_of_mem_marks {e : Expr} {m : Mark} (hm : m ∈ e.marks) :
    ∃ t l r, Inside (node m.pos t l r) e ∧ Divides t l r m.operator m.compound ∧
      l.tracked = true ∧ r.tracked = true := by
  induction e with
  | absent => cases hm
  | node pos t l r ihl ihr =>
    cases MarkFrom.of_mem hm with
    | left hl call =>
      obtain ⟨t', l', r', hin, hd⟩ := ihl hl
      exact ⟨t', l', r', .left hin call, hd⟩
    | right hr dot colons =>
      obtain ⟨t', l', r', hin, hd⟩ := ihr hr
      exact ⟨t', l', r', .right hin dot colons, hd⟩
    | own hpos hd hl hr => exact ⟨t, l, r, hpos ▸ .self, hd, hl, hr⟩

/-- Evaluating an expression on any store notes every division of integers inside it whose operands have a
sign, and where no value is known for certain it notes no other division. Only a text that cannot be read
keeps it from an answer. What `tracked` says of an operand is exact in the same way (`isSome_eval`). -/
theorem divisions_noted (e : Expr) (he : e.Each fun _ => Shaped) (s : Store) :
    (∃ f, e.Faulty f ∧ (e.eval s).value = .error f) ∨
    ∃ fact, (e.eval s).value = .ok fact ∧
      (∀ (p : Nat) (t : Token) (l r : Expr) (op : Operator) (compound : Bool),
        Inside (node p t l r) e → Divides t l r op compound → l.isIntegral = true → r.isIntegral = true →
        l.tracked = true → r.tracked = true → ∃ site ∈ (e.eval s).sites,
          site.pos = p ∧ site.operator = op ∧ site.compound = compound ∧ site.integral = true) ∧
      ((e.Each fun _ t _ _ => t.Unknown) → ∀ site ∈ (e.eval s).sites, ∃ t l r,
        Inside (node site.pos t l r) e ∧ Divides t l r site.operator site.compound ∧
          l.tracked = true ∧ r.tracked = true) := by
  cases hv : (e.eval s).value with
  | error f => exact .inl ⟨f, (e.meaning_failsOnly fun f hf => hf).value s hv, rfl⟩
  | ok fact =>
    refine .inr ⟨fact, rfl, fun p t l r op compound hin hd hil hir hl hr => ?_, fun hu site hsite => ?_⟩
    · obtain ⟨site, hsite, hmark⟩ := List.mem_map.mp (marks_subset hv (hin.mem_marks he hd hl hr))
      rw [hil, hir, Bool.and_self, ite_self] at hmark
      exact ⟨site, hsite, congrArg Mark.pos hmark, congrArg Mark.operator hmark,
        congrArg Mark.compound hmark, congrArg Mark.integral hmark⟩
    · exact exists_inside_of_mem_marks (subset_marks hu hv (List.mem_map_of_mem hsite))

def intType : Option ValueType := some { base := .int }

def guardedDivision : Expr :=
  -- the division in `f(c && (x /= -y))`
  .node 5 { text := "/=", type := intType }
    (.node 4 { text := "x", variableKey := some (.id 2), type := intType } .absent .absent)
    (.node 6 { text := "-", type := intType }
      (.node 7 { text := "y", variableKey := some (.id 3), type := intType } .absent .absent) .absent)

def guardedCall : Expr :=
  -- the tree of `f(c && (x /= -y))`
  .node 1 { text := "(", previous := some 0, type := intType } (.node 0 { text := "f" } .absent .absent)
    (.node 3 { text := "&&", type := some { base := .bool } }
      (.node 2 { text := "c", variableKey := some (.id 1), type := intType } .absent .absent)
      guardedDivision)

/-- The division is noted, though nothing gets there with `c` zero. -/
theorem divisions_noted_guarded :
    guardedCall.Each (fun _ => Shaped) ∧ Inside guardedDivision guardedCall ∧
    ∃ site ∈ (guardedCall.eval (Store.empty.bind (.id 1) .zero)).sites,
      site.pos = 5 ∧ site.operator = .divide ∧ site.compound = true ∧ site.integral = true := by
  have hshaped : guardedCall.Each (fun _ => Shaped) := by decide
  have hin : Inside guardedDivision guardedCall :=
    .right (.right .self (by decide) (by decide)) (by decide) (by decide)
  refine ⟨hshaped, hin, ?_⟩
  have hok : (guardedCall.eval (Store.empty.bind (.id 1) .zero)).value.isOk = true := by decide
  rcases divisions_noted guardedCall hshaped (Store.empty.bind (.id 1) .zero) with
    ⟨f, -, hf⟩ | ⟨fact, -, hnoted, -⟩
  · rw [hf] at hok
    cases hok
  · exact hnoted 5 _ _ _ .divide true hin ⟨rfl, rfl⟩ rfl rfl rfl rfl

def memberDivision : Expr :=
  -- the tree of `10 / s.f()`. The dot and not the token before the bracket is called, which makes the
  -- bracket a cast
  .node 1 { text := "/", type := intType }
    (.node 0 { text := "10", isNumber := true, type := intType } .absent .absent)
    (.node 5 { text := "(", previous := some 4, type := intType }
      (.node 3 { text := "." } (.node 2 { text := "s", variableKey := some (.id 1) } .absent .absent)
        (.node 4 { text := "f" } .absent .absent)) .absent)

/-- A division of integers that goes unnoted: the call has no sign. -/
theorem member_call_unnoted :
    memberDivision.Each (fun _ => Shaped) ∧
    (∃ t l r, memberDivision = node 1 t l r ∧ Divides t l r .divide false ∧ l.isIntegral = true ∧
      r.isIntegral = true ∧ r.tracked = false) ∧
    (memberDivision.eval .empty).value = .ok (some .top) ∧ (memberDivision.eval .empty).sites = [] :=
  ⟨by decide, ⟨_, _, _, rfl, ⟨rfl, rfl⟩, rfl, rfl, rfl⟩, rfl, rfl⟩

end Expr

end SignFlow

import SignFlow.Proofs.Execution

/-! How a layout comes about, construct by construct.

The steps of laying out are written as functions of layouts, and `Makes` has one rule for each construct,
which says by which steps its parts are joined. What holds of every layout follows by induction on the
rules. -/

namespace SignFlow.Layout

variable {l : Layout}

def size (l : Layout) : Nat := l.graph.size

def add (l : Layout) (kind : BlockKind) : Layout := { l with graph := l.graph.addBlock ⟨kind, []⟩ }

def wire (l : Layout) (src dst : Nat) (way : EdgeKind) (text : Option String := none) : Layout :=
  { l with graph := l.graph.addEdge ⟨src, dst, way, text⟩ }

def change (l : Layout) (b : Nat) (f : Block → Block) : Layout :=
  { l with graph := { l.graph with blocks := l.graph.blocks.modify b f } }

def fill (l : Layout) (b : Nat) (tokens : List Nat) : Layout :=
  l.change b fun block => { block with tokens := block.tokens ++ tokens }

def turn (l : Layout) (b : Nat) (kind : BlockKind) : Layout :=
  l.change b fun block => { block with kind := kind }

def mark (l : Layout) (name : String) (b : Nat) : Layout := { l with labels := (name, b) :: l.labels }

/-- A jump whose label is looked up in the end. -/
def await (l : Layout) (b : Nat) (target : String) : Layout :=
  { l with gotos := l.gotos ++ [(b, target)] }

/-- Leads a block that may be missing on to another. -/
def lead (l : Layout) (current : Option Nat) (dst : Nat) (way : EdgeKind := .fallThrough) : Layout :=
  current.elim l fun b => l.wire b dst way

/-- A new block behind the current one, holding the tokens given. -/
def behind (l : Layout) (current : Option Nat) (kind : BlockKind) (tokens : List Nat := []) : Layout :=
  ((l.add kind).lead current l.size).fill l.size tokens

/-- Makes sure that there is a current block. -/
def ensure (l : Layout) (current : Option Nat) : Layout := current.elim (l.add .unreachable) fun _ => l

/-- Ends the current block with a token and a jump. -/
def leap (l : Layout) (current : Option Nat) (pos dst : Nat) (way : EdgeKind) : Layout :=
  current.elim l fun b => (l.fill b [pos]).wire b dst way

def leapTo (l : Layout) (current : Option Nat) (pos : Nat) (target : String) : Layout :=
  current.elim l fun b => (l.fill b [pos]).await b target

/-- Ends a block with a return. -/
def quit (l : Layout) (b : Nat) : Layout := (l.turn b .returns).wire b Graph.exit .returns

/-- The ways out of a loop's condition; without one there is only the way into the body. -/
def branch (l : Layout) (test : List Nat) (cond body after : Nat) : Layout :=
  if test.isEmpty then l.wire cond body .fallThrough
  else (l.wire cond body .branchTrue).wire cond after .branchFalse

/-- A switch without a default label may go past its arms. -/
def bypass (l : Layout) (hasDefault : Bool) (dispatch after : Nat) : Layout :=
  if hasDefault then l else l.wire dispatch after .switchDefault

/-- What is laid out: statements, or the inside of a switch. -/
inductive Job
  | stmts (s : Stmts) (targets : Targets)
  | arms (a : Arms) (dispatch : Nat) (targets : Targets)

/-- Doing the job from a current block takes one layout to another, and control ends in the last block. -/
inductive Makes : Job → Option Nat → Layout → Option Nat → Layout → Prop
  | done {targets current l} : Makes (.stmts .done targets) current l current l
  | token {pos rest targets current l last l'}
    (hrest : Makes (.stmts rest targets) (some (current.getD l.size))
      ((l.ensure current).fill (current.getD l.size) [pos]) last l') :
    Makes (.stmts (.token pos rest) targets) current l last l'
  | label {name rest targets current l last l'}
    (hrest : Makes (.stmts rest targets) (some l.size) ((l.behind current .label).mark name l.size)
      last l') :
    Makes (.stmts (.label name rest) targets) current l last l'
  | returnsHere {b tokens rest targets l last l'}
    (hrest : Makes (.stmts rest targets) none ((l.fill b tokens).quit b) last l') :
    Makes (.stmts (.returns tokens rest) targets) (some b) l last l'
  | returnsBehind {kind tokens rest targets current l last l'}
    (hrest : Makes (.stmts rest targets) none ((l.behind current kind tokens).quit l.size) last l') :
    Makes (.stmts (.returns tokens rest) targets) current l last l'
  | leave {pos rest targets current l last l'}
    (hrest : Makes (.stmts rest targets) none
      (l.leap current pos (targets.leave.getD Graph.exit) .leaveLoop) last l') :
    Makes (.stmts (.leave pos rest) targets) current l last l'
  | next {pos rest targets current l last l'}
    (hrest : Makes (.stmts rest targets) none
      (l.leap current pos (targets.next.getD Graph.exit) .continueLoop) last l') :
    Makes (.stmts (.next pos rest) targets) current l last l'
  | goto {pos target rest targets current l last l'}
    (hrest : Makes (.stmts rest targets) none (l.leapTo current pos target) last l') :
    Makes (.stmts (.goto pos target rest) targets) current l last l'
  | block {inner rest targets current l middle l₁ last l'}
    (hinner : Makes (.stmts inner targets) current l middle l₁)
    (hrest : Makes (.stmts rest targets) middle l₁ last l') :
    Makes (.stmts (.block inner rest) targets) current l last l'
  | ifOnly {test targets current l} :
    Makes (.stmts (.ifOnly test) targets) current l none (l.behind current .ifCond test)
  | ifThen {test yes rest targets current l middle l₁ last l'}
    (hyes : Makes (.stmts yes targets) (some (l.size + 1))
      (((l.behind current .ifCond test).add .ifTrue).wire l.size (l.size + 1) .branchTrue) middle l₁)
    (hrest : Makes (.stmts rest targets) (some l₁.size)
      (((l₁.add .ifMerge).wire l.size l₁.size .branchFalse).lead middle l₁.size) last l') :
    Makes (.stmts (.ifThen test yes rest) targets) current l last l'
  | ifElse {test yes no rest targets current l middle l₁ other l₂ last l'}
    (hyes : Makes (.stmts yes targets) (some (l.size + 1))
      (((l.behind current .ifCond test).add .ifTrue).wire l.size (l.size + 1) .branchTrue) middle l₁)
    (hno : Makes (.stmts no targets) (some l₁.size)
      ((l₁.add .ifFalse).wire l.size l₁.size .branchFalse) other l₂)
    (hrest : Makes (.stmts rest targets)
      (if middle.isNone && other.isNone then none else some l₂.size)
      (((l₂.add .ifMerge).lead middle l₂.size).lead other l₂.size) last l') :
    Makes (.stmts (.ifElse test yes no rest) targets) current l last l'
  | whileDo {test inner rest targets current l middle l₁ last l'}
    (hinner : Makes (.stmts inner ⟨some (l.size + 1), some l.size⟩) (some (l.size + 2))
      (((((l.behind current .loopCond test).add .whileAfter).add .loopBody).wire l.size (l.size + 2)
        .branchTrue).wire l.size (l.size + 1) .branchFalse) middle l₁)
    (hrest : Makes (.stmts rest targets) (some (l.size + 1)) (l₁.lead middle l.size .backEdge) last l') :
    Makes (.stmts (.whileDo test inner rest) targets) current l last l'
  | doWhile {inner test rest targets current l middle l₁ last l'}
    (hinner : Makes (.stmts inner ⟨some (l.size + 2), some (l.size + 1)⟩) (some l.size)
      (((l.behind current .loopBody).add .loopCond).add .doAfter) middle l₁)
    (hrest : Makes (.stmts rest targets) (some (l.size + 2))
      ((((l₁.lead middle (l.size + 1)).fill (l.size + 1) test).wire (l.size + 1) l.size
        .branchTrue).wire (l.size + 1) (l.size + 2) .branchFalse) last l') :
    Makes (.stmts (.doWhile inner test rest) targets) current l last l'
  | forDo {init test step inner rest targets current l middle l₁ last l'}
    (hinner : Makes (.stmts inner ⟨some (l.size + 3), some (l.size + 2)⟩) (some (l.size + 4))
      ((((((l.behind current .forInit init).behind (some l.size) .loopCond test).behind none .forStep
        step).add .forAfter).add .loopBody).branch test (l.size + 1) (l.size + 4) (l.size + 3))
      middle l₁)
    (hrest : Makes (.stmts rest targets) (some (l.size + 3))
      ((l₁.lead middle (l.size + 2)).wire (l.size + 2) (l.size + 1) .backEdge) last l') :
    Makes (.stmts (.forDo init test step inner rest) targets) current l last l'
  | switch {test inside rest targets current l middle l₁ last l'}
    (hinside : Makes (.arms inside l.size ⟨some (l.size + 1), targets.next⟩) none
      ((l.behind current .dispatch test).add .switchAfter) middle l₁)
    (hrest : Makes (.stmts rest targets) (some (l.size + 1))
      ((l₁.lead middle (l.size + 1)).bypass inside.hasDefault l.size (l.size + 1)) last l') :
    Makes (.stmts (.switch test inside rest) targets) current l last l'
  | bareSwitch {test rest targets current l last l'}
    (hrest : Makes (.stmts rest targets) (some (l.size + 1))
      (((l.behind current .dispatch test).add .switchAfter).wire l.size (l.size + 1) .switchDefault)
      last l') :
    Makes (.stmts (.bareSwitch test rest) targets) current l last l'
  | armsDone {dispatch targets current l} : Makes (.arms .done dispatch targets) current l current l
  | armsCase {label ahead dispatch targets current l last l'}
    (hahead : Makes (.arms ahead dispatch targets) (some l.size)
      (((l.add .caseLabel).wire dispatch l.size .switchCase (some label)).lead current l.size)
      last l') :
    Makes (.arms (.caseOf label ahead) dispatch targets) current l last l'
  | armsDefault {ahead dispatch targets current l last l'}
    (hahead : Makes (.arms ahead dispatch targets) (some l.size)
      (((l.add .defaultLabel).wire dispatch l.size .switchDefault).lead current l.size) last l') :
    Makes (.arms (.default ahead) dispatch targets) current l last l'
  | armsStmts {inner ahead dispatch targets current l middle l₁ last l'}
    (hinner : Makes (.stmts inner targets) (some (current.getD l.size)) (l.ensure current) middle l₁)
    (hahead : Makes (.arms ahead dispatch targets) middle l₁ last l') :
    Makes (.arms (.stmts inner ahead) dispatch targets) current l last l'

section size

variable {l : Layout} {current : Option Nat} {kind : BlockKind} {way : EdgeKind} {tokens test : List Nat}
  {name : String} {b d cond body after : Nat}

@[simp] theorem size_add : (l.add kind).size = l.size + 1 := by simp [size, add, Graph.size, Graph.addBlock]
@[simp] theorem size_wire {text : Option String} : (l.wire b d way text).size = l.size := rfl
@[simp] theorem size_change {f : Block → Block} : (l.change b f).size = l.size := by
  simp [size, change, Graph.size]
@[simp] theorem size_fill : (l.fill b tokens).size = l.size := size_change
@[simp] theorem size_turn : (l.turn b kind).size = l.size := size_change
@[simp] theorem size_mark : (l.mark name b).size = l.size := rfl
@[simp] theorem size_await : (l.await b name).size = l.size := rfl
@[simp] theorem size_lead : (l.lead current d way).size = l.size := by cases current <;> rfl
@[simp] theorem size_behind : (l.behind current kind tokens).size = l.size + 1 := by simp [behind]
@[simp] theorem size_quit : (l.quit b).size = l.size := by simp [quit]

@[simp] theorem size_leap {pos : Nat} : (l.leap current pos d way).size = l.size := by
  cases current <;> simp [leap]

@[simp] theorem size_leapTo {pos : Nat} : (l.leapTo current pos name).size = l.size := by
  cases current <;> simp [leapTo]

@[simp] theorem size_branch : (l.branch test cond body after).size = l.size := by
  unfold branch
  split <;> rfl

@[simp] theorem size_bypass {hasDefault : Bool} : (l.bypass hasDefault b after).size = l.size := by
  cases hasDefault <;> rfl

theorem size_le_ensure : l.size ≤ (l.ensure current).size := by
  cases current with
  | none => simp [ensure]
  | some b => exact Nat.le_refl _

end size

section block

variable {l : Layout} {b c : Nat} {kind : BlockKind} {f : Block → Block}

theorem block_of_size_le (h : l.size ≤ b) : l.graph.block b = ⟨.unreachable, []⟩ := by
  rw [Graph.block, List.getD_eq_getElem?_getD, List.getElem?_eq_none h, Option.getD_none]

theorem block_add (h : b < l.size) : (l.add kind).graph.block b = l.graph.block b := by
  simp only [add, Graph.addBlock, Graph.block, List.getD_eq_getElem?_getD]
  rw [List.getElem?_append_left h]

theorem block_add_self : (l.add kind).graph.block l.size = ⟨kind, []⟩ := by
  simp [add, Graph.addBlock, Graph.block, size, Graph.size]

theorem block_change (h : b < l.size) : (l.change b f).graph.block b = f (l.graph.block b) := by
  have hb : b < l.graph.blocks.length := h
  simp [change, Graph.block, hb]

theorem block_change_of_ne (h : b ≠ c) : (l.change b f).graph.block c = l.graph.block c := by
  simp [change, Graph.block, h]

end block

/-- No block is taken away. -/
theorem Makes.size_le {job : Job} {current last : Option Nat} {l l' : Layout}
    (h : Makes job current l last l') : l.size ≤ l'.size := by
  induction h with
  | done | ifOnly | armsDone => simp
  | token _ ih =>
    rw [size_fill] at ih
    exact Nat.le_trans size_le_ensure ih
  | block _ _ ihinner ih => exact Nat.le_trans ihinner ih
  | armsStmts _ _ ihinner ih => exact Nat.le_trans size_le_ensure (Nat.le_trans ihinner ih)
  | ifElse _ _ _ ihyes ihno ih =>
    simp only [size_wire, size_add, size_behind, size_lead] at ihyes ihno ih
    omega
  | ifThen _ _ ih₁ ih | whileDo _ _ ih₁ ih | doWhile _ _ ih₁ ih | forDo _ _ ih₁ ih
  | switch _ _ ih₁ ih =>
    simp only [size_wire, size_add, size_behind, size_lead, size_fill, size_branch, size_bypass] at ih₁ ih
    omega
  | label _ ih | returnsHere _ ih | returnsBehind _ ih | leave _ ih | next _ ih | goto _ ih
  | bareSwitch _ ih | armsCase _ ih | armsDefault _ ih =>
    simp only [size_wire, size_add, size_behind, size_lead, size_fill, size_mark, size_quit, size_leap,
      size_leapTo] at ih
    omega

theorem getD_lt_ensure {current : Option Nat} (h : ∀ b ∈ current, b < l.size) :
    current.getD l.size < (l.ensure current).size := by
  cases current with
  | none => simp [ensure]
  | some b => exact h b rfl

/-- The block that control ends in is there. -/
theorem Makes.last_lt {job : Job} {current last : Option Nat} {l l' : Layout}
    (h : Makes job current l last l') (hcurrent : ∀ b ∈ current, b < l.size) : ∀ b ∈ last, b < l'.size := by
  have hsome : ∀ {a n : Nat}, a < n → ∀ b ∈ some a, b < n := fun ha b hb => Option.mem_some.mp hb ▸ ha
  induction h with
  | done | armsDone => exact hcurrent
  | ifOnly => exact nofun
  | token _ ih =>
    exact ih (hsome (by rw [size_fill]; exact getD_lt_ensure hcurrent))
  | block _ _ ihinner ih => exact ih (ihinner hcurrent)
  | armsStmts _ _ ihinner ih => exact ih (ihinner (hsome (getD_lt_ensure hcurrent)))
  | @ifElse test yes no rest targets current l middle l₁ other l₂ last l' _ _ _ _ _ ih =>
    refine ih fun b hb => ?_
    split at hb
    · cases hb
    · exact hsome (by simp) b hb
  | ifThen _ _ _ ih => exact ih (hsome (by simp))
  | whileDo hinner _ _ ih | doWhile hinner _ _ ih | forDo hinner _ _ ih | switch hinner _ _ ih =>
    have hle := hinner.size_le
    simp only [size_wire, size_add, size_behind, size_branch] at hle
    refine ih (hsome ?_)
    simp only [size_lead, size_wire, size_fill, size_bypass]
    omega
  | returnsHere _ ih | returnsBehind _ ih | leave _ ih | next _ ih | goto _ ih => exact ih nofun
  | label _ ih | bareSwitch _ ih | armsCase _ ih | armsDefault _ ih => exact ih (hsome (by simp))

/-- The result and the layout a computation leads to. -/
def After {α : Type} (x : StateM Layout α) (l : Layout) (Q : α → Layout → Prop) : Prop :=
  Q (x.run l).1 (x.run l).2

namespace After

variable {α β : Type} {l : Layout} {current : Option Nat} {b d n : Nat} {kind : BlockKind}
  {way : EdgeKind} {text : Option String} {tokens : List Nat} {Q : β → Layout → Prop}
  {R : α → Layout → Prop}

theorem bind {x : StateM Layout α} {f : α → StateM Layout β} (h : After x l R)
    (hf : ∀ a l', R a l' → After (f a) l' Q) : After (x >>= f) l Q := hf _ _ h

theorem imp {x : StateM Layout β} {R : β → Layout → Prop} (h : After x l R)
    (hq : ∀ a l', R a l' → Q a l') : After x l Q := hq _ _ h

theorem fresh {f : Nat → StateM Layout β} (hn : l.size = n) (h : After (f n) (l.add kind) Q) :
    After (fresh kind >>= f) l Q := by
  subst hn
  exact h

theorem connect {f : Unit → StateM Layout β} (h : After (f ()) (l.wire b d way text) Q) :
    After (connect b d way text >>= f) l Q := h

theorem append {f : Unit → StateM Layout β} (h : After (f ()) (l.fill b tokens) Q) :
    After (append b tokens >>= f) l Q := h

theorem connectFrom {f : Unit → StateM Layout β} (h : After (f ()) (l.lead current d way) Q) :
    After (connectFrom current d way >>= f) l Q := by
  cases current <;> exact h

theorem blockAfter {f : Nat → StateM Layout β} (hn : l.size = n)
    (h : After (f n) (l.behind current kind tokens) Q) :
    After (blockAfter current kind tokens >>= f) l Q := by
  subst hn
  cases current <;> exact h

theorem here {f : Nat → StateM Layout β}
    (h : After (f (current.getD l.size)) (l.ensure current) Q) : After (here current >>= f) l Q := by
  cases current <;> exact h

theorem jump {f : Unit → StateM Layout β} {pos : Nat} {target : Option Nat}
    (h : After (f ()) (l.leap current pos (target.getD Graph.exit) way) Q) :
    After (jump current pos target way >>= f) l Q := by
  cases current <;> exact h

/-- A return goes into the current block or one behind it. -/
theorem returnBlock {f : Nat → StateM Layout β} (hhere : ∀ b, current = some b → After (f b) l Q)
    (hbehind : ∀ kind, After (f l.size) ((l.add kind).lead current l.size) Q) :
    After (returnBlock current >>= f) l Q := by
  cases current with
  | none => exact hbehind .unreachable
  | some b =>
    rw [Layout.returnBlock, bind_assoc]
    show After ((if (l.graph.block b).kind.isJoin = true then _ else _) >>= f) l Q
    split
    · exact hbehind .returns
    · exact hhere b rfl

theorem branch {f : Unit → StateM Layout β} {test : List Nat} {cond body after : Nat}
    (h : After (f ()) (l.branch test cond body after) Q) :
    After (if test.isEmpty = true then Layout.connect cond body >>= f
      else Layout.connect cond body .branchTrue >>= fun _ =>
        Layout.connect cond after .branchFalse >>= f) l Q := by
  unfold Layout.branch at h
  split
  · next ht => rwa [if_pos ht] at h
  · next ht => rwa [if_neg ht] at h

theorem bypass {f : Unit → StateM Layout β} {hasDefault : Bool} {dispatch after : Nat}
    (h : After (f ()) (l.bypass hasDefault dispatch after) Q) :
    After (if hasDefault = true then f ()
      else Layout.connect dispatch after .switchDefault >>= f) l Q := by
  cases hasDefault <;> exact h

end After

mutual

/-- Laying out statements follows the rules. -/
theorem stmts_makes (s : Stmts) (current : Option Nat) (targets : Targets) (l : Layout) :
    After (stmts s current targets) l (Makes (.stmts s targets) current l) := by
  cases s with
  | done => exact .done
  | token pos rest =>
    rw [stmts]
    exact .here (.append ((stmts_makes rest _ targets _).imp fun _ _ => .token))
  | label name rest =>
    rw [stmts]
    exact .blockAfter rfl ((stmts_makes rest _ targets _).imp fun _ _ => .label)
  | returns tokens rest =>
    rw [stmts]
    refine .returnBlock ?_ fun kind => ?_
    · rintro b rfl
      exact .append ((stmts_makes rest none targets _).imp fun _ _ => .returnsHere)
    · exact .append ((stmts_makes rest none targets _).imp fun _ _ => .returnsBehind)
  | leave pos rest =>
    rw [stmts]
    exact .jump ((stmts_makes rest none targets _).imp fun _ _ => .leave)
  | next pos rest =>
    rw [stmts]
    exact .jump ((stmts_makes rest none targets _).imp fun _ _ => .next)
  | goto pos target rest =>
    cases current with
    | none => exact (stmts_makes rest none targets l).imp fun _ _ h => .goto h
    | some b => exact (stmts_makes rest none targets _).imp fun _ _ h => .goto h
  | block inner rest =>
    rw [stmts]
    refine (stmts_makes inner current targets l).bind fun middle l₁ hinner => ?_
    exact (stmts_makes rest middle targets l₁).imp fun _ _ => .block hinner
  | ifOnly test =>
    rw [stmts]
    exact .blockAfter rfl .ifOnly
  | ifThen test yes rest =>
    rw [stmts]
    refine .blockAfter rfl (.fresh (n := l.size + 1) size_behind (.connect ?_))
    refine (stmts_makes yes _ targets _).bind fun middle l₁ hyes => ?_
    refine .fresh rfl (.connect (.connectFrom ?_))
    exact (stmts_makes rest _ targets _).imp fun _ _ => .ifThen hyes
  | ifElse test yes no rest =>
    rw [stmts]
    refine .blockAfter rfl (.fresh (n := l.size + 1) size_behind (.connect ?_))
    refine (stmts_makes yes _ targets _).bind fun middle l₁ hyes => .fresh rfl (.connect ?_)
    refine (stmts_makes no _ targets _).bind fun other l₂ hno => ?_
    refine .fresh rfl (.connectFrom (.connectFrom ?_))
    exact (stmts_makes rest _ targets _).imp fun _ _ => .ifElse hyes hno
  | whileDo test inner rest =>
    rw [stmts]
    refine .blockAfter rfl (.fresh (n := l.size + 1) size_behind (.fresh (n := l.size + 2) (by simp)
      (.connect (.connect ?_))))
    refine (stmts_makes inner _ _ _).bind fun middle l₁ hinner => .connectFrom ?_
    exact (stmts_makes rest _ targets _).imp fun _ _ => .whileDo hinner
  | doWhile inner test rest =>
    rw [stmts]
    refine .blockAfter rfl (.fresh (n := l.size + 1) size_behind (.fresh (n := l.size + 2) (by simp) ?_))
    refine (stmts_makes inner _ _ _).bind fun middle l₁ hinner => ?_
    refine .connectFrom (.append (.connect (.connect ?_)))
    exact (stmts_makes rest _ targets _).imp fun _ _ => .doWhile hinner
  | forDo init test step inner rest =>
    rw [stmts]
    refine .blockAfter rfl (.blockAfter (n := l.size + 1) size_behind (.blockAfter (n := l.size + 2)
      (by simp) (.fresh (n := l.size + 3) (by simp) (.fresh (n := l.size + 4) (by simp) (.branch ?_)))))
    refine (stmts_makes inner _ _ _).bind fun middle l₁ hinner => .connectFrom (.connect ?_)
    exact (stmts_makes rest _ targets _).imp fun _ _ => .forDo hinner
  | switch test inside rest =>
    rw [stmts]
    refine .blockAfter rfl (.fresh (n := l.size + 1) size_behind ?_)
    refine (arms_makes inside l.size none false _ _).bind fun r l₁ ⟨hinside, hdefault⟩ => ?_
    refine .connectFrom (.bypass ?_)
    rw [hdefault, Bool.false_or]
    exact (stmts_makes rest _ targets _).imp fun _ _ => .switch hinside
  | bareSwitch test rest =>
    rw [stmts]
    refine .blockAfter rfl (.fresh (n := l.size + 1) size_behind (.connect ?_))
    exact (stmts_makes rest _ targets _).imp fun _ _ => .bareSwitch

theorem arms_makes (a : Arms) (dispatch : Nat) (current : Option Nat) (hasDefault : Bool)
    (targets : Targets) (l : Layout) :
    After (arms a dispatch current hasDefault targets) l fun r l' =>
      Makes (.arms a dispatch targets) current l r.1 l' ∧ r.2 = (hasDefault || a.hasDefault) := by
  cases a with
  | done => exact ⟨.armsDone, (Bool.or_false _).symm⟩
  | caseOf label ahead =>
    rw [arms]
    refine .fresh rfl (.connect (.connectFrom ?_))
    exact (arms_makes ahead dispatch _ hasDefault targets _).imp fun _ _ h => ⟨.armsCase h.1, h.2⟩
  | default ahead =>
    rw [arms]
    refine .fresh rfl (.connect (.connectFrom ?_))
    exact (arms_makes ahead dispatch _ true targets _).imp fun _ _ h =>
      ⟨.armsDefault h.1, h.2.trans (Bool.or_true _).symm⟩
  | stmts inner ahead =>
    rw [arms]
    refine .here ((stmts_makes inner _ targets _).bind fun middle l₁ hinner => ?_)
    exact (arms_makes ahead dispatch middle hasDefault targets l₁).imp fun _ _ h =>
      ⟨.armsStmts hinner h.1, h.2⟩

end

end SignFlow.Layout

namespace SignFlow

theorem Graph.foldl_addEdge {α : Type} (f : α → Edge) (xs : List α) (g : Graph) :
    xs.foldl (fun g x => g.addEdge (f x)) g = { g with edges := g.edges ++ xs.map f } := by
  induction xs generalizing g with
  | nil => simp
  | cons x xs ih => rw [List.foldl_cons, ih]; simp [Graph.addEdge]

namespace Layout

/-- The block a label has in the end. -/
def target (l : Layout) (name : String) : Nat := (l.labels.lookup name).getD Graph.exit

/-- The waiting jumps become the last edges. -/
theorem resolve_eq (l : Layout) :
    l.resolve = { l.graph with
      edges := l.graph.edges ++ l.gotos.map fun j => ⟨j.1, l.target j.2, .goto, none⟩ } :=
  Graph.foldl_addEdge _ _ _

theorem resolve_block (l : Layout) (b : Nat) : l.resolve.block b = l.graph.block b := by
  rw [resolve_eq]
  rfl

theorem resolve_size (l : Layout) : l.resolve.size = l.size := by
  rw [resolve_eq]
  rfl

/-- The entry leads to the first block of a body. -/
def opening (function : Option String) (firstId : Nat) : Layout :=
  (add { graph := { function := function, firstId := firstId } } .body).wire Graph.entry 2 .fallThrough

end Layout

namespace Stmts

/-- The layout of a whole body, before its jumps are connected. -/
def layout (body : Stmts) (function : Option String) (firstId : Nat) : Layout :=
  ((Layout.body body).run { graph := { function := function, firstId := firstId } }).2

/-- A body is laid out from the first block behind the entry, and then leads to the exit. -/
theorem layout_makes (body : Stmts) (function : Option String) (firstId : Nat) :
    ∃ last l', Layout.Makes (.stmts body {}) (some 2) (.opening function firstId) last l' ∧
      body.layout function firstId = l'.lead last Graph.exit := by
  have h : Layout.After (Layout.body body) { graph := { function := function, firstId := firstId } }
      fun _ l => ∃ last l', Layout.Makes (.stmts body {}) (some 2) (.opening function firstId) last l' ∧
        l = l'.lead last Graph.exit := by
    rw [Layout.body]
    refine .fresh rfl (.connect ((Layout.stmts_makes body _ {} _).bind fun last l' hmakes => ?_))
    rw [← bind_pure (Layout.connectFrom last Graph.exit)]
    exact .connectFrom ⟨last, l', hmakes, rfl⟩
  exact h

end Stmts

end SignFlow

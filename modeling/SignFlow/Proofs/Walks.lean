import SignFlow.Proofs.Shape

/-! The walks through a graph are the executions of the statements laid out in it. -/

namespace SignFlow

/-- Bounds the steps that an execution takes while a walk stays where it is. -/
noncomputable def Kont.weight : Kont → Nat
  | finish => 0
  | after rest k | loop _ _ rest k | forTest _ _ _ rest k | forStep _ _ _ rest k =>
    sizeOf rest + k.weight
  | arms ahead rest k => sizeOf ahead + sizeOf rest + k.weight

theorem Stmts.sizeOf_pos (s : Stmts) : 0 < sizeOf s := by
  cases s <;> simp +arith

namespace Shape

variable {M : Shape} {labels : List String} {body : Stmts} {targets : Targets} {n d : Nat}
  {k : Kont} {x : Place} {p q : Option Place} {t : List Event}

section Follows

variable {test step : List Nat} {inner rest : Stmts} {outer : Targets}
  {cond first advance past : Nat} {r : Option Place}

theorem Follows.after (hp : M.Flows p q) (hrest : M.Laid labels rest targets q r)
    (hk : M.Follows labels k targets r) : M.Follows labels (.after rest k) targets p :=
  ⟨q, r, hp, hrest, hk⟩

theorem Follows.loop (hp : M.Enters p cond)
    (hloop : M.Loop test cond first past (M.Laid labels inner))
    (hrest : M.Laid labels rest outer (some (past, 0)) r) (hk : M.Follows labels k outer r) :
    M.Follows labels (.loop test inner rest k) ⟨some past, some cond⟩ p :=
  ⟨cond, first, past, outer, r, rfl, hp, hloop, hrest, hk⟩

theorem Follows.forTest (hp : M.Enters p cond)
    (hloop : M.Counted test step cond advance first past (M.Laid labels inner))
    (hrest : M.Laid labels rest outer (some (past, 0)) r) (hk : M.Follows labels k outer r) :
    M.Follows labels (.forTest test step inner rest k) ⟨some past, some advance⟩ p :=
  ⟨cond, advance, first, past, outer, r, rfl, hp, hloop, hrest, hk⟩

theorem Follows.forStep (hp : M.Enters p advance)
    (hloop : M.Counted test step cond advance first past (M.Laid labels inner))
    (hrest : M.Laid labels rest outer (some (past, 0)) r) (hk : M.Follows labels k outer r) :
    M.Follows labels (.forStep test step inner rest k) ⟨some past, some advance⟩ p :=
  ⟨cond, advance, first, past, outer, r, rfl, hp, hloop, hrest, hk⟩

theorem Follows.arms {ahead : Arms} {W : Set (List Event × Nat)}
    (hahead : M.LaidArms labels ahead ⟨some past, outer.next⟩ p q W) (hq : M.Enters q past)
    (hrest : M.Laid labels rest outer (some (past, 0)) r) (hk : M.Follows labels k outer r) :
    M.Follows labels (.arms ahead rest k) ⟨some past, outer.next⟩ p :=
  ⟨past, outer, q, W, r, rfl, hahead, hq, hrest, hk⟩

end Follows

/-- What is left to do lies behind every place from which control goes to the block silently. -/
def Awaits (M : Shape) (labels : List String) (k : Kont) (d : Nat) : Prop :=
  ∀ x, M.At x [] {([], d)} → ∃ targets, M.Follows labels k targets (some x)

theorem Awaits.after {rest : Stmts} (hrest : M.Laid labels rest targets (some (d, 0)) q)
    (hk : M.Follows labels k targets q) : M.Awaits labels (.after rest k) d :=
  fun _ hx => ⟨targets, .after hx.enters.flows hrest hk⟩

theorem Follows.leave (h : M.Follows labels k targets p) (hd : targets.leave = some d) :
    ∃ k', k.leave = some k' ∧ M.Awaits labels k' d := by
  induction k generalizing targets p with
  | finish => exact absurd (h.1.symm.trans hd) (by simp)
  | after rest k ih =>
    obtain ⟨q, r, -, -, hk⟩ := h
    exact ih hk hd
  | loop test inner rest k =>
    obtain ⟨cond, first, after, outer, r, rfl, -, -, hrest, hk⟩ := h
    obtain rfl : after = d := Option.some.inj hd
    exact ⟨_, rfl, .after hrest hk⟩
  | forTest test step inner rest k | forStep test step inner rest k =>
    obtain ⟨cond, advance, first, after, outer, r, rfl, -, -, hrest, hk⟩ := h
    obtain rfl : after = d := Option.some.inj hd
    exact ⟨_, rfl, .after hrest hk⟩
  | arms ahead rest k =>
    obtain ⟨after, outer, q, W, r, rfl, -, -, hrest, hk⟩ := h
    obtain rfl : after = d := Option.some.inj hd
    exact ⟨_, rfl, .after hrest hk⟩

theorem Follows.next (h : M.Follows labels k targets p) (hd : targets.next = some d) :
    ∃ k', k.next = some k' ∧ M.Awaits labels k' d := by
  induction k generalizing targets p with
  | finish => exact absurd (h.2.1.symm.trans hd) (by simp)
  | after rest k ih =>
    obtain ⟨q, r, -, -, hk⟩ := h
    exact ih hk hd
  | loop test inner rest k =>
    obtain ⟨cond, first, after, outer, r, rfl, -, hloop, hrest, hk⟩ := h
    obtain rfl : cond = d := Option.some.inj hd
    exact ⟨_, rfl, fun x hx => ⟨_, .loop hx.enters hloop hrest hk⟩⟩
  | forTest test step inner rest k | forStep test step inner rest k =>
    obtain ⟨cond, advance, first, after, outer, r, rfl, -, hloop, hrest, hk⟩ := h
    obtain rfl : advance = d := Option.some.inj hd
    exact ⟨_, rfl, fun x hx => ⟨_, .forStep hx.enters hloop hrest hk⟩⟩
  | arms ahead rest k ih =>
    obtain ⟨after, outer, q, W, r, rfl, -, -, hrest, hk⟩ := h
    exact ih hk hd

mutual

/-- What a label is found to be followed by lies behind the label's block. -/
theorem Laid.find {name : String} {k' : Kont} (s : Stmts) {targets : Targets} {k : Kont}
    {p q : Option Place} (h : M.Laid labels s targets p q) (hk : M.Follows labels k targets q)
    (hf : s.find name k = some k') : M.Awaits labels k' (M.label name) := by
  match s with
  | .done | .ifOnly _ => simp [Stmts.find] at hf
  | .bareSwitch _ _ => exact h.elim
  | .token _ rest =>
    obtain ⟨_, -, -, hrest⟩ := h
    exact Laid.find rest hrest hk hf
  | .returns _ rest | .leave _ rest | .next _ rest | .goto _ _ rest => exact Laid.find rest h.2 hk hf
  | .label other rest =>
    simp only [Stmts.find] at hf
    split at hf
    · next he =>
      subst he
      cases hf
      exact .after h.2 hk
    · exact Laid.find rest h.2 hk hf
  | .block inner rest =>
    obtain ⟨r, hinner, hrest⟩ := h
    rcases Option.or_eq_some_iff.mp hf with hf | ⟨-, hf⟩
    · exact Laid.find inner hinner (.after (.refl r) hrest hk) hf
    · exact Laid.find rest hrest hk hf
  | .ifThen test yes rest =>
    obtain ⟨cond, a, merge, r, -, -, hyes, hr, hrest⟩ := h
    rcases Option.or_eq_some_iff.mp hf with hf | ⟨-, hf⟩
    · exact Laid.find yes hyes (.after hr.flows hrest hk) hf
    · exact Laid.find rest hrest hk hf
  | .ifElse test yes no rest =>
    obtain ⟨cond, a, b, r, s, o, -, -, hyes, hr, hno, hs, hrest⟩ := h
    rcases Option.or_eq_some_iff.mp hf with hf | ⟨-, hf⟩
    · rcases Option.or_eq_some_iff.mp hf with hf | ⟨-, hf⟩
      · exact Laid.find yes hyes (.after hr hrest hk) hf
      · exact Laid.find no hno (.after hs hrest hk) hf
    · exact Laid.find rest hrest hk hf
  | .whileDo test inner rest | .doWhile inner test rest =>
    obtain ⟨cond, first, after, -, hloop, hrest⟩ := h
    rcases Option.or_eq_some_iff.mp hf with hf | ⟨-, hf⟩
    · obtain ⟨-, r, hinner, hr⟩ := id hloop
      exact Laid.find inner hinner (.loop hr hloop hrest hk) hf
    · exact Laid.find rest hrest hk hf
  | .forDo init test step inner rest =>
    obtain ⟨start, cond, advance, first, after, -, -, hloop, hrest⟩ := h
    rcases Option.or_eq_some_iff.mp hf with hf | ⟨-, hf⟩
    · obtain ⟨-, -, r, hinner, hr⟩ := id hloop
      exact Laid.find inner hinner (.forStep hr hloop hrest hk) hf
    · exact Laid.find rest hrest hk hf
  | .switch test inside rest =>
    obtain ⟨dispatch, after, r, W, -, -, harms, hr, hrest⟩ := h
    rcases Option.or_eq_some_iff.mp hf with hf | ⟨-, hf⟩
    · exact LaidArms.find inside harms hr hrest hk hf
    · exact Laid.find rest hrest hk hf

theorem LaidArms.find {name : String} {k' : Kont} (a : Arms) {outer : Targets} {k : Kont}
    {after : Nat} {p q r : Option Place} {W : Set (List Event × Nat)} {rest : Stmts}
    (h : M.LaidArms labels a ⟨some after, outer.next⟩ p q W) (hq : M.Enters q after)
    (hrest : M.Laid labels rest outer (some (after, 0)) r) (hk : M.Follows labels k outer r)
    (hf : a.find name rest k = some k') : M.Awaits labels k' (M.label name) := by
  match a with
  | .done => simp [Arms.find] at hf
  | .caseOf _ ahead | .default ahead =>
    obtain ⟨b, W', -, -, hahead⟩ := h
    exact LaidArms.find ahead hahead hq hrest hk hf
  | .stmts inner ahead =>
    obtain ⟨x, s, -, hinner, hahead⟩ := h
    rcases Option.or_eq_some_iff.mp hf with hf | ⟨-, hf⟩
    · exact Laid.find inner hinner (.arms hahead hq hrest hk) hf
    · exact LaidArms.find ahead hahead hq hrest hk hf

end

mutual

theorem find_isSome {name : String} (s : Stmts) (k : Kont) (h : name ∈ s.labels) :
    (s.find name k).isSome := by
  match s with
  | .done | .ifOnly _ => simp [Stmts.labels] at h
  | .token _ rest | .returns _ rest | .leave _ rest | .next _ rest | .goto _ _ rest
  | .bareSwitch _ rest => exact find_isSome rest k h
  | .label other rest =>
    rw [Stmts.find]
    split
    · rfl
    · next hne =>
      rcases List.mem_cons.mp h with rfl | h
      · exact absurd rfl hne
      · exact find_isSome rest k h
  | .block inner rest | .ifThen _ inner rest =>
    rw [Stmts.find, Option.isSome_or, Bool.or_eq_true]
    exact (List.mem_append.mp h).imp (find_isSome inner _) (find_isSome rest k)
  | .ifElse _ yes no rest =>
    rw [Stmts.find, Option.isSome_or, Option.isSome_or, Bool.or_eq_true, Bool.or_eq_true, or_assoc]
    exact (List.mem_append.mp h).imp (find_isSome yes _) fun h =>
      (List.mem_append.mp h).imp (find_isSome no _) (find_isSome rest k)
  | .whileDo _ inner rest | .doWhile inner _ rest | .forDo _ _ _ inner rest =>
    rw [Stmts.find, Option.isSome_or, Bool.or_eq_true]
    exact (List.mem_append.mp h).imp (find_isSome inner _) (find_isSome rest k)
  | .switch _ inside rest =>
    rw [Stmts.find, Option.isSome_or, Bool.or_eq_true]
    exact (List.mem_append.mp h).imp (findArms_isSome inside rest k) (find_isSome rest k)

theorem findArms_isSome {name : String} (a : Arms) (rest : Stmts) (k : Kont) (h : name ∈ a.labels) :
    (a.find name rest k).isSome := by
  match a with
  | .done => simp [Arms.labels] at h
  | .caseOf _ ahead | .default ahead => exact findArms_isSome ahead rest k h
  | .stmts inner ahead =>
    rw [Arms.find, Option.isSome_or, Bool.or_eq_true]
    exact (List.mem_append.mp h).imp (find_isSome inner _) (findArms_isSome ahead rest k)

end

theorem LaidArms.of_entry {e : Event} {ahead : Arms} (a : Arms) {p : Option Place}
    {W : Set (List Event × Nat)} (h : M.LaidArms labels a targets p q W)
    (he : (e, ahead) ∈ a.entries) :
    ∃ d W', ([e], d) ∈ W ∧ M.LaidArms labels ahead targets (some (d, 0)) q W' := by
  match a with
  | .done => simp [Arms.entries] at he
  | .caseOf _ _ | .default _ =>
    obtain ⟨b, W', rfl, -, hahead⟩ := h
    rcases List.mem_cons.mp he with heq | he
    · cases heq
      exact ⟨b, W', Set.mem_insert _ _, hahead⟩
    · obtain ⟨d, W'', hd, hd'⟩ := LaidArms.of_entry _ hahead he
      exact ⟨d, W'', Set.mem_insert_of_mem _ hd, hd'⟩
  | .stmts inner ahead =>
    obtain ⟨x, r, -, -, hahead⟩ := h
    exact LaidArms.of_entry ahead hahead he

theorem LaidArms.of_way {e : List Event} {d : Nat} (a : Arms) {p : Option Place}
    {W : Set (List Event × Nat)} (h : M.LaidArms labels a targets p q W) (hw : (e, d) ∈ W) :
    ∃ event ahead W', e = [event] ∧ (event, ahead) ∈ a.entries ∧
      M.LaidArms labels ahead targets (some (d, 0)) q W' := by
  match a with
  | .done => exact absurd hw (by simp [h.2])
  | .caseOf _ _ | .default _ =>
    obtain ⟨b, W', rfl, -, hahead⟩ := h
    rcases Set.mem_insert_iff.mp hw with heq | hw
    · cases heq
      exact ⟨_, _, W', rfl, List.mem_cons_self, hahead⟩
    · obtain ⟨event, a', W'', he, ha', hd'⟩ := LaidArms.of_way _ hahead hw
      exact ⟨event, a', W'', he, List.mem_cons_of_mem _ ha', hd'⟩
  | .stmts inner ahead =>
    obtain ⟨x, r, -, -, hahead⟩ := h
    exact LaidArms.of_way ahead hahead hw

theorem LaidArms.nonempty (a : Arms) {p : Option Place} {W : Set (List Event × Nat)}
    (h : M.LaidArms labels a targets p q W) (hd : a.hasDefault = true) : W.Nonempty := by
  match a with
  | .done => simp [Arms.hasDefault] at hd
  | .caseOf _ _ | .default _ =>
    obtain ⟨b, W', rfl, -⟩ := h
    exact Set.insert_nonempty _ _
  | .stmts inner ahead =>
    obtain ⟨x, r, -, -, hahead⟩ := h
    exact LaidArms.nonempty ahead hahead hd

/-- Every execution is shown by some walk. -/
theorem shows_of_runs {s : Stmts}
    (hgoto : ∀ name k, body.find name .finish = some k → M.Awaits labels k (M.label name))
    (h : body.Runs s k t) :
    ∀ {targets x q}, M.Laid labels s targets (some x) q → M.Follows labels k targets q →
      M.Shows x t := by
  have jump : ∀ {k d x pos t}, M.At x [pos] {([], d)} → M.Awaits labels k d →
      (∀ {targets x q}, M.Laid labels .done targets (some x) q → M.Follows labels k targets q →
        M.Shows x t) → M.Shows x (.token pos :: t) := by
    intro k d x pos t hx hk ih
    obtain ⟨targets, hk⟩ := hk _ hx.tail
    exact .token hx.head (ih rfl hk)
  -- for any place where the statements lie: a jump goes on from another one than it comes from
  induction h with
  | finish =>
    rintro targets x q rfl ⟨-, -, hx⟩
    exact hx.shows ⟨0, .exit⟩
  | after h ih =>
    rintro targets x q rfl ⟨q', r, hx, hrest, hk⟩
    exact hx.shows fun y hy => ih (hy ▸ hrest) hk
  | token h ih =>
    rintro targets x q ⟨y, hy, hp, hrest⟩ hk
    obtain rfl := hy x rfl
    exact .token hp (ih hrest hk)
  | label h ih =>
    rintro targets x q ⟨hx, hrest⟩ hk
    exact hx.shows (ih hrest hk)
  | returns =>
    rintro targets x q ⟨⟨r, hx, hr⟩, -⟩ hk
    refine hx.shows fun y hy => ?_
    simpa using (hr y hy).shows rfl ⟨0, .exit⟩
  | leave hk' h ih =>
    rintro targets x q ⟨⟨d, hd, hx⟩, -⟩ hk
    obtain ⟨k₁, hk₁, hd⟩ := hk.leave hd
    obtain rfl := Option.some.inj (hk'.symm.trans hk₁)
    exact jump (hx x rfl) hd ih
  | next hk' h ih =>
    rintro targets x q ⟨⟨d, hd, hx⟩, -⟩ hk
    obtain ⟨k₁, hk₁, hd⟩ := hk.next hd
    obtain rfl := Option.some.inj (hk'.symm.trans hk₁)
    exact jump (hx x rfl) hd ih
  | goto hk' h ih =>
    rintro targets x q ⟨⟨-, hx⟩, -⟩ hk
    exact jump (hx x rfl) (hgoto _ _ hk') ih
  | block h ih =>
    rintro targets x q ⟨r, hinner, hrest⟩ hk
    exact ih hinner (.after (.refl r) hrest hk)
  | ifThen h ih =>
    rintro targets x q ⟨cond, a, merge, r, hx, hc, hyes, hr, hrest⟩ hk
    exact hx.shows (hc.shows (.inl rfl) (ih hyes (.after hr.flows hrest hk)))
  | ifNot h ih =>
    rintro targets x q ⟨cond, a, merge, r, hx, hc, hyes, hr, hrest⟩ hk
    exact hx.shows (hc.shows (.inr rfl) (ih hrest hk))
  | ifElse holds h ih =>
    rintro targets x q ⟨cond, a, b, r, s, o, hx, hc, hyes, hr, hno, hs, hrest⟩ hk
    refine hx.shows ?_
    cases holds with
    | true => exact hc.shows (.inl rfl) (ih hyes (.after hr hrest hk))
    | false => exact hc.shows (.inr rfl) (ih hno (.after hs hrest hk))
  | whileDo h ih =>
    rintro targets x q ⟨cond, first, after, hx, hloop, hrest⟩ hk
    exact ih rfl (.loop hx hloop hrest hk)
  | doWhile h ih =>
    rintro targets x q ⟨cond, first, after, hx, hloop, hrest⟩ hk
    obtain ⟨hc, r, hinner, hr⟩ := id hloop
    exact hx.shows (ih hinner (.loop hr hloop hrest hk))
  | loopAgain h ih =>
    rintro targets x q rfl ⟨cond, first, after, outer, s, rfl, hx, hloop, hrest, hk⟩
    obtain ⟨hc, r, hinner, hr⟩ := id hloop
    exact hx.shows (hc.shows (.inl rfl) (ih hinner (.loop hr hloop hrest hk)))
  | loopEnd h ih =>
    rintro targets x q rfl ⟨cond, first, after, outer, s, rfl, hx, hloop, hrest, hk⟩
    exact hx.shows (hloop.1.shows (.inr rfl) (ih hrest hk))
  | forDo h ih =>
    rintro targets x q ⟨start, cond, advance, first, after, hx, hs, hloop, hrest⟩ hk
    exact hx.shows (hs.passes (ih rfl (.forTest hs.past.enters hloop hrest hk)))
  | forAgain ht h ih =>
    rintro targets x q rfl ⟨cond, advance, first, after, outer, s, rfl, hx, hloop, hrest, hk⟩
    obtain ⟨hc, -, r, hinner, hr⟩ := id hloop
    rw [if_neg ht] at hc
    exact hx.shows (hc.shows (.inl rfl) (ih hinner (.forStep hr hloop hrest hk)))
  | forEnd ht h ih =>
    rintro targets x q rfl ⟨cond, advance, first, after, outer, s, rfl, hx, hloop, hrest, hk⟩
    have hc := hloop.1
    rw [if_neg ht] at hc
    exact hx.shows (hc.shows (.inr rfl) (ih hrest hk))
  | forEver h ih =>
    rintro targets x q rfl ⟨cond, advance, first, after, outer, s, rfl, hx, hloop, hrest, hk⟩
    obtain ⟨hc, -, r, hinner, hr⟩ := id hloop
    exact hx.shows (hc.shows rfl (ih hinner (.forStep hr hloop hrest hk)))
  | forStep h ih =>
    rintro targets x q rfl ⟨cond, advance, first, after, outer, s, rfl, hx, hloop, hrest, hk⟩
    have ha := hloop.2.1
    exact hx.shows (ha.passes (ih rfl (.forTest ha.past.enters hloop hrest hk)))
  | switch he h ih =>
    rintro targets x q ⟨dispatch, after, r, W, hx, hc, harms, hr, hrest⟩ hk
    obtain ⟨d, W', hd, hahead⟩ := harms.of_entry _ he
    refine hx.shows (hc.shows (.inl hd) ?_)
    exact ih rfl (.arms hahead hr hrest hk)
  | switchPast hd h ih =>
    rintro targets x q ⟨dispatch, after, r, W, hx, hc, harms, hr, hrest⟩ hk
    rw [hd] at hc
    exact hx.shows (hc.shows (.inr rfl) (ih hrest hk))
  | armsEnd h ih =>
    rintro targets x q rfl ⟨after, outer, q, W, r, rfl, ⟨rfl, -⟩, hx, hrest, hk⟩
    exact hx.shows (ih hrest hk)
  | armsCase h ih | armsDefault h ih =>
    rintro targets x q rfl ⟨after, outer, q, W, r, rfl, ⟨b, W', -, hx, hahead⟩, hq, hrest, hk⟩
    refine hx.shows ?_
    exact ih rfl (.arms hahead hq hrest hk)
  | armsStmts h ih =>
    rintro targets x q rfl ⟨after, outer, q, W, r, rfl, ⟨y, s, hy, hinner, hahead⟩, hq, hrest, hk⟩
    obtain rfl := hy x rfl
    exact ih hinner (.arms hahead hq hrest hk)

/-- A walk over a jump comes to where what is left to do lies. -/
theorem Awaits.of_walk {pos : Nat} (hx : M.At x [pos] {([], d)}) (hk : M.Awaits labels k d)
    (hw : M.Walk n x t) :
    ∃ n' t' targets, n' < n ∧ t = .token pos :: t' ∧
      M.Follows labels k targets (some (x.1, x.2 + 1)) ∧ M.Walk n' (x.1, x.2 + 1) t' := by
  obtain ⟨n', t', rfl, rfl, hw'⟩ := Walk.of_token hx.head hw
  obtain ⟨targets, hk⟩ := hk _ hx.tail
  exact ⟨n', t', targets, Nat.lt_succ_self n', rfl, hk, hw'⟩

/-- What every walk shows is an execution. Each step of the execution that is not a step of the walk
leaves less to do. -/
theorem runs_of_walk
    (hgoto : ∀ name k, body.find name .finish = some k → M.Awaits labels k (M.label name))
    (hfind : ∀ name ∈ labels, (body.find name .finish).isSome) (n : Nat) (s : Stmts) (k : Kont)
    {targets : Targets} {x : Place} {q : Option Place} {t : List Event}
    (hs : M.Laid labels s targets (some x) q) (hk : M.Follows labels k targets q)
    (hw : M.Walk n x t) : body.Runs s k t := by
  match s, k with
  | .ifOnly _, k | .bareSwitch _ _, k => exact hs.elim
  | .token pos rest, k =>
    obtain ⟨y, hy, hp, hrest⟩ := hs
    obtain rfl := hy x rfl
    obtain ⟨n', t', rfl, rfl, hw'⟩ := Walk.of_token hp hw
    exact .token (runs_of_walk hgoto hfind n' rest k hrest hk hw')
  | .label name rest, k =>
    obtain ⟨hx, hrest⟩ := hs
    obtain ⟨n', hn, hw'⟩ := hx.of_walk hw
    exact .label (runs_of_walk hgoto hfind n' rest k hrest hk hw')
  | .returns tokens rest, k =>
    obtain ⟨⟨r, hx, hr⟩, -⟩ := hs
    obtain ⟨y, n', rfl, -, hw'⟩ := hx.of_walk hw
    obtain ⟨n₁, e, d, t₁, -, hd, rfl, hlast⟩ := (hr y rfl).of_walk (Set.singleton_nonempty _) hw'
    obtain ⟨rfl, rfl⟩ := Prod.mk.inj hd
    rw [hlast.of_exit, List.append_nil, List.append_nil]
    exact .returns
  | .leave pos rest, k =>
    obtain ⟨⟨d, hd, hx⟩, -⟩ := hs
    obtain ⟨k', hk', hd⟩ := hk.leave hd
    obtain ⟨n', t', outer, hn, rfl, hfollows, hw'⟩ := hd.of_walk (hx x rfl) hw
    exact .leave hk' (runs_of_walk hgoto hfind n' .done k' rfl hfollows hw')
  | .next pos rest, k =>
    obtain ⟨⟨d, hd, hx⟩, -⟩ := hs
    obtain ⟨k', hk', hd⟩ := hk.next hd
    obtain ⟨n', t', outer, hn, rfl, hfollows, hw'⟩ := hd.of_walk (hx x rfl) hw
    exact .next hk' (runs_of_walk hgoto hfind n' .done k' rfl hfollows hw')
  | .goto pos target rest, k =>
    obtain ⟨⟨hmem, hx⟩, -⟩ := hs
    obtain ⟨k', hk'⟩ := Option.isSome_iff_exists.mp (hfind target hmem)
    obtain ⟨n', t', outer, hn, rfl, hfollows, hw'⟩ := (hgoto target k' hk').of_walk (hx x rfl) hw
    exact .goto hk' (runs_of_walk hgoto hfind n' .done k' rfl hfollows hw')
  | .block inner rest, k =>
    obtain ⟨r, hinner, hrest⟩ := hs
    exact .block (runs_of_walk hgoto hfind n inner _ hinner (.after (.refl r) hrest hk) hw)
  | .ifThen test yes rest, k =>
    obtain ⟨cond, a, merge, r, hx, hc, hyes, hr, hrest⟩ := hs
    obtain ⟨n₁, hn₁, hw₁⟩ := hx.of_walk hw
    obtain ⟨n', e, d, t', hn, hd | hd, rfl, hw'⟩ := hc.of_walk ⟨_, .inl rfl⟩ hw₁
    · cases hd
      exact .ifThen (runs_of_walk hgoto hfind n' yes _ hyes (.after hr.flows hrest hk) hw')
    · cases hd
      exact .ifNot (runs_of_walk hgoto hfind n' rest k hrest hk hw')
  | .ifElse test yes no rest, k =>
    obtain ⟨cond, a, b, r, s, o, hx, hc, hyes, hr, hno, hs, hrest⟩ := hs
    obtain ⟨n₁, hn₁, hw₁⟩ := hx.of_walk hw
    obtain ⟨n', e, d, t', hn, hd | hd, rfl, hw'⟩ := hc.of_walk ⟨_, .inl rfl⟩ hw₁
    · cases hd
      exact .ifElse true (runs_of_walk hgoto hfind n' yes _ hyes (.after hr hrest hk) hw')
    · cases hd
      exact .ifElse false (runs_of_walk hgoto hfind n' no _ hno (.after hs hrest hk) hw')
  | .whileDo test inner rest, k =>
    obtain ⟨cond, first, after, hx, hloop, hrest⟩ := hs
    have := inner.sizeOf_pos
    exact .whileDo (runs_of_walk hgoto hfind n .done _ rfl (.loop hx hloop hrest hk) hw)
  | .doWhile inner test rest, k =>
    obtain ⟨cond, first, after, hx, hloop, hrest⟩ := hs
    obtain ⟨hc, r, hinner, hr⟩ := id hloop
    obtain ⟨n', hn, hw'⟩ := hx.of_walk hw
    exact .doWhile (runs_of_walk hgoto hfind n' inner _ hinner (.loop hr hloop hrest hk) hw')
  | .forDo init test step inner rest, k =>
    obtain ⟨start, cond, advance, first, after, hx, hs, hloop, hrest⟩ := hs
    obtain ⟨n₁, hn₁, hw₁⟩ := hx.of_walk hw
    obtain ⟨n', t', hn, rfl, hw'⟩ := hs.of_walk_past hw₁
    exact .forDo
      (runs_of_walk hgoto hfind n' .done _ rfl (.forTest hs.past.enters hloop hrest hk) hw')
  | .switch test inside rest, k =>
    obtain ⟨dispatch, after, r, W, hx, hc, harms, hr, hrest⟩ := hs
    obtain ⟨n₁, hn₁, hw₁⟩ := hx.of_walk hw
    have hne : (W ∪ if inside.hasDefault then ∅ else {([.chose none], after)}).Nonempty := by
      split
      · next hdef => exact .inl (harms.nonempty _ hdef)
      · exact ⟨_, .inr rfl⟩
    obtain ⟨n', e, d, t', hn, hd | hd, rfl, hw'⟩ := hc.of_walk hne hw₁
    · obtain ⟨event, ahead, W', rfl, he, hahead⟩ := harms.of_way _ hd
      exact .switch he (runs_of_walk hgoto hfind n' .done _ rfl (.arms hahead hr hrest hk) hw')
    · split at hd
      · exact hd.elim
      · next hdef =>
        cases hd
        exact .switchPast (Bool.eq_false_of_not_eq_true hdef)
          (runs_of_walk hgoto hfind n' rest k hrest hk hw')
  | .done, .finish =>
    obtain rfl : some x = q := hs
    obtain ⟨-, -, hx⟩ := hk
    obtain ⟨n', -, hw'⟩ := hx.of_walk hw
    rw [hw'.of_exit]
    exact .finish
  | .done, .after rest k =>
    obtain rfl : some x = q := hs
    obtain ⟨q, r, hx, hrest, hk⟩ := hk
    obtain ⟨y, n', rfl, hn, hw'⟩ := hx.of_walk hw
    exact .after (runs_of_walk hgoto hfind n' rest k hrest hk hw')
  | .done, .loop test inner rest k =>
    obtain rfl : some x = q := hs
    obtain ⟨cond, first, after, outer, s, rfl, hx, hloop, hrest, hk⟩ := hk
    obtain ⟨hc, r, hinner, hr⟩ := id hloop
    obtain ⟨n₁, hn₁, hw₁⟩ := hx.of_walk hw
    obtain ⟨n', e, d, t', hn, hd | hd, rfl, hw'⟩ := hc.of_walk ⟨_, .inl rfl⟩ hw₁
    · cases hd
      exact .loopAgain
        (runs_of_walk hgoto hfind n' inner _ hinner (.loop hr hloop hrest hk) hw')
    · cases hd
      exact .loopEnd (runs_of_walk hgoto hfind n' rest k hrest hk hw')
  | .done, .forTest test step inner rest k =>
    obtain rfl : some x = q := hs
    obtain ⟨cond, advance, first, after, outer, s, rfl, hx, hloop, hrest, hk⟩ := hk
    obtain ⟨hc, -, r, hinner, hr⟩ := id hloop
    obtain ⟨n₁, hn₁, hw₁⟩ := hx.of_walk hw
    by_cases ht : test = []
    · subst ht
      obtain ⟨n', e, d, t', hn, hd, rfl, hw'⟩ := hc.of_walk (Set.singleton_nonempty _) hw₁
      cases hd
      exact .forEver
        (runs_of_walk hgoto hfind n' inner _ hinner (.forStep hr hloop hrest hk) hw')
    · rw [if_neg ht] at hc
      obtain ⟨n', e, d, t', hn, hd | hd, rfl, hw'⟩ := hc.of_walk ⟨_, .inl rfl⟩ hw₁
      · cases hd
        exact .forAgain ht
          (runs_of_walk hgoto hfind n' inner _ hinner (.forStep hr hloop hrest hk) hw')
      · cases hd
        exact .forEnd ht (runs_of_walk hgoto hfind n' rest k hrest hk hw')
  | .done, .forStep test step inner rest k =>
    obtain rfl : some x = q := hs
    obtain ⟨cond, advance, first, after, outer, s, rfl, hx, hloop, hrest, hk⟩ := hk
    have ha := hloop.2.1
    obtain ⟨n₁, hn₁, hw₁⟩ := hx.of_walk hw
    obtain ⟨n', t', hn, rfl, hw'⟩ := ha.of_walk_past hw₁
    exact .forStep
      (runs_of_walk hgoto hfind n' .done _ rfl (.forTest ha.past.enters hloop hrest hk) hw')
  | .done, .arms .done rest k =>
    obtain rfl : some x = q := hs
    obtain ⟨after, outer, q, W, r, rfl, hahead, hq, hrest, hk⟩ := hk
    obtain ⟨rfl, -⟩ := hahead
    obtain ⟨n', hn, hw'⟩ := hq.of_walk hw
    exact .armsEnd (runs_of_walk hgoto hfind n' rest k hrest hk hw')
  | .done, .arms (.caseOf label ahead) rest k =>
    obtain rfl : some x = q := hs
    obtain ⟨after, outer, q, W, r, rfl, hahead, hq, hrest, hk⟩ := hk
    obtain ⟨b, W', -, hx, hahead⟩ := hahead
    obtain ⟨n', hn, hw'⟩ := hx.of_walk hw
    exact .armsCase (runs_of_walk hgoto hfind n' .done _ rfl (.arms hahead hq hrest hk) hw')
  | .done, .arms (.default ahead) rest k =>
    obtain rfl : some x = q := hs
    obtain ⟨after, outer, q, W, r, rfl, hahead, hq, hrest, hk⟩ := hk
    obtain ⟨b, W', -, hx, hahead⟩ := hahead
    obtain ⟨n', hn, hw'⟩ := hx.of_walk hw
    exact .armsDefault
      (runs_of_walk hgoto hfind n' .done _ rfl (.arms hahead hq hrest hk) hw')
  | .done, .arms (.stmts inner ahead) rest k =>
    obtain rfl : some x = q := hs
    obtain ⟨after, outer, q, W, r, rfl, hahead, hq, hrest, hk⟩ := hk
    obtain ⟨y, s, hy, hinner, hahead⟩ := hahead
    obtain rfl := hy x rfl
    exact .armsStmts
      (runs_of_walk hgoto hfind n inner _ hinner (.arms hahead hq hrest hk) hw)
termination_by (n, sizeOf s + k.weight)
decreasing_by
  all_goals
    simp only [Prod.lex_def, Kont.weight]
    simp
    omega

theorem shows_iff (h : M.Laid body.labels body {} (some x) q) (hq : M.Enters q Graph.exit) :
    M.Shows x t ↔ body.Executes t := by
  have hk : M.Follows body.labels .finish {} q := ⟨rfl, rfl, hq⟩
  have hgoto : ∀ name k, body.find name .finish = some k → M.Awaits body.labels k (M.label name) :=
    fun _ _ hf => Laid.find body h hk hf
  constructor
  · rintro ⟨n, hw⟩
    exact runs_of_walk hgoto (fun _ hn => find_isSome body .finish hn) n body .finish h hk hw
  · exact fun hr => shows_of_runs hgoto hr h hk

end Shape

end SignFlow

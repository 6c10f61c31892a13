import SignFlow.Proofs.View

/-! What laying out one construct does, from what laying out its parts does. -/

namespace SignFlow

open View

namespace View

variable {v : View} {current : Option Nat} {init test step : List Nat} {b cond body after : Nat}

/-- The blocks of a counted loop, in order: its start, condition, step, what follows it, its body. -/
def counted (v : View) (current : Option Nat) (init test step : List Nat) : View :=
  (((v.behind current init).behind (some v.size) test).behind none step).fresh.fresh

/-- The ways out of a condition, which goes on to the body always where it is empty. -/
def guard (v : View) (test : List Nat) (cond body after : Nat) : View :=
  if test.isEmpty then v.connect cond ([], body)
  else (v.connect cond ([.outcome true], body)).connect cond ([.outcome false], after)

@[simp, grind =] theorem size_guard : (v.guard test cond body after).size = v.size := by
  unfold guard
  split <;> rfl

@[simp] theorem tokens_guard : (v.guard test cond body after).tokens = v.tokens := by
  unfold guard
  split <;> rfl

@[simp] theorem names_guard : (v.guard test cond body after).names = v.names := by
  unfold guard
  split <;> rfl

theorem ways_guard (h : v.ways cond = ∅) : (v.guard test cond body after).ways cond =
    if test = [] then {([], body)} else Shape.branches body after := by
  unfold guard
  simp only [List.isEmpty_iff]
  split
  · rw [ways_connect_self, h, insert_empty_eq]
  · rw [ways_connect_self, ways_connect_self, h, insert_empty_eq]
    exact Set.pair_comm _ _

theorem grows_guard (h : cond < v.size) : Grows {cond} v (v.guard test cond body after) := by
  unfold guard
  split
  · exact grows_connect h
  · exact ((grows_connect h).trans (grows_connect h)).mono (by grind)

@[simp, grind =] theorem size_counted : (v.counted current init test step).size = v.size + 5 := by
  simp [counted]

@[simp] theorem names_counted : (v.counted current init test step).names = v.names := by
  simp [counted]

section counted

variable (hv : v.Fits) (ho : v.Open current)
include hv ho

theorem fits_behind (tokens : List Nat) : (v.behind current tokens).Fits := (grows_behind ho).fits hv

theorem grows_counted : Grows {b | b ∈ current} v (v.counted current init test step) := by
  have hstart : Grows {b | b ∈ current} v (v.behind current init) := grows_behind ho
  have hcond : Grows {b | b ∈ some v.size} (v.behind current init)
      ((v.behind current init).behind (some v.size) test) := grows_behind (hv.open_behind ho)
  have hstep : Grows {b | b ∈ none} ((v.behind current init).behind (some v.size) test)
      (((v.behind current init).behind (some v.size) test).behind none step) :=
    grows_behind (by simp [Open])
  exact ((((hstart.trans hcond).trans hstep).trans grows_fresh).trans grows_fresh).mono (by grind)

theorem counted_start :
    (v.counted current init test step).tokens v.size = init ∧
      (v.counted current init test step).ways v.size = {([], v.size + 1)} := by
  constructor
  · rw [counted, tokens_fresh, tokens_fresh, tokens_behind_of_ne (by simp; omega),
      tokens_behind_of_ne (by simp), tokens_behind hv]
  · have hways : (v.behind current init).ways v.size = ∅ := ways_behind hv ho
    rw [counted, ways_fresh, ways_fresh, ways_behind_of_not_mem (by simp), ways_behind_of_mem rfl,
      hways, size_behind, insert_empty_eq]

theorem counted_cond :
    (v.counted current init test step).tokens (v.size + 1) = test ∧
      (v.counted current init test step).ways (v.size + 1) = ∅ := by
  have hfits : (v.behind current init).Fits := fits_behind hv ho init
  have htokens : ((v.behind current init).behind (some v.size) test).tokens _ = test :=
    tokens_behind hfits
  rw [size_behind] at htokens
  constructor
  · rw [counted, tokens_fresh, tokens_fresh, tokens_behind_of_ne (by simp), htokens]
  · rw [counted, ways_fresh, ways_fresh, ways_behind_of_not_mem (by simp),
      ways_behind_of_not_mem (by simp), (hfits _ (by simp)).2]

theorem counted_step :
    (v.counted current init test step).tokens (v.size + 2) = step ∧
      (v.counted current init test step).ways (v.size + 2) = ∅ := by
  have hfits : ((v.behind current init).behind (some v.size) test).Fits :=
    fits_behind (fits_behind hv ho init) (hv.open_behind ho) test
  have htokens : (((v.behind current init).behind (some v.size) test).behind none step).tokens _ =
    step := tokens_behind hfits
  rw [size_behind, size_behind] at htokens
  constructor
  · rw [counted, tokens_fresh, tokens_fresh, htokens]
  · rw [counted, ways_fresh, ways_fresh, ways_behind_of_not_mem (by simp), (hfits _ (by simp)).2]

/-- The last two blocks are new. -/
theorem counted_new (hb : v.size + 3 ≤ b) :
    (v.counted current init test step).tokens b = [] ∧
      (v.counted current init test step).ways b = ∅ := by
  have hfits : ((v.behind current init).behind (some v.size) test).Fits :=
    fits_behind (fits_behind hv ho init) (hv.open_behind ho) test
  have hfits₁ : (((v.behind current init).behind (some v.size) test).behind none step).Fits :=
    fits_behind hfits (by simp [Open]) step
  refine hfits₁ b ?_
  simp only [size_behind]
  omega

theorem Kept.enters_counted {M : Shape} {own : Set Nat}
    (h : Kept own (v.counted current init test step) M) (hown : ∀ b ∈ current, b ∉ own) :
    M.Enters (v.place current) v.size := by
  have hlt := ho.lt
  have hcond : Grows {b | b ∈ some v.size} (v.behind current init)
      ((v.behind current init).behind (some v.size) test) := grows_behind (hv.open_behind ho)
  have hstep : Grows {b | b ∈ none} ((v.behind current init).behind (some v.size) test)
      (((v.behind current init).behind (some v.size) test).behind none step) :=
    grows_behind (by simp [Open])
  exact (h.of_grows (((hcond.trans hstep).trans grows_fresh).trans grows_fresh)).enters_behind ho
    (by grind)

end counted

end View

/-- From a view with its current block, the statements were laid out up to another view and block: they
lie in every shape that keeps the result but for the last block and those that were there before. -/
structure Lain (label : String → Nat) (labels : List String) (s : Stmts) (targets : Targets)
    (current : Option Nat) (v : View) (last : Option Nat) (v' : View) : Prop where
  extend : Extends current v last v'
  names : v'.names.map Prod.fst = s.labels.reverse ++ v.names.map Prod.fst
  laid : ∀ M : Shape, M.label = label →
    s.placed labels targets.leave.isSome targets.next.isSome = true →
    v'.Kept ({b | b ∈ last} ∪ v.others current) M →
    M.Laid labels s targets (v.place current) (v'.place last)

/-- Laying out the statements takes a view and its current block to another view and block. -/
def Lays (label : String → Nat) (labels : List String) (s : Stmts) (targets : Targets)
    (current : Option Nat) (v : View) (last : Option Nat) (v' : View) : Prop :=
  v.Fits → v.Open current → Lain label labels s targets current v last v'

section

variable {label : String → Nat} {labels : List String} {s yes no inner rest : Stmts}
  {targets : Targets} {current last middle : Option Nat} {v v₁ v₂ v₃ : View} {M : Shape}
  {X : Set Nat} {pos b d : Nat} {tokens test : List Nat} {name target : String}

/-- What may still change behind some statements may still change before them, with the current block
in place of the last. -/
theorem Lain.kept (h : Lain label labels s targets current v last v₁)
    (hM : v₁.Kept ({b | b ∈ last} ∪ X) M) : v.Kept ({b | b ∈ current} ∪ X) M := by
  refine (hM.of_grows h.extend.grows).mono ?_
  rintro b hb (hm | hm | hm)
  · exact .inl hm
  · exact (h.extend.recent b hm).elim .inl fun hle => absurd hb (Nat.not_lt.mpr hle)
  · exact .inr hm

theorem Lain.size_le (h : Lain label labels s targets current v last v₁) : v.size ≤ v₁.size :=
  h.extend.grows.size

/-- The last block is the current one or a new one. -/
theorem Lain.last_mem (h : Lain label labels s targets current v last v₁) :
    ∀ b ∈ last, b < v₁.size ∧ (b ∈ current ∨ v.size ≤ b) :=
  fun b hb => ⟨(h.extend.opens b hb).1, h.extend.recent b hb⟩

theorem Lays.done : Lays label labels .done targets current v current v :=
  fun _ ho => ⟨.refl ho, rfl, fun _ _ _ _ => rfl⟩

theorem Lays.block (hinner : Lays label labels inner targets current v middle v₁)
    (hrest : Lays label labels rest targets middle v₁ last v₂) :
    Lays label labels (.block inner rest) targets current v last v₂ := by
  intro hv ho
  replace hinner := hinner hv ho
  replace hrest := hrest (hinner.extend.grows.fits hv) hinner.extend.opens
  refine ⟨hrest.extend.of_grows hinner.extend.grows hinner.extend.recent, ?_, fun M hM hp hk => ?_⟩
  · rw [hrest.names, hinner.names, Stmts.labels, List.reverse_append, List.append_assoc]
  · rw [Stmts.placed, Bool.and_eq_true] at hp
    refine ⟨_, hinner.laid M hM hp.1 (hrest.kept hk), hrest.laid M hM hp.2 (hk.mono ?_)⟩
    have := hinner.last_mem
    have := hinner.size_le
    grind

/-- Plain tokens go into the current block, or into a new one that control cannot reach. -/
theorem Lays.token
    (hrest : Lays label labels rest targets (some (current.getD v.size))
      ((v.here current).append (current.getD v.size) [pos]) last v₁) :
    Lays label labels (.token pos rest) targets current v last v₁ := by
  intro hv ho
  have hopen := hv.open_here ho
  have hb := (hopen _ rfl).1
  have hmem : current.getD v.size ∈ current ∨ v.size ≤ current.getD v.size := mem_here
  have hfirst : Grows {b | b ∈ current} v
      ((v.here current).append (current.getD v.size) [pos]) := by
    refine (grows_here.trans (grows_append hb)).mono ?_
    grind
  replace hrest := hrest (hfirst.fits hv) hopen.append
  refine ⟨hrest.extend.of_grows hfirst (by grind), ?_, fun M hM hp hk => ?_⟩
  · rw [hrest.names, names_append, names_here, Stmts.labels]
  · have hpre := (hrest.kept hk).before _ hb
    rw [tokens_append_self hb, tokens_here] at hpre
    refine ⟨(current.getD v.size, _), fun x hx => place_here hx, ?_, ?_⟩
    · obtain ⟨after, hafter⟩ := hpre
      simp [← hafter]
    · have hlaid := hrest.laid M hM hp (hk.mono ?_)
      · simpa [place, tokens_append_self hb] using hlaid
      · have := hfirst.size
        grind

/-- A label starts a block. -/
theorem Lays.mark
    (hrest : Lays label labels rest targets (some v.size)
      ((v.behind current []).mark name v.size) last v₁) :
    Lays label labels (.label name rest) targets current v last v₁ := by
  intro hv ho
  have hfirst : Grows {b | b ∈ current} v ((v.behind current []).mark name v.size) :=
    ((grows_behind ho).trans grows_mark).mono (by grind)
  have hopen : (v.behind current []).Open (some v.size) := hv.open_behind ho
  replace hrest := hrest (hfirst.fits hv) hopen
  refine ⟨hrest.extend.of_grows hfirst (by grind), ?_, fun M hM hp hk => ?_⟩
  · rw [hrest.names, names_mark, names_behind, Stmts.labels, List.reverse_cons, List.append_assoc]
    rfl
  · have hk₁ := hrest.kept hk
    have hname : M.label name = v.size := hk₁.names (name, v.size) List.mem_cons_self
    have hplace : ((v.behind current []).mark name v.size).place (some v.size) = some (v.size, 0) := by
      simp [place, tokens_behind hv]
    have hlaid := hrest.laid M hM hp (hk.mono (by grind))
    rw [hplace] at hlaid
    rw [Shape.Laid, hname]
    refine ⟨(hk₁.of_grows grows_mark).enters_behind ho ?_, hlaid⟩
    have := ho.lt
    grind

/-- A return out of the current block. -/
theorem Lays.returnsHere
    (hrest : Lays label labels rest targets none
      ((v.append b tokens).connect b ([], Graph.exit)) last v₁) :
    Lays label labels (.returns tokens rest) targets (some b) v last v₁ := by
  intro hv ho
  have hb := (ho b rfl).1
  have hfirst : Grows {c | c ∈ some b} v ((v.append b tokens).connect b ([], Graph.exit)) := by
    refine ((grows_append hb).trans (grows_connect hb)).mono ?_
    grind
  replace hrest := hrest (hfirst.fits hv) (by simp [View.Open])
  refine ⟨hrest.extend.of_grows hfirst (by simp), hrest.names, fun M hM hp hk => ⟨?_, ?_⟩⟩
  · refine ⟨_, .refl _, fun x hx => ?_⟩
    obtain rfl := Option.some.inj hx
    exact (hrest.kept hk).at_end ho (by grind)
  · exact hrest.laid M hM hp (hk.mono (by grind))

/-- A return out of a block of its own. -/
theorem Lays.returnsBehind
    (hrest : Lays label labels rest targets none
      ((v.behind current tokens).connect v.size ([], Graph.exit)) last v₁) :
    Lays label labels (.returns tokens rest) targets current v last v₁ := by
  intro hv ho
  have hconnect : Grows {v.size} (v.behind current tokens)
      ((v.behind current tokens).connect v.size ([], Graph.exit)) := grows_connect (by simp)
  have hfirst : Grows {b | b ∈ current} v
      ((v.behind current tokens).connect v.size ([], Graph.exit)) :=
    ((grows_behind ho).trans hconnect).mono (by grind)
  replace hrest := hrest (hfirst.fits hv) (by simp [View.Open])
  refine ⟨hrest.extend.of_grows hfirst (by simp), ?_, fun M hM hp hk => ⟨?_, ?_⟩⟩
  · rw [hrest.names, names_connect, names_behind, Stmts.labels]
  · have hk₁ := hrest.kept hk
    refine ⟨some (v.size, 0), ((hk₁.of_grows hconnect).enters_behind ho ?_).flows, fun x hx => ?_⟩
    · have := ho.lt
      grind
    · obtain rfl := Option.some.inj hx
      refine hk₁.start (by simp) (by grind) (by simp [tokens_behind hv]) ?_
      simp [ways_behind hv ho]
  · exact hrest.laid M hM hp (hk.mono (by grind))

/-- A jump out of the current block, for every statement that lies where such a jump does. -/
theorem Lays.jump {s : Stmts}
    (hrest : Lays label labels rest targets none (v.jump current pos d) last v₁)
    (hlabels : s.labels = rest.labels)
    (hlies : ∀ {M : Shape} {p q : Option (Nat × Nat)}, M.label = label →
      s.placed labels targets.leave.isSome targets.next.isSome = true →
      rest.placed labels targets.leave.isSome targets.next.isSome = true ∧
        ((∀ x ∈ p, M.At x [pos] {([], d)}) → M.Laid labels rest targets none q →
          M.Laid labels s targets p q)) :
    Lays label labels s targets current v last v₁ := by
  intro hv ho
  have hjump : Grows {b | b ∈ current} v (v.jump current pos d) := grows_jump ho
  replace hrest := hrest (hjump.fits hv) (by simp [View.Open])
  refine ⟨hrest.extend.of_grows hjump (by simp), ?_, fun M hM hp hk => ?_⟩
  · rw [hrest.names, names_jump, hlabels]
  · obtain ⟨hrestPlaced, hlaid⟩ := hlies hM hp
    refine hlaid (fun x hx => (hrest.kept hk).at_jump ho (by grind) hx) ?_
    refine hrest.laid M hM hrestPlaced (hk.mono ?_)
    have := hjump.size
    grind

theorem Lays.leave
    (hrest : Lays label labels rest targets none
      (v.jump current pos (targets.leave.getD Graph.exit)) last v₁) :
    Lays label labels (.leave pos rest) targets current v last v₁ := by
  refine hrest.jump rfl fun _ hp => ?_
  obtain ⟨hleave, hp⟩ := Bool.and_eq_true_iff.mp hp
  obtain ⟨d, hd⟩ := Option.isSome_iff_exists.mp hleave
  refine ⟨hp, fun hx hlaid => ⟨⟨d, hd, ?_⟩, hlaid⟩⟩
  rwa [hd] at hx

theorem Lays.next
    (hrest : Lays label labels rest targets none
      (v.jump current pos (targets.next.getD Graph.exit)) last v₁) :
    Lays label labels (.next pos rest) targets current v last v₁ := by
  refine hrest.jump rfl fun _ hp => ?_
  obtain ⟨hnext, hp⟩ := Bool.and_eq_true_iff.mp hp
  obtain ⟨d, hd⟩ := Option.isSome_iff_exists.mp hnext
  refine ⟨hp, fun hx hlaid => ⟨⟨d, hd, ?_⟩, hlaid⟩⟩
  rwa [hd] at hx

theorem Lays.goto
    (hrest : Lays label labels rest targets none (v.jump current pos (label target)) last v₁) :
    Lays label labels (.goto pos target rest) targets current v last v₁ := by
  refine hrest.jump rfl fun hM hp => ?_
  obtain ⟨htarget, hp⟩ := Bool.and_eq_true_iff.mp hp
  rw [← hM]
  exact ⟨hp, fun hx hlaid => ⟨⟨List.contains_iff_mem.mp htarget, hx⟩, hlaid⟩⟩

/-- A construct that is not whole lies nowhere, but still keeps to its blocks. -/
theorem Lays.ifOnly : Lays label labels (.ifOnly test) targets current v none (v.behind current test) :=
  fun _ ho => ⟨⟨grows_behind ho, by simp [View.Open], by simp⟩, by simp [Stmts.labels],
    fun _ _ hp => by simp [Stmts.placed] at hp⟩

theorem Lays.bareSwitch {e : Event}
    (hrest : Lays label labels rest targets (some (v.size + 1))
      ((v.behind current test).fresh.connect v.size ([e], v.size + 1)) last v₁) :
    Lays label labels (.bareSwitch test rest) targets current v last v₁ := by
  intro hv ho
  have hbehind : Grows {b | b ∈ current} v (v.behind current test) := grows_behind ho
  have hconnect : Grows (∅ ∪ {v.size}) (v.behind current test)
      ((v.behind current test).fresh.connect v.size ([e], v.size + 1)) :=
    grows_fresh.trans (grows_connect (by grind))
  have hnew := (hbehind.fits hv).open_fresh
  rw [size_behind] at hnew
  replace hrest := hrest (hconnect.fits (hbehind.fits hv)) (hnew.connect (by grind))
  refine ⟨hrest.extend.of_grows ((hbehind.trans hconnect).mono (by grind)) (by grind), ?_,
    fun _ _ hp => by simp [Stmts.placed] at hp⟩
  rw [hrest.names, names_connect, names_fresh, names_behind, Stmts.labels]

/-- The first branch of a condition was laid out behind its test, in a block of its own: so far the
test leads there and nowhere else. -/
structure LainBranch (label : String → Nat) (labels : List String) (test : List Nat) (yes : Stmts)
    (targets : Targets) (current : Option Nat) (v : View) (last : Option Nat) (v' : View) : Prop where
  grows : Grows {b | b ∈ current} v v'
  opens : v'.Open last
  size : v.size + 2 ≤ v'.size
  recent : ∀ b ∈ last, v.size < b ∧ b < v'.size
  tokens : v'.tokens v.size = test
  ways : v'.ways v.size = {([.outcome true], v.size + 1)}
  names : v'.names.map Prod.fst = yes.labels.reverse ++ v.names.map Prod.fst
  laid : ∀ M : Shape, M.label = label →
    yes.placed labels targets.leave.isSome targets.next.isSome = true →
    v'.Kept ({b | b ∈ last} ∪ ({v.size} ∪ v.others current)) M →
    M.Enters (v.place current) v.size ∧
      M.Laid labels yes targets (some (v.size + 1, 0)) (v'.place last)

theorem Lays.branch (hv : v.Fits) (ho : v.Open current)
    (hyes : Lays label labels yes targets (some (v.size + 1))
      ((v.behind current test).fresh.connect v.size ([.outcome true], v.size + 1)) middle v₁) :
    LainBranch label labels test yes targets current v middle v₁ := by
  have hlt := ho.lt
  have hbehind : Grows {b | b ∈ current} v (v.behind current test) := grows_behind ho
  have hfits : (v.behind current test).Fits := hbehind.fits hv
  have hbranch : Grows (∅ ∪ {v.size}) (v.behind current test)
      ((v.behind current test).fresh.connect v.size ([.outcome true], v.size + 1)) :=
    grows_fresh.trans (grows_connect (by grind))
  have hnew := hfits.open_fresh
  rw [size_behind] at hnew
  replace hyes := hyes (hbranch.fits hfits) (hnew.connect (by grind))
  have hsize := hyes.size_le
  have hmiddle := hyes.last_mem
  refine ⟨?_, hyes.extend.opens, by grind, by grind, ?_, ?_, ?_, fun M hM hp hk => ?_⟩
  · exact ((hbehind.trans hbranch).trans hyes.extend.grows).mono (by grind)
  · rw [hyes.extend.grows.tokens _ (by grind) (by grind), tokens_connect, tokens_fresh,
      tokens_behind hv]
  · rw [hyes.extend.grows.ways _ (by grind) (by grind), ways_connect_self, ways_fresh,
      ways_behind hv ho, insert_empty_eq]
  · rw [hyes.names, names_connect, names_fresh, names_behind]
  · have hplace := hfits.place_new
    rw [size_behind] at hplace
    have hlaid := hyes.laid M hM hp (hk.mono (by grind))
    rw [place_connect, place_fresh, hplace] at hlaid
    exact ⟨((hyes.kept hk).of_grows hbranch).enters_behind ho (by grind), hlaid⟩

theorem Lays.ifThen
    (hyes : Lays label labels yes targets (some (v.size + 1))
      ((v.behind current test).fresh.connect v.size ([.outcome true], v.size + 1)) middle v₁)
    (hrest : Lays label labels rest targets (some v₁.size)
      ((v₁.fresh.connect v.size ([.outcome false], v₁.size)).link middle v₁.size) last v₂) :
    Lays label labels (.ifThen test yes rest) targets current v last v₂ := by
  intro hv ho
  have hlt := ho.lt
  replace hyes := hyes.branch hv ho
  have hsize := hyes.size
  have hmiddle := hyes.recent
  have hfits : v₁.Fits := hyes.grows.fits hv
  have hmerge : Grows (∅ ∪ {v.size} ∪ {b | b ∈ middle}) v₁
      ((v₁.fresh.connect v.size ([.outcome false], v₁.size)).link middle v₁.size) :=
    (grows_fresh.trans (grows_connect (by grind))).trans (grows_link (by grind))
  replace hrest := hrest (hmerge.fits hfits)
    ((hfits.open_fresh.connect (by grind)).link (by grind))
  refine ⟨hrest.extend.of_grows ((hyes.grows.trans hmerge).mono ?_) ?_, ?_, fun M hM hp hk => ?_⟩
  · grind
  · grind
  · rw [hrest.names, names_link, names_connect, names_fresh, hyes.names, Stmts.labels,
      List.reverse_append, List.append_assoc]
  · rw [Stmts.placed, Bool.and_eq_true] at hp
    have hk₂ := hrest.kept hk
    obtain ⟨henters, hyesLaid⟩ := hyes.laid M hM hp.1 ((hk₂.of_grows hmerge).mono (by grind))
    have hrestLaid := hrest.laid M hM hp.2 (hk.mono (by grind))
    rw [place_link, place_connect, place_fresh, hfits.place_new] at hrestLaid
    refine ⟨v.size, v.size + 1, v₁.size, v₁.place middle, henters,
      hk₂.start (by grind) (by grind) ?_ ?_, hyesLaid, hk₂.enters ?_ (by grind), hrestLaid⟩
    · rw [tokens_link, tokens_connect, tokens_fresh, hyes.tokens]
    · rw [ways_link_of_not_mem (by grind), ways_connect_self, ways_fresh, hyes.ways]
      exact Set.pair_comm _ _
    · exact hyes.opens.fresh.connect (by grind)

theorem Lays.ifElse {other : Option Nat}
    (hyes : Lays label labels yes targets (some (v.size + 1))
      ((v.behind current test).fresh.connect v.size ([.outcome true], v.size + 1)) middle v₁)
    (hno : Lays label labels no targets (some v₁.size)
      (v₁.fresh.connect v.size ([.outcome false], v₁.size)) other v₂)
    (hrest : Lays label labels rest targets
      (if middle.isNone && other.isNone then none else some v₂.size)
      ((v₂.fresh.link middle v₂.size).link other v₂.size) last v₃) :
    Lays label labels (.ifElse test yes no rest) targets current v last v₃ := by
  -- the views on the way: behind the first branch, behind the second, and with the block where they meet
  intro hv ho
  have hlt := ho.lt
  replace hyes := hyes.branch hv ho
  have hsize := hyes.size
  have hmiddle := hyes.recent
  have hfits₁ : v₁.Fits := hyes.grows.fits hv
  have hbranch : Grows (∅ ∪ {v.size}) v₁
      (v₁.fresh.connect v.size ([.outcome false], v₁.size)) :=
    grows_fresh.trans (grows_connect (by grind))
  replace hno := hno (hbranch.fits hfits₁) (hfits₁.open_fresh.connect (by grind))
  have hsize₁ := hno.size_le
  have hother := hno.last_mem
  have hfits₂ : v₂.Fits := hno.extend.grows.fits (hbranch.fits hfits₁)
  have hopen : v₂.Open middle :=
    (hyes.opens.fresh.connect (by grind)).grows hno.extend.grows (by grind)
  have hlink : Grows {b | b ∈ middle} v₂.fresh (v₂.fresh.link middle v₂.size) :=
    grows_link (by grind)
  have hlink₁ : Grows {b | b ∈ other} (v₂.fresh.link middle v₂.size)
      ((v₂.fresh.link middle v₂.size).link other v₂.size) := grows_link (by grind)
  have hmerge := (grows_fresh.trans hlink).trans hlink₁
  have hopenMerge : ((v₂.fresh.link middle v₂.size).link other v₂.size).Open
      (if middle.isNone && other.isNone then none else some v₂.size) := by
    split
    · simp [View.Open]
    · exact (hfits₂.open_fresh.link (by grind)).link (by grind)
  have hmem : ∀ b ∈ (if middle.isNone && other.isNone then none else some v₂.size), b = v₂.size := by
    grind
  replace hrest := hrest (hmerge.fits hfits₂) hopenMerge
  refine ⟨hrest.extend.of_grows ?_ ?_, ?_, fun M hM hp hk => ?_⟩
  · exact (((hyes.grows.trans hbranch).trans hno.extend.grows).trans hmerge).mono (by grind)
  · grind
  · rw [hrest.names, names_link, names_link, names_fresh, hno.names, names_connect, names_fresh,
      hyes.names, Stmts.labels]
    simp
  · rw [Stmts.placed, Bool.and_eq_true, Bool.and_eq_true] at hp
    have hk₃ := hrest.kept hk
    have hk₂ : v₂.Kept ({b | b ∈ other} ∪ ({b | b ∈ middle} ∪ v.others current)) M :=
      (hk₃.of_grows hmerge).mono (by grind)
    have hk₁ := hno.kept hk₂
    obtain ⟨henters, hyesLaid⟩ := hyes.laid M hM hp.1.1 ((hk₁.of_grows hbranch).mono (by grind))
    have hnoLaid := hno.laid M hM hp.1.2 (hk₂.mono (by grind))
    have hrestLaid := hrest.laid M hM hp.2 (hk.mono (by grind))
    rw [place_connect, place_fresh, hfits₁.place_new] at hnoLaid
    have hmeet : middle ≠ none ∨ other ≠ none →
        ((v₂.fresh.link middle v₂.size).link other v₂.size).place
          (if middle.isNone && other.isNone then none else some v₂.size) = some (v₂.size, 0) := by
      intro h
      rw [← not_and_or, ← Option.isNone_iff_eq_none, ← Option.isNone_iff_eq_none,
        ← Bool.and_eq_true] at h
      rw [if_neg h, place_link, place_link, place_fresh, hfits₂.place_new]
    have hmiddleEnters := (hk₃.of_grows hlink₁).enters hopen.fresh (by grind)
    rw [place_fresh, (hbranch.trans hno.extend.grows).place (by grind)] at hmiddleEnters
    have hotherEnters := hk₃.enters (hno.extend.opens.fresh.link (by grind)) (by grind)
    rw [place_link, place_fresh] at hotherEnters
    refine ⟨v.size, v.size + 1, v₁.size, _, _, _, henters,
      hk₁.start (by grind) (by grind) ?_ ?_, hyesLaid, fun x hx => .inr ⟨_, hmeet (.inl ?_), ?_⟩,
      hnoLaid, fun x hx => .inr ⟨_, hmeet (.inr ?_), ?_⟩, hrestLaid⟩
    · rw [tokens_connect, tokens_fresh, hyes.tokens]
    · rw [ways_connect_self, ways_fresh, hyes.ways]
      exact Set.pair_comm _ _
    · rintro rfl
      cases hx
    · exact hmiddleEnters x hx
    · rintro rfl
      cases hx
    · exact hotherEnters x hx

theorem Lays.whileDo
    (hinner : Lays label labels inner ⟨some (v.size + 1), some v.size⟩ (some (v.size + 2))
      (((v.behind current test).fresh.fresh.connect v.size ([.outcome true], v.size + 2)).connect
        v.size ([.outcome false], v.size + 1)) middle v₁)
    (hrest : Lays label labels rest targets (some (v.size + 1)) (v₁.link middle v.size) last v₂) :
    Lays label labels (.whileDo test inner rest) targets current v last v₂ := by
  intro hv ho
  have hlt := ho.lt
  have hbehind : Grows {b | b ∈ current} v (v.behind current test) := grows_behind ho
  have hfits : (v.behind current test).Fits := hbehind.fits hv
  have hbranch : Grows (∅ ∪ ∅ ∪ {v.size} ∪ {v.size}) (v.behind current test)
      (((v.behind current test).fresh.fresh.connect v.size ([.outcome true], v.size + 2)).connect
        v.size ([.outcome false], v.size + 1)) :=
    ((grows_fresh.trans grows_fresh).trans (grows_connect (by grind))).trans
      (grows_connect (by grind))
  have hafter := hfits.open_fresh.fresh
  have hfirst := (grows_fresh.fits hfits).open_fresh
  rw [size_behind] at hafter
  rw [size_fresh, size_behind] at hfirst
  replace hinner := hinner (hbranch.fits hfits) ((hfirst.connect (by grind)).connect (by grind))
  have hsize := hinner.size_le
  have hmiddle := hinner.last_mem
  have hfits₁ : v₁.Fits := hinner.extend.grows.fits (hbranch.fits hfits)
  have hback : Grows {b | b ∈ middle} v₁ (v₁.link middle v.size) := grows_link (by grind)
  have hafter₁ : v₁.Open (some (v.size + 1)) :=
    ((hafter.connect (by grind)).connect (by grind)).grows hinner.extend.grows (by grind)
  replace hrest := hrest (hback.fits hfits₁) (hafter₁.link (by grind))
  refine ⟨hrest.extend.of_grows ?_ ?_, ?_, fun M hM hp hk => ?_⟩
  · refine (((hbehind.trans hbranch).trans hinner.extend.grows).trans hback).mono ?_
    grind
  · grind
  · rw [hrest.names, names_link, hinner.names, names_connect, names_connect, names_fresh,
      names_fresh, names_behind, Stmts.labels, List.reverse_append, List.append_assoc]
  · rw [Stmts.placed, Bool.and_eq_true] at hp
    have hk₂ := hrest.kept hk
    have hk₁ : v₁.Kept ({b | b ∈ middle} ∪ ({v.size + 1} ∪ v.others current)) M :=
      (hk₂.of_grows hback).mono (by grind)
    have hk₀ := hinner.kept hk₁
    have hinnerLaid := hinner.laid M hM hp.1 (hk₁.mono (by grind))
    have hrestLaid := hrest.laid M hM hp.2 (hk.mono (by grind))
    have hplace := hfits.place_new
    have hplace₁ := (grows_fresh.fits hfits).place_new
    rw [size_behind] at hplace
    rw [size_fresh, size_behind] at hplace₁
    rw [place_connect, place_connect, place_fresh, hplace₁] at hinnerLaid
    rw [place_link, hinner.extend.grows.place (by grind), place_connect, place_connect, place_fresh,
      place_fresh, hplace] at hrestLaid
    refine ⟨v.size, v.size + 2, v.size + 1, (hk₀.of_grows hbranch).enters_behind ho (by grind),
      ⟨hk₀.start (by grind) (by grind) ?_ ?_, _, hinnerLaid,
        hk₂.enters hinner.extend.opens (by grind)⟩, hrestLaid⟩
    · rw [tokens_connect, tokens_connect, tokens_fresh, tokens_fresh, tokens_behind hv]
    · rw [ways_connect_self, ways_connect_self, ways_fresh, ways_fresh, ways_behind hv ho,
        insert_empty_eq]
      exact Set.pair_comm _ _

theorem Lays.doWhile
    (hinner : Lays label labels inner ⟨some (v.size + 2), some (v.size + 1)⟩ (some v.size)
      (v.behind current []).fresh.fresh middle v₁)
    (hrest : Lays label labels rest targets (some (v.size + 2))
      ((((v₁.link middle (v.size + 1)).append (v.size + 1) test).connect
        (v.size + 1) ([.outcome true], v.size)).connect (v.size + 1) ([.outcome false], v.size + 2))
      last v₂) :
    Lays label labels (.doWhile inner test rest) targets current v last v₂ := by
  intro hv ho
  have hlt := ho.lt
  have hbehind : Grows {b | b ∈ current} v (v.behind current []) := grows_behind ho
  have hfits : (v.behind current []).Fits := hbehind.fits hv
  have hblocks : Grows (∅ ∪ ∅) (v.behind current []) (v.behind current []).fresh.fresh :=
    grows_fresh.trans grows_fresh
  have hcond := hfits.open_fresh.fresh
  have hafter := (grows_fresh.fits hfits).open_fresh
  rw [size_behind] at hcond
  rw [size_fresh, size_behind] at hafter
  replace hinner := hinner (hblocks.fits hfits) (hv.open_behind ho).fresh.fresh
  have hsize := hinner.size_le
  have hmiddle := hinner.last_mem
  have hfits₁ : v₁.Fits := hinner.extend.grows.fits (hblocks.fits hfits)
  have hlink : Grows {b | b ∈ middle} v₁ (v₁.link middle (v.size + 1)) := grows_link (by grind)
  have hbranch : Grows ({v.size + 1} ∪ {v.size + 1} ∪ {v.size + 1}) (v₁.link middle (v.size + 1))
      ((((v₁.link middle (v.size + 1)).append (v.size + 1) test).connect
        (v.size + 1) ([.outcome true], v.size)).connect (v.size + 1)
          ([.outcome false], v.size + 2)) :=
    ((grows_append (by grind)).trans (grows_connect (by grind))).trans (grows_connect (by grind))
  have hcond₁ : v₁.Open (some (v.size + 1)) := hcond.grows hinner.extend.grows (by grind)
  have hafter₁ : v₁.Open (some (v.size + 2)) := hafter.grows hinner.extend.grows (by grind)
  replace hrest := hrest (hbranch.fits (hlink.fits hfits₁))
    (((hafter₁.link (by grind)).append.connect (by grind)).connect (by grind))
  refine ⟨hrest.extend.of_grows ?_ ?_, ?_, fun M hM hp hk => ?_⟩
  · refine ((((hbehind.trans hblocks).trans hinner.extend.grows).trans hlink).trans hbranch).mono ?_
    grind
  · grind
  · rw [hrest.names, names_connect, names_connect, names_append, names_link, hinner.names,
      names_fresh, names_fresh, names_behind, Stmts.labels, List.reverse_append, List.append_assoc]
  · rw [Stmts.placed, Bool.and_eq_true] at hp
    have hk₃ := hrest.kept hk
    have hk₂ := hk₃.of_grows hbranch
    have hk₁ : v₁.Kept ({b | b ∈ middle} ∪ ({v.size + 1, v.size + 2} ∪ v.others current)) M :=
      (hk₂.of_grows hlink).mono (by grind)
    have hk₀ := hinner.kept hk₁
    have hinnerLaid := hinner.laid M hM hp.1 (hk₁.mono (by grind))
    have hrestLaid := hrest.laid M hM hp.2 (hk.mono (by grind))
    have hplace := (grows_fresh.fits hfits).place_new
    rw [size_fresh, size_behind] at hplace
    rw [place_fresh, place_fresh, place_behind hv] at hinnerLaid
    rw [place_connect, place_connect, place_append (by grind), place_link,
      hinner.extend.grows.place (by grind), place_fresh, hplace] at hrestLaid
    refine ⟨v.size + 1, v.size, v.size + 2, (hk₀.of_grows hblocks).enters_behind ho (by grind),
      ⟨hk₃.start (by grind) (by grind) ?_ ?_, _, hinnerLaid,
        hk₂.enters hinner.extend.opens (by grind)⟩, hrestLaid⟩
    · rw [tokens_connect, tokens_connect, tokens_append_self (by grind), tokens_link,
        hinner.extend.grows.tokens _ (by grind) (by grind), tokens_fresh, tokens_fresh,
        (hfits _ (by grind)).1, List.nil_append]
    · rw [ways_connect_self, ways_connect_self, ways_append, ways_link_of_not_mem (by grind),
        (hcond₁ _ rfl).2, insert_empty_eq]
      exact Set.pair_comm _ _

theorem Lays.forDo {init step : List Nat}
    (hinner : Lays label labels inner ⟨some (v.size + 3), some (v.size + 2)⟩ (some (v.size + 4))
      ((v.counted current init test step).guard test (v.size + 1) (v.size + 4) (v.size + 3))
      middle v₁)
    (hrest : Lays label labels rest targets (some (v.size + 3))
      ((v₁.link middle (v.size + 2)).connect (v.size + 2) ([], v.size + 1)) last v₂) :
    Lays label labels (.forDo init test step inner rest) targets current v last v₂ := by
  intro hv ho
  have hlt := ho.lt
  have hcounted : Grows {b | b ∈ current} v (v.counted current init test step) :=
    grows_counted hv ho
  have hguard : Grows {v.size + 1} (v.counted current init test step)
      ((v.counted current init test step).guard test (v.size + 1) (v.size + 4) (v.size + 3)) :=
    grows_guard (by grind)
  have hfits : (v.counted current init test step).Fits := hcounted.fits hv
  have hopen : ∀ b, v.size + 3 ≤ b → b < v.size + 5 →
      ((v.counted current init test step).guard test (v.size + 1) (v.size + 4) (v.size + 3)).Open
        (some b) := by
    intro b hb hb' c hc
    obtain rfl := Option.mem_some.mp hc
    refine ⟨by grind, ?_⟩
    rw [hguard.ways _ (by grind) (by grind), (counted_new hv ho hb).2]
  replace hinner := hinner (hguard.fits hfits) (hopen _ (by simp) (by simp))
  have hsize := hinner.size_le
  have hmiddle := hinner.last_mem
  have hfits₁ : v₁.Fits := hinner.extend.grows.fits (hguard.fits hfits)
  have hlink : Grows {b | b ∈ middle} v₁ (v₁.link middle (v.size + 2)) := grows_link (by grind)
  have hback : Grows {v.size + 2} (v₁.link middle (v.size + 2))
      ((v₁.link middle (v.size + 2)).connect (v.size + 2) ([], v.size + 1)) :=
    grows_connect (by grind)
  have hafter : v₁.Open (some (v.size + 3)) :=
    (hopen _ (by simp) (by simp)).grows hinner.extend.grows (by grind)
  replace hrest := hrest (hback.fits (hlink.fits hfits₁)) ((hafter.link (by grind)).connect (by grind))
  refine ⟨hrest.extend.of_grows ?_ ?_, ?_, fun M hM hp hk => ?_⟩
  · refine ((((hcounted.trans hguard).trans hinner.extend.grows).trans hlink).trans hback).mono ?_
    grind
  · grind
  · rw [hrest.names, names_connect, names_link, hinner.names, names_guard, names_counted,
      Stmts.labels, List.reverse_append, List.append_assoc]
  · rw [Stmts.placed, Bool.and_eq_true] at hp
    have hk₃ := hrest.kept hk
    have hk₂ := hk₃.of_grows hback
    have hk₁ : v₁.Kept ({b | b ∈ middle} ∪ ({v.size + 2, v.size + 3} ∪ v.others current)) M :=
      (hk₂.of_grows hlink).mono (by grind)
    have hk₀ := hinner.kept hk₁
    have hinnerLaid := hinner.laid M hM hp.1 (hk₁.mono (by grind))
    have hrestLaid := hrest.laid M hM hp.2 (hk.mono (by grind))
    have hplace : ∀ b, v.size + 3 ≤ b →
        ((v.counted current init test step).guard test (v.size + 1) (v.size + 4) (v.size + 3)).place
          (some b) = some (b, 0) := by
      intro b hb
      simp [place, (counted_new hv ho hb).1]
    rw [hplace _ (by simp)] at hinnerLaid
    rw [place_connect, place_link, hinner.extend.grows.place (by grind), hplace _ (by simp)]
      at hrestLaid
    refine ⟨v.size, v.size + 1, v.size + 2, v.size + 4, v.size + 3,
      (hk₀.of_grows hguard).enters_counted hv ho (by grind),
      hk₀.start (by grind) (by grind) ?_ ?_,
      ⟨hk₀.start (by grind) (by grind) ?_ (ways_guard (counted_cond hv ho).2),
        hk₃.start (by grind) (by grind) ?_ ?_, _, hinnerLaid,
        hk₂.enters hinner.extend.opens (by grind)⟩, hrestLaid⟩
    · rw [tokens_guard, (counted_start hv ho).1]
    · rw [hguard.ways _ (by grind) (by grind), (counted_start hv ho).2]
    · rw [tokens_guard, (counted_cond hv ho).1]
    · rw [tokens_connect, tokens_link, hinner.extend.grows.tokens _ (by grind) (by grind),
        tokens_guard, (counted_step hv ho).1]
    · rw [ways_connect_self, ways_link_of_not_mem (by grind),
        hinner.extend.grows.ways _ (by grind) (by grind), hguard.ways _ (by grind) (by grind),
        (counted_step hv ho).2, insert_empty_eq]

end

/-- The inside of a switch was laid out: the switch got its ways into it, and nothing else of its block
changed. -/
structure LainArms (label : String → Nat) (labels : List String) (a : Arms) (targets : Targets)
    (dispatch : Nat) (current : Option Nat) (v : View) (last : Option Nat) (v' : View) : Prop where
  grows : Grows ({b | b ∈ current} ∪ {dispatch}) v v'
  opens : v'.Open last
  recent : ∀ b ∈ last, b ∈ current ∨ v.size ≤ b
  tokens : v'.tokens dispatch = v.tokens dispatch
  names : v'.names.map Prod.fst = a.labels.reverse ++ v.names.map Prod.fst
  laid : ∃ W, v'.ways dispatch = v.ways dispatch ∪ W ∧ ∀ M : Shape, M.label = label →
    targets.leave.isSome = true → a.placed labels targets.next.isSome = true →
    v'.Kept ({b | b ∈ last} ∪ v.others current) M →
    M.LaidArms labels a targets (v.place current) (v'.place last) W

/-- Laying out the inside of a switch takes a view and its current block to another view and block. -/
def LaysArms (label : String → Nat) (labels : List String) (a : Arms) (targets : Targets)
    (dispatch : Nat) (current : Option Nat) (v : View) (last : Option Nat) (v' : View) : Prop :=
  v.Fits → v.Open current → dispatch < v.size → dispatch ∉ current →
    LainArms label labels a targets dispatch current v last v'

section

variable {label : String → Nat} {labels : List String} {a ahead inside : Arms} {inner rest : Stmts}
  {targets : Targets} {dispatch : Nat} {current last middle : Option Nat} {v v₁ v₂ : View}
  {M : Shape} {X : Set Nat} {test : List Nat} {name : String}

theorem LainArms.kept (h : LainArms label labels a targets dispatch current v last v₁)
    (hM : v₁.Kept ({b | b ∈ last} ∪ X) M) :
    v.Kept ({b | b ∈ current} ∪ {dispatch} ∪ X) M := by
  refine (hM.of_grows h.grows).mono ?_
  rintro b hb (hm | hm | hm)
  · exact .inl hm
  · exact (h.recent b hm).elim (fun hc => .inl (.inl hc)) fun hle => absurd hb (Nat.not_lt.mpr hle)
  · exact .inr hm

theorem LaysArms.done : LaysArms label labels .done targets dispatch current v current v :=
  fun _ ho _ _ => ⟨(Grows.refl v).mono fun _ _ hm => hm.elim, ho, fun _ hb => .inl hb, rfl, rfl,
    ∅, (Set.union_empty _).symm, fun _ _ _ _ _ => ⟨rfl, rfl⟩⟩

/-- A label of a switch starts a block; control comes from the switch and from the arm before. -/
theorem LaysArms.enter {e : Event}
    (hahead : LaysArms label labels ahead targets dispatch (some v.size)
      ((v.fresh.connect dispatch ([e], v.size)).link current v.size) last v₁)
    (hlabels : a.labels = ahead.labels)
    (hplaced : ∀ next, a.placed labels next = ahead.placed labels next)
    (hlaid : ∀ {M : Shape} {p q W b}, M.Enters p b →
      M.LaidArms labels ahead targets (some (b, 0)) q W →
      M.LaidArms labels a targets p q (insert ([e], b) W)) :
    LaysArms label labels a targets dispatch current v last v₁ := by
  intro hv ho hd hn
  have hlt := ho.lt
  have hconnect : Grows (∅ ∪ {dispatch}) v (v.fresh.connect dispatch ([e], v.size)) :=
    grows_fresh.trans (grows_connect (by grind))
  have hlink : Grows {b | b ∈ current} (v.fresh.connect dispatch ([e], v.size))
      ((v.fresh.connect dispatch ([e], v.size)).link current v.size) := grows_link (by grind)
  replace hahead := hahead (hlink.fits (hconnect.fits hv))
    ((hv.open_fresh.connect (by grind)).link (by grind)) (by grind) (by grind)
  have hsize := hahead.grows.size
  obtain ⟨W, hW, hlaidAhead⟩ := hahead.laid
  refine ⟨?_, hahead.opens, fun b hb => ?_, ?_, ?_, insert ([e], v.size) W, ?_,
    fun M hM hl hp hk => ?_⟩
  · exact ((hconnect.trans hlink).trans hahead.grows).mono (by grind)
  · have := hahead.recent b hb
    grind
  · rw [hahead.tokens, tokens_link, tokens_connect, tokens_fresh]
  · rw [hahead.names, names_link, names_connect, names_fresh, hlabels]
  · rw [hW, ways_link_of_not_mem hn, ways_connect_self, ways_fresh, Set.union_insert,
      Set.insert_union]
  · have hk₁ := hahead.kept hk
    have hrest := hlaidAhead M hM hl (hplaced _ ▸ hp) (hk.mono (by grind))
    rw [place_link, place_connect, place_fresh, hv.place_new] at hrest
    exact hlaid (hk₁.enters (ho.fresh.connect (by grind)) (by grind)) hrest

theorem LaysArms.caseOf
    (hahead : LaysArms label labels ahead targets dispatch (some v.size)
      ((v.fresh.connect dispatch ([.chose (some name)], v.size)).link current v.size) last v₁) :
    LaysArms label labels (.caseOf name ahead) targets dispatch current v last v₁ :=
  hahead.enter rfl (fun _ => rfl) fun hp hrest => ⟨_, _, rfl, hp, hrest⟩

theorem LaysArms.default
    (hahead : LaysArms label labels ahead targets dispatch (some v.size)
      ((v.fresh.connect dispatch ([.chose none], v.size)).link current v.size) last v₁) :
    LaysArms label labels (.default ahead) targets dispatch current v last v₁ :=
  hahead.enter rfl (fun _ => rfl) fun hp hrest => ⟨_, _, rfl, hp, hrest⟩

theorem LaysArms.stmts
    (hinner : Lays label labels inner targets (some (current.getD v.size)) (v.here current) middle v₁)
    (hahead : LaysArms label labels ahead targets dispatch middle v₁ last v₂) :
    LaysArms label labels (.stmts inner ahead) targets dispatch current v last v₂ := by
  intro hv ho hd hn
  have hlt := ho.lt
  have hhere : Grows ∅ v (v.here current) := grows_here
  have hmem : current.getD v.size ∈ current ∨ v.size ≤ current.getD v.size := mem_here
  have hopen := hv.open_here ho
  replace hinner := hinner (hhere.fits hv) hopen
  have hmiddle := hinner.last_mem
  have hsize₀ := hhere.size
  have hsize := hinner.size_le
  have hd₁ : dispatch ∉ some (current.getD v.size) := by grind
  replace hahead := hahead (hinner.extend.grows.fits (hhere.fits hv)) hinner.extend.opens (by grind)
    (by grind)
  obtain ⟨W, hW, hlaid⟩ := hahead.laid
  refine ⟨?_, hahead.opens, fun b hb => ?_, ?_, ?_, W, ?_, fun M hM hl hp hk => ?_⟩
  · exact ((hhere.trans hinner.extend.grows).trans hahead.grows).mono (by grind)
  · have := hahead.recent b hb
    grind
  · rw [hahead.tokens, hinner.extend.grows.tokens _ (by grind) hd₁, tokens_here]
  · rw [hahead.names, hinner.names, names_here, Arms.labels, List.reverse_append, List.append_assoc]
  · rw [hW, hinner.extend.grows.ways _ (by grind) hd₁, hhere.ways _ hd id]
  · rw [Arms.placed, Bool.and_eq_true] at hp
    have hk₁ := hahead.kept hk
    have hinnerLaid := hinner.laid M hM (hl ▸ hp.1) (hk₁.mono (by grind))
    have haheadLaid := hlaid M hM hl hp.2 (hk.mono (by grind))
    refine ⟨_, _, fun x hx => ?_, hinnerLaid, haheadLaid⟩
    rw [place_here hx, tokens_here]

/-- A switch without a default may go behind itself. -/
def View.pass (v : View) (hasDefault : Bool) (dispatch after : Nat) : View :=
  if hasDefault then v else v.connect dispatch ([.chose none], after)

@[simp, grind =] theorem View.size_pass {hasDefault : Bool} {after : Nat} :
    (v.pass hasDefault dispatch after).size = v.size := by
  cases hasDefault <;> rfl

@[simp] theorem View.tokens_pass {hasDefault : Bool} {after : Nat} :
    (v.pass hasDefault dispatch after).tokens = v.tokens := by
  cases hasDefault <;> rfl

@[simp] theorem View.names_pass {hasDefault : Bool} {after : Nat} :
    (v.pass hasDefault dispatch after).names = v.names := by
  cases hasDefault <;> rfl

theorem View.ways_pass {hasDefault : Bool} {after : Nat} :
    (v.pass hasDefault dispatch after).ways dispatch =
      v.ways dispatch ∪ if hasDefault then ∅ else {([.chose none], after)} := by
  cases hasDefault with
  | true => exact (Set.union_empty _).symm
  | false => exact ways_connect_self.trans Set.union_singleton.symm

theorem View.grows_pass {hasDefault : Bool} {after : Nat} (hd : dispatch < v.size) :
    Grows {dispatch} v (v.pass hasDefault dispatch after) := by
  cases hasDefault with
  | true => exact (Grows.refl v).mono fun _ _ hm => hm.elim
  | false => exact grows_connect hd

theorem Lays.switch
    (hinside : LaysArms label labels inside ⟨some (v.size + 1), targets.next⟩ v.size none
      (v.behind current test).fresh middle v₁)
    (hrest : Lays label labels rest targets (some (v.size + 1))
      ((v₁.link middle (v.size + 1)).pass inside.hasDefault v.size (v.size + 1)) last v₂) :
    Lays label labels (.switch test inside rest) targets current v last v₂ := by
  intro hv ho
  have hlt := ho.lt
  have hbehind : Grows {b | b ∈ current} v (v.behind current test) := grows_behind ho
  have hfits : (v.behind current test).Fits := hbehind.fits hv
  have hafter := hfits.open_fresh
  have hplace := hfits.place_new
  rw [size_behind] at hafter hplace
  replace hinside := hinside (grows_fresh.fits hfits) (by simp [View.Open]) (by grind) (by grind)
  have hsize := hinside.grows.size
  have hmiddle := hinside.opens.lt
  have hmiddle' := hinside.recent
  have hlink : Grows {b | b ∈ middle} v₁ (v₁.link middle (v.size + 1)) := grows_link (by grind)
  have hpass : Grows {v.size} (v₁.link middle (v.size + 1))
      ((v₁.link middle (v.size + 1)).pass inside.hasDefault v.size (v.size + 1)) :=
    grows_pass (by grind)
  have hafter₁ : v₁.Open (some (v.size + 1)) := hafter.grows hinside.grows (by grind)
  have hfits₁ : v₁.Fits := hinside.grows.fits (grows_fresh.fits hfits)
  replace hrest := hrest (hpass.fits (hlink.fits hfits₁))
    ((hafter₁.link (by grind)).grows hpass (by grind))
  obtain ⟨W, hW, hlaid⟩ := hinside.laid
  refine ⟨hrest.extend.of_grows ?_ ?_, ?_, fun M hM hp hk => ?_⟩
  · refine ((((hbehind.trans grows_fresh).trans hinside.grows).trans hlink).trans hpass).mono ?_
    grind
  · grind
  · rw [hrest.names, names_pass, names_link, hinside.names, names_fresh, names_behind, Stmts.labels,
      List.reverse_append, List.append_assoc]
  · rw [Stmts.placed, Bool.and_eq_true] at hp
    have hk₃ := hrest.kept hk
    have hk₂ := hk₃.of_grows hpass
    have hk₁ : v₁.Kept ({b | b ∈ middle} ∪ ({v.size, v.size + 1} ∪ v.others current)) M :=
      (hk₂.of_grows hlink).mono (by grind)
    have hk₀ := (hinside.kept hk₁).of_grows grows_fresh
    have hinsideLaid := hlaid M hM rfl hp.1 (hk₁.mono (by grind))
    have hrestLaid := hrest.laid M hM hp.2 (hk.mono (by grind))
    rw [hpass.place (by grind), place_link, hinside.grows.place (by grind), place_fresh, hplace]
      at hrestLaid
    refine ⟨v.size, v.size + 1, _, W, hk₀.enters_behind ho (by grind),
      hk₃.start (by grind) (by grind) ?_ ?_, hinsideLaid, hk₂.enters hinside.opens (by grind),
      hrestLaid⟩
    · rw [tokens_pass, tokens_link, hinside.tokens, tokens_fresh, tokens_behind hv]
    · rw [ways_pass, ways_link_of_not_mem (by grind), hW, ways_fresh, ways_behind hv ho,
        Set.empty_union]

end

end SignFlow

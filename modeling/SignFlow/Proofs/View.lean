import Mathlib.Data.Set.Insert
import Mathlib.Logic.Function.Basic
import SignFlow.Proofs.Shape

/-! What a layout in the making says about the final graph.

A view of a layout keeps the tokens of its blocks and the ways out of them, with waiting jumps already
led to their labels. Laying out statements only touches the current block and new ones, so what a
view says about any other block is final. -/

namespace SignFlow

@[ext] structure View where
  size : Nat
  tokens : Nat → List Nat
  ways : Nat → Set (List Event × Nat)
  names : List (String × Nat)

namespace View

variable {v v₁ v₂ : View} {M : Shape} {own own₁ own₂ : Set Nat} {b d : Nat} {current : Option Nat}
  {tokens : List Nat} {w : List Event × Nat} {W : Set (List Event × Nat)} {name : String}

def fresh (v : View) : View := { v with size := v.size + 1 }

def connect (v : View) (b : Nat) (w : List Event × Nat) : View :=
  { v with ways := Function.update v.ways b (insert w (v.ways b)) }

/-- Connects a block that may be missing, silently. -/
def link (v : View) (current : Option Nat) (d : Nat) : View :=
  current.elim v fun b => v.connect b ([], d)

/-- Adds tokens to a block, if it is there. -/
def append (v : View) (b : Nat) (tokens : List Nat) : View :=
  { v with tokens := fun c => if b = c ∧ b < v.size then v.tokens c ++ tokens else v.tokens c }

def mark (v : View) (name : String) (b : Nat) : View := { v with names := (name, b) :: v.names }

@[simp, grind =] theorem size_fresh : v.fresh.size = v.size + 1 := rfl
@[simp] theorem tokens_fresh : v.fresh.tokens = v.tokens := rfl
@[simp] theorem ways_fresh : v.fresh.ways = v.ways := rfl
@[simp] theorem names_fresh : v.fresh.names = v.names := rfl

@[simp, grind =] theorem size_connect : (v.connect b w).size = v.size := rfl
@[simp] theorem tokens_connect : (v.connect b w).tokens = v.tokens := rfl
@[simp] theorem names_connect : (v.connect b w).names = v.names := rfl

@[simp] theorem ways_connect_self : (v.connect b w).ways b = insert w (v.ways b) := by
  simp [connect]

@[simp] theorem ways_connect_of_ne (h : d ≠ b) : (v.connect b w).ways d = v.ways d := by
  simp [connect, h]

@[simp, grind =] theorem size_link : (v.link current d).size = v.size := by cases current <;> rfl
@[simp] theorem tokens_link : (v.link current d).tokens = v.tokens := by cases current <;> rfl
@[simp] theorem names_link : (v.link current d).names = v.names := by cases current <;> rfl

theorem ways_link (h : b ∈ current) : (v.link current d).ways b = insert ([], d) (v.ways b) := by
  rw [Option.mem_def.mp h]
  exact ways_connect_self

@[simp] theorem ways_link_of_not_mem (h : b ∉ current) : (v.link current d).ways b = v.ways b := by
  cases current with
  | none => rfl
  | some c => exact ways_connect_of_ne fun hb => h (hb ▸ rfl)

@[simp, grind =] theorem size_append : (v.append b tokens).size = v.size := rfl
@[simp] theorem ways_append : (v.append b tokens).ways = v.ways := rfl
@[simp] theorem names_append : (v.append b tokens).names = v.names := rfl

theorem tokens_append_self (h : b < v.size) :
    (v.append b tokens).tokens b = v.tokens b ++ tokens := by
  simp [append, h]

@[simp] theorem tokens_append_of_ne (h : d ≠ b) : (v.append b tokens).tokens d = v.tokens d := by
  simp [append, h.symm]

@[simp, grind =] theorem size_mark : (v.mark name b).size = v.size := rfl
@[simp] theorem tokens_mark : (v.mark name b).tokens = v.tokens := rfl
@[simp] theorem ways_mark : (v.mark name b).ways = v.ways := rfl
@[simp] theorem names_mark : (v.mark name b).names = (name, b) :: v.names := rfl

/-- Nothing is said about blocks that are not there yet. -/
def Fits (v : View) : Prop := ∀ b, v.size ≤ b → v.tokens b = [] ∧ v.ways b = ∅

/-- The block, if there is one, still has no way out. -/
def Open (v : View) (current : Option Nat) : Prop := ∀ b ∈ current, b < v.size ∧ v.ways b = ∅

/-- Blocks are only added, and of the blocks there are, only the owned ones change. -/
structure Grows (own : Set Nat) (v v' : View) : Prop where
  size : v.size ≤ v'.size
  tokens : ∀ b < v.size, b ∉ own → v'.tokens b = v.tokens b
  ways : ∀ b < v.size, b ∉ own → v'.ways b = v.ways b
  before : ∀ b < v.size, v.tokens b <+: v'.tokens b
  names : v.names ⊆ v'.names
  fits : v.Fits → v'.Fits

theorem Grows.refl (v : View) : Grows ∅ v v :=
  ⟨le_rfl, fun _ _ _ => rfl, fun _ _ _ => rfl, fun _ _ => List.prefix_rfl, List.Subset.refl _, id⟩

theorem Grows.trans (h₁ : Grows own₁ v v₁) (h₂ : Grows own₂ v₁ v₂) : Grows (own₁ ∪ own₂) v v₂ where
  size := h₁.size.trans h₂.size
  tokens b hb ho := by
    rw [h₂.tokens b (hb.trans_le h₁.size) fun hm => ho (.inr hm),
      h₁.tokens b hb fun hm => ho (.inl hm)]
  ways b hb ho := by
    rw [h₂.ways b (hb.trans_le h₁.size) fun hm => ho (.inr hm),
      h₁.ways b hb fun hm => ho (.inl hm)]
  before b hb := (h₁.before b hb).trans (h₂.before b (hb.trans_le h₁.size))
  names := List.Subset.trans h₁.names h₂.names
  fits hv := h₂.fits (h₁.fits hv)

theorem Grows.mono (h : Grows own₁ v v₁) (ho : ∀ b < v.size, b ∈ own₁ → b ∈ own) : Grows own v v₁ :=
  { h with
    tokens := fun b hb hn => h.tokens b hb fun hm => hn (ho b hb hm)
    ways := fun b hb hn => h.ways b hb fun hm => hn (ho b hb hm) }

theorem grows_fresh : Grows ∅ v v.fresh where
  size := Nat.le_succ _
  tokens _ _ _ := rfl
  ways _ _ _ := rfl
  before _ _ := List.prefix_rfl
  names := List.Subset.refl _
  fits hv b hb := hv b (Nat.le_of_succ_le hb)

theorem grows_connect (hb : b < v.size) : Grows {b} v (v.connect b w) where
  size := le_rfl
  tokens _ _ _ := rfl
  ways _ _ ho := ways_connect_of_ne ho
  before _ _ := List.prefix_rfl
  names := List.Subset.refl _
  fits hv c hc := by
    rw [tokens_connect, ways_connect_of_ne (hb.trans_le hc).ne']
    exact hv c hc

theorem grows_link (h : ∀ b ∈ current, b < v.size) : Grows {b | b ∈ current} v (v.link current d) := by
  cases current with
  | none => exact (Grows.refl v).mono fun _ _ hm => hm.elim
  | some c => exact (grows_connect (h c rfl)).mono fun b _ hm => (Set.mem_singleton_iff.mp hm) ▸ rfl

theorem grows_append (hb : b < v.size) : Grows {b} v (v.append b tokens) where
  size := le_rfl
  tokens _ _ ho := tokens_append_of_ne ho
  ways _ _ _ := rfl
  before c _ := by
    by_cases hc : c = b
    · subst hc
      rw [tokens_append_self hb]
      exact List.prefix_append _ _
    · exact (tokens_append_of_ne hc).symm ▸ List.prefix_rfl
  names := List.Subset.refl _
  fits hv c hc := by
    rw [ways_append, tokens_append_of_ne (hb.trans_le hc).ne']
    exact hv c hc

theorem grows_mark : Grows ∅ v (v.mark name b) where
  size := le_rfl
  tokens _ _ _ := rfl
  ways _ _ _ := rfl
  before _ _ := List.prefix_rfl
  names := List.subset_cons_self _ _
  fits := id

/-- The shape agrees with the view on all blocks but the owned ones, which may have more tokens. -/
structure Kept (own : Set Nat) (v : View) (M : Shape) : Prop where
  tokens : ∀ b < v.size, b ∉ own → M.tokens b = v.tokens b
  ways : ∀ b < v.size, b ∉ own → M.ways b = v.ways b
  before : ∀ b < v.size, v.tokens b <+: M.tokens b
  names : ∀ x ∈ v.names, M.label x.1 = x.2

theorem Kept.of_grows (h : Kept own₂ v₁ M) (hg : Grows own₁ v v₁) : Kept (own₁ ∪ own₂) v M where
  tokens b hb hn := by
    rw [h.tokens b (hb.trans_le hg.size) fun hm => hn (.inr hm), hg.tokens b hb fun hm => hn (.inl hm)]
  ways b hb hn := by
    rw [h.ways b (hb.trans_le hg.size) fun hm => hn (.inr hm), hg.ways b hb fun hm => hn (.inl hm)]
  before b hb := (hg.before b hb).trans (h.before b (hb.trans_le hg.size))
  names x hx := h.names x (hg.names hx)

theorem Kept.mono (h : Kept own₁ v M) (ho : ∀ b < v.size, b ∈ own₁ → b ∈ own) : Kept own v M :=
  { h with
    tokens := fun b hb hn => h.tokens b hb fun hm => hn (ho b hb hm)
    ways := fun b hb hn => h.ways b hb fun hm => hn (ho b hb hm) }

theorem Kept.start (h : Kept own v M) (hb : b < v.size) (ho : b ∉ own) (ht : v.tokens b = tokens)
    (hW : v.ways b = W) : M.At (b, 0) tokens W :=
  .start ((h.tokens b hb ho).trans ht) ((h.ways b hb ho).trans hW)

/-- The place where control is after what the view has. -/
def place (v : View) (current : Option Nat) : Option Place :=
  current.map fun b => (b, (v.tokens b).length)

@[simp] theorem place_fresh : v.fresh.place current = v.place current := rfl

@[simp] theorem place_connect : (v.connect b w).place current = v.place current := rfl

@[simp] theorem place_link {other : Option Nat} :
    (v.link other d).place current = v.place current := by
  simp [place]

theorem place_append (h : b ∉ current) : (v.append b tokens).place current = v.place current := by
  cases current with
  | none => rfl
  | some c => simp [place, tokens_append_of_ne fun hc : c = b => h (hc ▸ rfl)]

theorem Grows.place (h : Grows own v v₁) (hc : ∀ b ∈ current, b < v.size ∧ b ∉ own) :
    v₁.place current = v.place current := by
  cases current with
  | none => rfl
  | some b => simp [View.place, h.tokens b (hc b rfl).1 (hc b rfl).2]

/-- A block that ends with some tokens and a silent way. -/
theorem Kept.at_end (h : Kept own ((v.append b tokens).connect b ([], d)) M)
    (hb : v.Open (some b)) (ho : b ∉ own) : M.At (b, (v.tokens b).length) tokens {([], d)} := by
  obtain ⟨hlt, hW⟩ := hb b rfl
  refine ⟨⟨v.tokens b, ?_, rfl⟩, ?_⟩
  · rw [h.tokens b hlt ho, tokens_connect, tokens_append_self hlt]
  · rw [h.ways b hlt ho, ways_connect_self, ways_append, hW, insert_empty_eq]

theorem Kept.enters (h : Kept own (v.link current d) M) (hc : v.Open current)
    (ho : ∀ b ∈ current, b ∉ own) : M.Enters (v.place current) d := by
  cases current with
  | none => exact fun x hx => absurd hx (by simp [place])
  | some b =>
    obtain ⟨hb, hW⟩ := hc b rfl
    refine Shape.At.enters ⟨⟨v.tokens b, ?_, rfl⟩, ?_⟩
    · rw [h.tokens b (by simpa using hb) (ho b rfl), tokens_link, List.append_nil]
    · rw [h.ways b (by simpa using hb) (ho b rfl), ways_link rfl, hW, insert_empty_eq]

theorem Fits.open_fresh (h : v.Fits) : v.fresh.Open (some v.size) := by
  intro b hb
  obtain rfl := Option.mem_some.mp hb
  exact ⟨Nat.lt_succ_self _, (h v.size le_rfl).2⟩

theorem Fits.place_new (h : v.Fits) : v.place (some v.size) = some (v.size, 0) := by
  simp [place, (h v.size le_rfl).1]

theorem Open.lt (h : v.Open current) : ∀ b ∈ current, b < v.size := fun b hb => (h b hb).1

theorem Open.fresh (h : v.Open current) : v.fresh.Open current :=
  fun b hb => ⟨(h b hb).1.trans (Nat.lt_succ_self _), (h b hb).2⟩

theorem Open.connect (h : v.Open current) (hb : b ∉ current) : (v.connect b w).Open current := by
  intro c hc
  have hne : c ≠ b := fun he => hb (he ▸ hc)
  rw [size_connect, ways_connect_of_ne hne]
  exact h c hc

theorem Open.link {other : Option Nat} (h : v.Open current) (hb : ∀ b ∈ other, b ∉ current) :
    (v.link other d).Open current := by
  intro c hc
  rw [size_link, ways_link_of_not_mem fun hm => hb c hm hc]
  exact h c hc

theorem Open.append (h : v.Open current) : (v.append b tokens).Open current := h

/-- An open block stays open where it is not owned. -/
theorem Open.grows (h : v.Open current) (hg : Grows own v v₁) (ho : ∀ b ∈ current, b ∉ own) :
    v₁.Open current := by
  intro b hb
  obtain ⟨hlt, hW⟩ := h b hb
  exact ⟨hlt.trans_le hg.size, (hg.ways b hlt (ho b hb)).trans hW⟩

/-- A new block behind the current one, holding the tokens given. -/
def behind (v : View) (current : Option Nat) (tokens : List Nat) : View :=
  (v.fresh.link current v.size).append v.size tokens

@[simp, grind =] theorem size_behind : (v.behind current tokens).size = v.size + 1 := by simp [behind]
@[simp] theorem names_behind : (v.behind current tokens).names = v.names := by simp [behind]

theorem tokens_behind (hv : v.Fits) : (v.behind current tokens).tokens v.size = tokens := by
  rw [behind, tokens_append_self (by simp), tokens_link, tokens_fresh, (hv v.size le_rfl).1,
    List.nil_append]

@[simp] theorem tokens_behind_of_ne (h : b ≠ v.size) :
    (v.behind current tokens).tokens b = v.tokens b := by
  simp [behind, h]

theorem place_behind (hv : v.Fits) :
    (v.behind current tokens).place (some v.size) = some (v.size, tokens.length) := by
  simp [place, tokens_behind hv]

theorem ways_behind_of_mem (h : b ∈ current) :
    (v.behind current tokens).ways b = insert ([], v.size) (v.ways b) := by
  simp [behind, ways_link h]

theorem ways_behind_of_not_mem (h : b ∉ current) :
    (v.behind current tokens).ways b = v.ways b := by
  simp [behind, h]

theorem ways_behind (hv : v.Fits) (hc : v.Open current) :
    (v.behind current tokens).ways v.size = ∅ := by
  have hn : v.size ∉ current := fun hm => (hc _ hm).1.false
  simp [behind, hn, (hv v.size le_rfl).2]

theorem Fits.open_behind (hv : v.Fits) (hc : v.Open current) :
    (v.behind current tokens).Open (some v.size) := by
  intro b hb
  obtain rfl := Option.mem_some.mp hb
  exact ⟨by simp, ways_behind hv hc⟩

theorem grows_behind (hc : v.Open current) :
    Grows {b | b ∈ current} v (v.behind current tokens) := by
  have hlink : Grows {b | b ∈ current} v.fresh (v.fresh.link current v.size) :=
    grows_link fun b hb => (hc b hb).1.trans (Nat.lt_succ_self _)
  have happend : Grows {v.size} (v.fresh.link current v.size) (v.behind current tokens) :=
    grows_append (by simp)
  refine ((grows_fresh.trans hlink).trans happend).mono ?_
  rintro b hb ((hm | hm) | hm)
  · exact hm.elim
  · exact hm
  · exact absurd hm hb.ne

theorem Kept.enters_behind (h : Kept own (v.behind current tokens) M) (hc : v.Open current)
    (ho : ∀ b ∈ current, b ∉ own) : M.Enters (v.place current) v.size := by
  have hlink : Kept ({v.size} ∪ own) (v.fresh.link current v.size) M :=
    h.of_grows (grows_append (by simp))
  refine hlink.enters (fun b hb => ⟨(hc b hb).1.trans (Nat.lt_succ_self _), (hc b hb).2⟩) ?_
  rintro b hb (hm | hm)
  · exact (hc b hb).1.ne hm
  · exact ho b hb hm

/-- The current block, or a new one that control cannot reach. -/
def here (v : View) (current : Option Nat) : View := current.elim v.fresh fun _ => v

@[simp] theorem tokens_here : (v.here current).tokens = v.tokens := by cases current <;> rfl
@[simp] theorem names_here : (v.here current).names = v.names := by cases current <;> rfl

theorem grows_here : Grows ∅ v (v.here current) := by
  cases current with
  | none => exact grows_fresh
  | some b => exact .refl v

theorem Fits.open_here (hv : v.Fits) (hc : v.Open current) :
    (v.here current).Open (some (current.getD v.size)) := by
  cases current with
  | none => exact hv.open_fresh
  | some b => exact hc

theorem mem_here : current.getD v.size ∈ current ∨ v.size ≤ current.getD v.size := by
  cases current with
  | none => exact .inr le_rfl
  | some b => exact .inl rfl

theorem place_here {x : Place} (hx : x ∈ v.place current) :
    x = (current.getD v.size, (v.tokens (current.getD v.size)).length) := by
  cases current with
  | none => simp [place] at hx
  | some b => exact (Option.some.inj hx).symm

/-- Ends the current block, if there is one, with a jump. -/
def jump (v : View) (current : Option Nat) (pos d : Nat) : View :=
  current.elim v fun b => (v.append b [pos]).connect b ([], d)

@[simp] theorem names_jump {pos : Nat} : (v.jump current pos d).names = v.names := by
  cases current <;> rfl

theorem grows_jump {pos : Nat} (hc : v.Open current) :
    Grows {b | b ∈ current} v (v.jump current pos d) := by
  cases current with
  | none => exact (Grows.refl v).mono fun _ _ hm => hm.elim
  | some b =>
    have hb := (hc b rfl).1
    refine ((grows_append hb).trans (grows_connect hb)).mono ?_
    rintro c _ (rfl | rfl) <;> rfl

theorem Kept.at_jump {pos : Nat} {x : Place} (h : Kept own (v.jump current pos d) M)
    (hc : v.Open current) (ho : ∀ b ∈ current, b ∉ own) (hx : x ∈ v.place current) :
    M.At x [pos] {([], d)} := by
  cases current with
  | none => simp [place] at hx
  | some b =>
    obtain rfl := Option.some.inj hx
    exact h.at_end hc (ho b rfl)

/-- The blocks there are, but for the current one. -/
def others (v : View) (current : Option Nat) : Set Nat := {b | b < v.size ∧ b ∉ current}

@[grind =] theorem mem_others : b ∈ v.others current ↔ b < v.size ∧ b ∉ current := Iff.rfl

/-- Growing from the current block to the last: only the current block and new ones are touched. -/
structure Extends (current : Option Nat) (v : View) (last : Option Nat) (v' : View) : Prop where
  grows : Grows {b | b ∈ current} v v'
  opens : v'.Open last
  recent : ∀ b ∈ last, b ∈ current ∨ v.size ≤ b

theorem Extends.refl (h : v.Open current) : Extends current v current v :=
  ⟨(Grows.refl v).mono fun _ _ hm => hm.elim, h, fun _ hb => .inl hb⟩

theorem Extends.of_grows {middle last : Option Nat} (h : Extends middle v₁ last v₂)
    (hg : Grows {b | b ∈ current} v v₁) (hm : ∀ b ∈ middle, b ∈ current ∨ v.size ≤ b) :
    Extends current v last v₂ where
  grows := by
    refine (hg.trans h.grows).mono ?_
    rintro b hb (hc | hc)
    · exact hc
    · exact (hm b hc).resolve_right (Nat.not_le.mpr hb)
  opens := h.opens
  recent b hb := by
    rcases h.recent b hb with hc | hc
    · exact hm b hc
    · exact .inr (hg.size.trans hc)

end View

end SignFlow

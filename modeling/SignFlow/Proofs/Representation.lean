import Mathlib.Data.List.TFAE
import SignFlow.Dataflow.Domain
import SignFlow.Store.Refine
import SignFlow.Proofs.StoreOrder

/-! The one form of a store.

A store stands for knowledge: control cannot arrive, or every key has a sign. The operations on stores are
carried out on knowledge too, where there are no bindings to keep in order. Whatever operations are carried
out, on whatever stores they have given before, each store represents what the same operations give on
knowledge, and there is one store for each. -/

namespace SignFlow

/-- What can be known of all variables at once. -/
inductive Knowledge
  | impossible
  | signs (f : Key → Sign)

namespace Knowledge

def isPossible : Knowledge → Bool
  | impossible => false
  | signs _ => true

def sign : Knowledge → Key → Sign
  | impossible, _ => .bottom
  | signs f, k => f k

def bind : Knowledge → Key → Sign → Knowledge
  | impossible, _, _ => impossible
  | signs f, k, v => if v = .bottom then impossible else signs (Function.update f k v)

def forget : Knowledge → Key → Knowledge
  | impossible, _ => impossible
  | signs f, k => signs (Function.update f k .top)

def join : Knowledge → Knowledge → Knowledge
  | impossible, m => m
  | m, impossible => m
  | signs f, signs g => signs fun k => (f k).join (g k)

def joinAll (all : List Knowledge) : Knowledge := all.foldl join impossible

def absorb : Knowledge → Knowledge → Knowledge
  | impossible, _ => impossible
  | signs f, m => (signs f).join m

/-- The last sign that the pairs give to the key. -/
def lastSign? (k : Key) : List (Key × Sign) → Option Sign
  | [] => none
  | p :: rest => (lastSign? k rest).or (if p.1 = k then some p.2 else none)

def ofBindings (pairs : List (Key × Sign)) : Knowledge :=
  if pairs.any fun p => lastSign? p.1 pairs = some .bottom then impossible
  else signs fun k => (lastSign? k pairs).getD .top

def bindAt (m : Knowledge) (k : Option Key) (v : Sign) : Knowledge := k.elim m (m.bind · v)

def outcome (m : Knowledge) (leftKey : Option Key) (left : Sign) (rightKey : Option Key) (right : Sign) :
    Knowledge :=
  if left = .bottom ∨ right = .bottom then impossible
  else (m.bindAt leftKey left).bindAt rightKey right

/-- What is known where a comparison holds, and where it does not. -/
def refine (c : Comparison) (leftKey : Option Key) (left : Fact) (rightKey : Option Key) (right : Fact)
    (m : Knowledge) : Knowledge × Knowledge :=
  left.elim (m, m) fun l => right.elim (m, m) fun r =>
    let o := c.outcomes l r
    (m.outcome leftKey o.trueLeft rightKey o.trueRight,
      m.outcome leftKey o.falseLeft rightKey o.falseRight)

theorem lastSign?_mem {k : Key} {v : Sign} {pairs : List (Key × Sign)}
    (h : lastSign? k pairs = some v) : (k, v) ∈ pairs := by
  induction pairs with
  | nil => cases h
  | cons p rest ih =>
    rcases Option.or_eq_some_iff.mp h with h | ⟨-, h⟩
    · exact List.mem_cons_of_mem _ (ih h)
    · obtain ⟨hk, hv⟩ := Option.ite_none_right_eq_some.mp h
      rw [← hk, ← Option.some.inj hv]
      exact List.mem_cons_self

theorem lastSign?_eq_none {k : Key} {pairs : List (Key × Sign)} :
    lastSign? k pairs = none ↔ ∀ p ∈ pairs, p.1 ≠ k := by
  induction pairs with
  | nil => simp [lastSign?]
  | cons p rest ih => simp [lastSign?, ih, and_comm]

/-- Binding pair after pair: the last sign of each key counts, and one impossible sign is enough. -/
theorem foldl_bind (f : Key → Sign) (pairs : List (Key × Sign)) :
    pairs.foldl (fun m p => m.bind p.1 p.2) (signs f) =
      if pairs.any fun p => p.2 = .bottom then impossible
      else signs fun k => (lastSign? k pairs).getD (f k) := by
  have dead : ∀ rest : List (Key × Sign),
      rest.foldl (fun m p => m.bind p.1 p.2) impossible = impossible := by
    intro rest
    induction rest with
    | nil => rfl
    | cons p rest ih => exact ih
  induction pairs generalizing f with
  | nil => rfl
  | cons p rest ih =>
    rw [List.foldl_cons, List.any_cons, bind]
    by_cases hp : p.2 = .bottom
    · simp [hp, dead]
    · rw [if_neg hp, ih]
      simp only [hp, decide_false, Bool.false_or]
      refine if_congr Iff.rfl rfl (congrArg signs (funext fun k => ?_))
      rw [lastSign?]
      cases lastSign? k rest with
      | some v => rfl
      | none =>
        rw [Option.none_or, Option.getD_none, Function.update_apply]
        by_cases hk : p.1 = k
        · rw [if_pos hk, if_pos hk.symm, Option.getD_some]
        · rw [if_neg hk, if_neg (Ne.symm hk), Option.getD_none]

end Knowledge

namespace Store

open Knowledge

variable {s t : Store}

def knowledge : Store → Knowledge
  | unreachable => .impossible
  | reachable f => .signs (reachable f).lookup

@[simp] theorem isPossible_knowledge : s.knowledge.isPossible = s.isReachable := by cases s <;> rfl

@[simp] theorem sign_knowledge (k : Key) : s.knowledge.sign k = s.lookup k := by cases s <;> rfl

theorem knowledge_bind (s : Store) (k : Key) (v : Sign) : (s.bind k v).knowledge = s.knowledge.bind k v := by
  cases s with
  | unreachable => rfl
  | reachable f =>
    by_cases hv : v = .bottom
    · simp [bind, knowledge, Knowledge.bind, hv]
    · have hsigns : ((reachable f).bind k v).lookup = Function.update (reachable f).lookup k v := by
        funext l
        rw [lookup_bind hv, Function.update_apply]
      simpa [bind, knowledge, Knowledge.bind, hv] using hsigns

theorem knowledge_forget (s : Store) (k : Key) : (s.forget k).knowledge = s.knowledge.forget k := by
  cases s with
  | unreachable => rfl
  | reachable f =>
    refine congrArg signs (funext fun l => ?_)
    rw [Function.update_apply]
    exact lookup_forget f k l

theorem knowledge_join (s t : Store) : (s.join t).knowledge = s.knowledge.join t.knowledge := by
  cases s with
  | unreachable => rfl
  | reachable f =>
    cases t with
    | unreachable => rfl
    | reachable g => exact congrArg signs (funext fun k => lookup_join (reachable f) (reachable g) k)

theorem knowledge_merge (stores : List Store) :
    (merge stores).knowledge = joinAll (stores.map knowledge) := by
  rw [merge, joinAll, List.foldl_map]
  exact (List.foldl_hom knowledge fun s t => (knowledge_join s t).symm).symm

theorem knowledge_absorb (s t : Store) : (s.absorb t).knowledge = s.knowledge.absorb t.knowledge := by
  cases s with
  | unreachable => rw [absorb_unreachable]; rfl
  | reachable f => rw [absorb_eq_join rfl, knowledge_join]; rfl

theorem lastBindings_cons (p : Key × Sign) (rest : List (Key × Sign)) :
    lastBindings (p :: rest) =
      if (lastBindings rest).any fun q => q.1 = p.1 then lastBindings rest
      else p :: lastBindings rest := rfl

theorem lastSign?_lastBindings (k : Key) (pairs : List (Key × Sign)) :
    lastSign? k (lastBindings pairs) = lastSign? k pairs := by
  induction pairs with
  | nil => rfl
  | cons p rest ih =>
    rw [lastBindings_cons, lastSign?, ← ih]
    split
    · rename_i hany
      by_cases hk : p.1 = k
      · have hsome : lastSign? k (lastBindings rest) ≠ none := by
          rw [Ne, lastSign?_eq_none]
          intro hnone
          obtain ⟨q, hq, hqp⟩ := List.any_eq_true.mp hany
          exact hnone q hq ((of_decide_eq_true hqp).trans hk)
        obtain ⟨v, hv⟩ := Option.ne_none_iff_exists'.mp hsome
        rw [hv]
        rfl
      · rw [if_neg hk, Option.or_none]
    · rfl

/-- The pairs that count are those with the last sign of their key. -/
theorem mem_lastBindings {k : Key} {v : Sign} {pairs : List (Key × Sign)} :
    (k, v) ∈ lastBindings pairs ↔ lastSign? k pairs = some v := by
  refine ⟨fun h => ?_, fun h => lastSign?_mem ((lastSign?_lastBindings k pairs).trans h)⟩
  induction pairs with
  | nil => cases h
  | cons p rest ih =>
    rw [lastBindings_cons] at h
    rw [lastSign?]
    split at h
    · rw [ih h]
      rfl
    · rename_i hany
      rcases List.mem_cons.mp h with rfl | h
      · have hnone : lastSign? k rest = none := by
          rw [← lastSign?_lastBindings, lastSign?_eq_none]
          intro q hq hk
          exact hany (List.any_eq_true.mpr ⟨q, hq, decide_eq_true hk⟩)
        rw [hnone, Option.none_or, if_pos rfl]
      · rw [ih h]
        rfl

theorem knowledge_ofBindings (pairs : List (Key × Sign)) :
    (ofBindings pairs).knowledge = .ofBindings pairs := by
  have hfold : (ofBindings pairs).knowledge =
      (lastBindings pairs).foldl (fun m p => m.bind p.1 p.2) (signs fun _ => .top) :=
    (List.foldl_hom knowledge fun s p => (knowledge_bind s p.1 p.2).symm).symm
  rw [hfold, foldl_bind, Knowledge.ofBindings]
  refine if_congr ?_ rfl (congrArg signs (funext fun k => ?_))
  · simp only [List.any_eq_true, decide_eq_true_eq]
    constructor
    · rintro ⟨⟨k, v⟩, hmem, rfl⟩
      have hlast := mem_lastBindings.mp hmem
      exact ⟨(k, .bottom), lastSign?_mem hlast, hlast⟩
    · rintro ⟨p, -, hlast⟩
      exact ⟨(p.1, .bottom), mem_lastBindings.mpr hlast, rfl⟩
  · rw [lastSign?_lastBindings]

theorem knowledge_bindAt (s : Store) (k : Option Key) (v : Sign) :
    (s.bindAt k v).knowledge = s.knowledge.bindAt k v := by
  cases k with
  | none => rfl
  | some k => exact knowledge_bind s k v

theorem knowledge_outcome (s : Store) (kl : Option Key) (l : Sign) (kr : Option Key) (r : Sign) :
    (s.outcome kl l kr r).knowledge = s.knowledge.outcome kl l kr r := by
  unfold outcome Knowledge.outcome
  split
  · rfl
  · rw [knowledge_bindAt, knowledge_bindAt]

/-- Nothing bound to a store that cannot be reached brings it back. -/
theorem outcome_impossible (kl : Option Key) (l : Sign) (kr : Option Key) (r : Sign) :
    Knowledge.outcome .impossible kl l kr r = .impossible := by
  unfold Knowledge.outcome
  split
  · rfl
  · cases kl <;> cases kr <;> rfl

theorem knowledge_refine (c : Comparison) (kl : Option Key) (l : Fact) (kr : Option Key) (r : Fact)
    (s : Store) :
    ((s.refine c kl l kr r).1.knowledge, (s.refine c kl l kr r).2.knowledge) =
      s.knowledge.refine c kl l kr r := by
  rcases l with _ | l
  · rfl
  rcases r with _ | r
  · rfl
  cases s with
  | unreachable => simp [refine, isReachable, Knowledge.refine, knowledge, outcome_impossible]
  | reachable f => simp [refine, isReachable, Knowledge.refine, knowledge_outcome]

/-- The store represents the knowledge, in the form that all stores have: one binding for each key with a
sign that says something. -/
structure Represents (s : Store) (m : Knowledge) : Prop where
  isReachable : s.isReachable = m.isPossible
  lookup : ∀ k, s.lookup k = m.sign k
  binding : ∀ k v, (k, v) ∈ s.entries ↔ m.sign k = v ∧ v ≠ .bottom ∧ v ≠ .top
  nodup : s.keys.Nodup

theorem mem_entries {k : Key} {v : Sign} : (k, v) ∈ s.entries ↔ s.lookup k = v ∧ v ≠ .bottom ∧ v ≠ .top := by
  cases s with
  | unreachable =>
    refine iff_of_false List.not_mem_nil ?_
    rintro ⟨rfl, hb, -⟩
    exact hb rfl
  | reachable f =>
    rw [show (reachable f).entries = f.entries from rfl, Entries.mem_iff_get? f.sorted]
    refine Iff.trans get?_eq_some (and_congr_right fun hv => ⟨fun ht => ⟨?_, ht⟩, And.right⟩)
    rintro rfl
    cases lookup_eq_bottom.mp hv

theorem keys_nodup (s : Store) : s.keys.Nodup := by
  cases s with
  | unreachable => exact List.nodup_nil
  | reachable f => exact List.pairwise_map.mpr (f.sorted.imp fun h => Key.ne_of_lt h)

theorem represents_knowledge (s : Store) : s.Represents s.knowledge where
  isReachable := isPossible_knowledge.symm
  lookup k := (sign_knowledge k).symm
  binding k v := by rw [sign_knowledge, mem_entries]
  nodup := keys_nodup s

/-- Nothing more is needed to tell stores apart. -/
theorem eq_iff_mem_entries :
    s = t ↔ s.isReachable = t.isReachable ∧ ∀ e, e ∈ s.entries ↔ e ∈ t.entries := by
  refine ⟨fun h => h ▸ ⟨rfl, fun _ => Iff.rfl⟩, fun ⟨hr, he⟩ => ?_⟩
  cases s with
  | unreachable => exact (eq_unreachable hr.symm).symm
  | reachable f =>
    cases t with
    | unreachable => cases hr
    | reachable g =>
      refine congrArg reachable (Facts.ext_get? fun k => Option.ext fun v => ?_)
      exact (Entries.mem_iff_get? f.sorted (e := (k, v))).symm.trans
        ((he (k, v)).trans (Entries.mem_iff_get? g.sorted))

theorem knowledge_injective : Function.Injective knowledge := by
  intro s t h
  refine ext_lookup fun k => ?_
  rw [← sign_knowledge, ← sign_knowledge, h]

/-- The ways to make stores and to change them, for whatever stands for stores. -/
structure Operations (σ : Type) where
  ofBindings : List (Key × Sign) → σ
  unreachable : σ
  bind : σ → Key → Sign → σ
  forget : σ → Key → σ
  join : σ → σ → σ
  merge : List σ → σ
  bottom : σ
  top? : Option σ
  lub : σ → σ → σ
  joinAll : List σ → σ
  refine : Comparison → Option Key → Fact → Option Key → Fact → σ → σ × σ
  absorb : σ → σ → σ

/-- The operations of stores, and of their domain. -/
def operations : Operations Store where
  ofBindings := ofBindings
  unreachable := unreachable
  bind := bind
  forget := forget
  join := join
  merge := merge
  bottom := domain.bottom
  top? := domain.top?
  lub := domain.join
  joinAll := domain.joinAll
  refine := refine
  absorb := absorb

/-- One operation on numbered stores. The numbers of the stores it makes or changes come first. -/
inductive Action
  | create (i : Nat) (pairs : List (Key × Sign))
  | unreachable (i : Nat)
  | bind (i : Nat) (k : Key) (v : Sign)
  | forget (i : Nat) (k : Key)
  | copy (i source : Nat)
  | join (i left right : Nat)
  | merge (i : Nat) (sources : List Nat)
  | bottom (i : Nat)
  | top (i : Nat)
  | lub (i left right : Nat)
  | joinAll (i : Nat) (sources : List Nat)
  | refine (yes no : Nat) (c : Comparison) (leftKey : Option Key) (left : Fact) (rightKey : Option Key)
    (right : Fact) (source : Nat)
  | absorb (i source : Nat)

namespace Action

variable {σ τ : Type}

def apply (o : Operations σ) (stores : Nat → σ) : Action → Nat → σ
  | create i pairs => Function.update stores i (o.ofBindings pairs)
  | unreachable i => Function.update stores i o.unreachable
  | bind i k v => Function.update stores i (o.bind (stores i) k v)
  | forget i k => Function.update stores i (o.forget (stores i) k)
  | copy i source => Function.update stores i (stores source)
  | join i left right => Function.update stores i (o.join (stores left) (stores right))
  | merge i sources => Function.update stores i (o.merge (sources.map stores))
  | bottom i => Function.update stores i o.bottom
  | top i => o.top?.elim stores (Function.update stores i)
  | lub i left right => Function.update stores i (o.lub (stores left) (stores right))
  | joinAll i sources => Function.update stores i (o.joinAll (sources.map stores))
  | refine yes no c kl l kr r source =>
    let branches := o.refine c kl l kr r (stores source)
    Function.update (Function.update stores yes branches.1) no branches.2
  | absorb i source => Function.update stores i (o.absorb (stores i) (stores source))

/-- The stores after all operations, in order. All of them are empty at first. -/
def run (o : Operations σ) (actions : List Action) : Nat → σ :=
  actions.foldl (apply o) fun _ => o.ofBindings []

def after (actions : List Action) (i : Nat) : Store := run operations actions i

/-- The operation changes a store in place. -/
def isChange : Action → Bool
  | bind .. | forget .. | absorb .. => true
  | _ => false

end Action

/-- Whatever stands for stores can be mapped before or after an operation. -/
structure Operations.Maps {σ τ : Type} (o : Operations σ) (p : Operations τ) (f : σ → τ) : Prop where
  ofBindings : ∀ pairs, f (o.ofBindings pairs) = p.ofBindings pairs
  unreachable : f o.unreachable = p.unreachable
  bind : ∀ s k v, f (o.bind s k v) = p.bind (f s) k v
  forget : ∀ s k, f (o.forget s k) = p.forget (f s) k
  join : ∀ s t, f (o.join s t) = p.join (f s) (f t)
  merge : ∀ stores, f (o.merge stores) = p.merge (stores.map f)
  bottom : f o.bottom = p.bottom
  top? : o.top?.map f = p.top?
  lub : ∀ s t, f (o.lub s t) = p.lub (f s) (f t)
  joinAll : ∀ stores, f (o.joinAll stores) = p.joinAll (stores.map f)
  refine : ∀ c kl l kr r s,
    ((f (o.refine c kl l kr r s).1, f (o.refine c kl l kr r s).2)) = p.refine c kl l kr r (f s)
  absorb : ∀ s t, f (o.absorb s t) = p.absorb (f s) (f t)

namespace Action

variable {σ τ : Type} {o : Operations σ} {p : Operations τ} {f : σ → τ}

theorem apply_map (h : o.Maps p f) (stores : Nat → σ) (action : Action) :
    f ∘ action.apply o stores = action.apply p (f ∘ stores) := by
  cases action with
  | top i =>
    simp only [apply, ← h.top?]
    cases o.top? with
    | none => rfl
    | some t => exact Function.comp_update f stores i t
  | refine yes no c kl l kr r source =>
    simp only [apply, Function.comp_update, Function.comp_apply, ← h.refine]
  | _ =>
    simp only [apply, Function.comp_update, Function.comp_apply, h.ofBindings, h.unreachable, h.bind,
      h.forget, h.join, h.merge, h.bottom, h.lub, h.joinAll, h.absorb, List.map_map]

theorem run_map (h : o.Maps p f) (actions : List Action) : f ∘ run o actions = run p actions := by
  have hfold : ∀ stores : Nat → σ,
      f ∘ actions.foldl (apply o) stores = actions.foldl (apply p) (f ∘ stores) := by
    induction actions with
    | nil => exact fun _ => rfl
    | cons action rest ih =>
      intro stores
      rw [List.foldl_cons, List.foldl_cons, ih, apply_map h]
  have hempty : (f ∘ fun _ : Nat => o.ofBindings []) = fun _ => p.ofBindings [] :=
    funext fun _ => h.ofBindings []
  rw [run, run, hfold, hempty]

theorem apply_unreachable {stores : Nat → Store} {i : Nat} (hi : stores i = .unreachable) {action : Action}
    (ha : action.isChange = true) : action.apply operations stores i = .unreachable := by
  have update : ∀ {j : Nat} {s : Store}, (j = i → s = .unreachable) →
      Function.update stores j s i = .unreachable := by
    intro j s hs
    rw [Function.update_apply]
    split
    · exact hs (Eq.symm ‹_›)
    · exact hi
  cases action with
  | bind j k v => exact update fun hj => by rw [hj, hi]; rfl
  | forget j k => exact update fun hj => by rw [hj, hi]; rfl
  | absorb j source => exact update fun hj => by rw [hj, hi]; exact absorb_unreachable
  | _ => cases ha

theorem after_unreachable {actions changes : List Action} {i : Nat} (hi : after actions i = .unreachable)
    (hc : ∀ c ∈ changes, c.isChange = true) : after (actions ++ changes) i = .unreachable := by
  rw [after, run, List.foldl_append]
  change changes.foldl (apply operations) (after actions) i = _
  generalize after actions = stores at hi
  induction changes generalizing stores with
  | nil => exact hi
  | cons c rest ih =>
    refine ih (fun c hc' => hc c (List.mem_cons_of_mem _ hc')) _ ?_
    exact apply_unreachable hi (hc c List.mem_cons_self)

end Action

end Store

def Knowledge.operations : Store.Operations Knowledge where
  ofBindings := ofBindings
  unreachable := impossible
  bind := bind
  forget := forget
  join := join
  merge := joinAll
  bottom := impossible
  top? := some (signs fun _ => .top)
  lub := join
  joinAll := joinAll
  refine := refine
  absorb := absorb

namespace Store

theorem maps_knowledge : operations.Maps Knowledge.operations knowledge where
  ofBindings := knowledge_ofBindings
  unreachable := rfl
  bind := knowledge_bind
  forget := knowledge_forget
  join := knowledge_join
  merge := knowledge_merge
  bottom := rfl
  top? := rfl
  lub := knowledge_join
  joinAll := knowledge_merge
  refine := knowledge_refine
  absorb := knowledge_absorb

namespace Action

def known (actions : List Action) (i : Nat) : Knowledge := run Knowledge.operations actions i

theorem knowledge_after (actions : List Action) (i : Nat) : (after actions i).knowledge = known actions i :=
  congrFun (run_map maps_knowledge actions) i

/-- Any operations, in any order: each store represents what the operations say, one that cannot be reached
has no bindings and is not brought back by changes, and stores are equal if they answer alike, or if each
is below the other. -/
theorem after_represents (actions : List Action) :
    (∀ i, (after actions i).Represents (known actions i)) ∧
    (∀ i, (after actions i).isReachable = false → (after actions i).entries = [] ∧
      ∀ changes : List Action, (∀ c ∈ changes, c.isChange = true) →
        (after (actions ++ changes) i).isReachable = false) ∧
    ∀ i j, [domain.eq (after actions i) (after actions j) = true,
      (after actions i).isReachable = (after actions j).isReachable ∧
        ∀ e, e ∈ (after actions i).entries ↔ e ∈ (after actions j).entries,
      (after actions i).isReachable = (after actions j).isReachable ∧
        ∀ k, (after actions i).lookup k = (after actions j).lookup k,
      after actions i ≤ after actions j ∧ after actions j ≤ after actions i,
      known actions i = known actions j].TFAE := by
  refine ⟨fun i => knowledge_after actions i ▸ represents_knowledge _, fun i hi => ?_, fun i j => ?_⟩
  · have hdead := eq_unreachable hi
    refine ⟨by rw [hdead]; rfl, fun changes hc => ?_⟩
    rw [after_unreachable hdead hc]
    rfl
  · rw [← knowledge_after, ← knowledge_after]
    generalize after actions i = s
    generalize after actions j = t
    have heq : domain.eq s t = true ↔ s = t := decide_eq_true_iff
    tfae_have 1 ↔ 2 := heq.trans eq_iff_mem_entries
    tfae_have 1 → 3 := fun h => heq.mp h ▸ ⟨rfl, fun _ => rfl⟩
    tfae_have 3 → 4 := fun h => (ext_lookup h.2) ▸ ⟨le_refl s, le_refl s⟩
    tfae_have 4 → 5 := fun h => congrArg knowledge (le_antisymm h.1 h.2)
    tfae_have 5 → 1 := fun h => heq.mpr (knowledge_injective h)
    tfae_finish

/-- A positive variable is compared with zero. Where they are equal nothing can arrive, and the copy of that
store is bound in vain; the other store is taken in, and then the variable is forgotten. -/
def comparedActions : List Action :=
  [.create 0 [(.id 1, .pos)], .refine 1 2 .eq (some (.id 1)) (some .pos) none (some .zero) 0, .copy 3 1,
    .bind 3 (.id 1) .neg, .absorb 0 2, .forget 0 (.id 1)]

theorem after_represents_compared :
    ((after comparedActions 3).isReachable = false ∧ (after comparedActions 2).entries = [(.id 1, .pos)]) ∧
    (after comparedActions 3).entries = [] ∧
    (after (comparedActions ++ [.bind 3 (.id 2) .zero, .absorb 3 2]) 3).isReachable = false ∧
    domain.eq (after comparedActions 0) (after comparedActions 4) = true := by
  obtain ⟨-, hdead, hequal⟩ := after_represents comparedActions
  obtain ⟨hempty, hchanges⟩ := hdead 3 rfl
  have hlike : domain.eq (after comparedActions 0) (after comparedActions 4) = true ↔
      (after comparedActions 0).isReachable = (after comparedActions 4).isReachable ∧
        ∀ e, e ∈ (after comparedActions 0).entries ↔ e ∈ (after comparedActions 4).entries :=
    (hequal 0 4).out 0 1
  exact ⟨⟨rfl, rfl⟩, hempty, hchanges _ (by decide), hlike.mpr ⟨rfl, fun e => Iff.rfl⟩⟩

end Action

end Store

end SignFlow

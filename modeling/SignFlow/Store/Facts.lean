import SignFlow.Sign.Basic
import SignFlow.Store.Key

/-! Finite sets of facts, one informative sign for each key that has one.

The entries stand in strict key order, so two sets that answer every `get?` alike are equal. -/

namespace SignFlow

/-- Strict key order: no key twice, one order for one set of entries. -/
def Sorted (entries : List (Key × Sign)) : Prop :=
  entries.Pairwise fun a b => a.1 < b.1

namespace Entries

def get? (k : Key) : List (Key × Sign) → Option Sign
  | [] => none
  | (l, v) :: rest => if k = l then some v else get? k rest

def put (k : Key) (v : Sign) : List (Key × Sign) → List (Key × Sign)
  | [] => [(k, v)]
  | (l, w) :: rest =>
    if k = l then (k, v) :: rest
    else if k < l then (k, v) :: (l, w) :: rest
    else (l, w) :: put k v rest

def erase (k : Key) (entries : List (Key × Sign)) : List (Key × Sign) :=
  entries.filter fun e => e.1 ≠ k

theorem mem_put {k : Key} {v : Sign} {entries : List (Key × Sign)} {e : Key × Sign}
    (h : e ∈ put k v entries) : e = (k, v) ∨ e ∈ entries := by
  induction entries with
  | nil => simpa [put] using h
  | cons f rest ih =>
    obtain ⟨l, w⟩ := f
    unfold put at h
    split at h
    · rcases List.mem_cons.mp h with rfl | h
      · exact .inl rfl
      · exact .inr (List.mem_cons_of_mem _ h)
    · split at h
      · rcases List.mem_cons.mp h with rfl | h
        · exact .inl rfl
        · exact .inr h
      · rcases List.mem_cons.mp h with rfl | h
        · exact .inr List.mem_cons_self
        · rcases ih h with rfl | h
          · exact .inl rfl
          · exact .inr (List.mem_cons_of_mem _ h)

theorem sorted_put {k : Key} {v : Sign} {entries : List (Key × Sign)} (h : Sorted entries) :
    Sorted (put k v entries) := by
  induction entries with
  | nil => simp [put, Sorted]
  | cons f rest ih =>
    obtain ⟨l, w⟩ := f
    obtain ⟨above, hr⟩ := List.pairwise_cons.mp h
    unfold put
    split
    · rename_i e
      subst e
      exact List.pairwise_cons.mpr ⟨above, hr⟩
    · rename_i ne
      split
      · rename_i lt
        refine List.pairwise_cons.mpr ⟨fun e he => ?_, h⟩
        rcases List.mem_cons.mp he with rfl | he
        · exact lt
        · exact Key.lt_trans lt (above e he)
      · rename_i nlt
        refine List.pairwise_cons.mpr ⟨fun e he => ?_, ih hr⟩
        rcases mem_put he with rfl | he
        · rcases Key.lt_or_eq_or_gt k l with lt | eq | gt
          · exact absurd lt nlt
          · exact absurd eq ne
          · exact gt
        · exact above e he

end Entries

structure Facts where
  entries : List (Key × Sign)
  sorted : Sorted entries
  informative : ∀ e ∈ entries, e.2.informative = true
  deriving DecidableEq

namespace Facts

def empty : Facts := ⟨[], List.Pairwise.nil, by simp⟩

def get? (f : Facts) (k : Key) : Option Sign := Entries.get? k f.entries

def keys (f : Facts) : List Key := f.entries.map Prod.fst

def erase (f : Facts) (k : Key) : Facts :=
  ⟨Entries.erase k f.entries, List.Pairwise.filter _ f.sorted,
    fun e h => f.informative e (List.mem_filter.mp h).1⟩

/-- Keeps the sign at the key, unless it says nothing: then the key is dropped. -/
def put (f : Facts) (k : Key) (v : Sign) : Facts :=
  if h : v.informative = true then
    ⟨Entries.put k v f.entries, Entries.sorted_put f.sorted, fun e he => by
      rcases Entries.mem_put he with rfl | he
      · exact h
      · exact f.informative e he⟩
  else f.erase k

/-- What both sets say of a key, if that is anything. -/
def common (g : Facts) (e : Key × Sign) : Option (Key × Sign) :=
  (g.get? e.1).bind fun w =>
    if (e.2.join w).informative then some (e.1, e.2.join w) else none

theorem common_key {g : Facts} {e e' : Key × Sign} (h : common g e = some e') : e'.1 = e.1 := by
  unfold common at h
  obtain ⟨w, _, h⟩ := Option.bind_eq_some_iff.mp h
  split at h
  · cases h; rfl
  · cases h

theorem common_informative {g : Facts} {e e' : Key × Sign} (h : common g e = some e') :
    e'.2.informative = true := by
  unfold common at h
  obtain ⟨w, _, h⟩ := Option.bind_eq_some_iff.mp h
  split at h
  · rename_i j; cases h; exact j
  · cases h

def join (f g : Facts) : Facts where
  entries := f.entries.filterMap (common g)
  sorted := by
    refine List.Pairwise.filterMap (common g) ?_ f.sorted
    intro a b lt a' ha b' hb
    rw [common_key ha, common_key hb]
    exact lt
  informative := by
    intro e he
    obtain ⟨_, _, h⟩ := List.mem_filterMap.mp he
    exact common_informative h

end Facts

end SignFlow

import Mathlib.Tactic
import SignFlow.Store.Basic

/-! What the operations of a store do to the sign of each key. -/

namespace SignFlow

namespace Entries

theorem get?_put (k l : Key) (v : Sign) (entries : List (Key × Sign)) :
    get? l (put k v entries) = if l = k then some v else get? l entries := by
  induction entries with
  | nil => simp [put, get?]
  | cons e rest ih =>
    obtain ⟨j, w⟩ := e
    unfold put
    split
    · rename_i h
      subst h
      simp only [get?]
      split <;> rfl
    · split
      · simp only [get?]
      · rename_i h _
        simp only [get?, ih]
        by_cases hj : l = j
        · subst hj
          simp [Ne.symm h]
        · simp [hj]

theorem get?_erase (k l : Key) (entries : List (Key × Sign)) :
    get? l (erase k entries) = if l = k then none else get? l entries := by
  induction entries with
  | nil => simp [erase, get?]
  | cons e rest ih =>
    obtain ⟨j, w⟩ := e
    unfold erase at ih ⊢
    by_cases hj : j = k
    · subst hj
      rw [List.filter_cons_of_neg (by simp), ih]
      simp only [get?]
      split <;> rfl
    · rw [List.filter_cons_of_pos (by simpa using hj)]
      simp only [get?, ih]
      by_cases hl : l = j
      · subst hl; simp [hj]
      · simp [hl]

theorem get?_eq_none {l : Key} {entries : List (Key × Sign)} :
    get? l entries = none ↔ ∀ e ∈ entries, e.1 ≠ l := by
  induction entries with
  | nil => simp [get?]
  | cons e rest ih =>
    obtain ⟨j, w⟩ := e
    by_cases h : l = j
    · subst h; simp [get?]
    · simp [get?, h, Ne.symm h, ih]

theorem mem_of_get? {l : Key} {v : Sign} {entries : List (Key × Sign)} (h : get? l entries = some v) :
    (l, v) ∈ entries := by
  induction entries with
  | nil => simp [get?] at h
  | cons e rest ih =>
    obtain ⟨j, w⟩ := e
    simp only [get?] at h
    split at h
    · rename_i hj
      subst hj
      cases h
      exact List.mem_cons_self
    · exact List.mem_cons_of_mem _ (ih h)

/-- A key stands once in sorted entries, so it has one image under a map that keeps keys. -/
theorem get?_filterMap {f : Key × Sign → Option (Key × Sign)}
    (hf : ∀ {e e'}, f e = some e' → e'.1 = e.1) {l : Key} {entries : List (Key × Sign)}
    (hs : Sorted entries) :
    get? l (entries.filterMap f) = (get? l entries).bind fun v => (f (l, v)).map Prod.snd := by
  induction entries with
  | nil => rfl
  | cons e rest ih =>
    obtain ⟨j, w⟩ := e
    obtain ⟨above, hr⟩ := List.pairwise_cons.mp hs
    have ih := ih hr
    by_cases hj : l = j
    · subst hj
      have hnone : get? l rest = none :=
        get?_eq_none.mpr fun e he => (Key.ne_of_lt (above e he)).symm
      rw [hnone] at ih
      cases hfe : f (l, w) with
      | none => simpa [List.filterMap_cons, hfe, get?] using ih
      | some e' =>
        obtain ⟨k, v⟩ := e'
        have hk : k = l := hf hfe
        subst hk
        simp [hfe, get?]
    · cases hfe : f (j, w) with
      | none => simpa [List.filterMap_cons, hfe, get?, hj] using ih
      | some e' =>
        obtain ⟨k, v⟩ := e'
        have hk : k = j := hf hfe
        subst hk
        simpa [List.filterMap_cons, hfe, get?, hj] using ih

end Entries

namespace Facts

theorem informative_of_get? {f : Facts} {k : Key} {v : Sign} (h : f.get? k = some v) :
    v.informative = true := f.informative _ (Entries.mem_of_get? h)

theorem get?_put (f : Facts) (k l : Key) (v : Sign) :
    (f.put k v).get? l =
      if l = k then (if v.informative then some v else none) else f.get? l := by
  unfold put
  split
  · simp only [get?, Entries.get?_put]
  · simp only [get?, erase, Entries.get?_erase]

theorem get?_join (f g : Facts) (k : Key) :
    (f.join g).get? k = (f.get? k).bind fun v => (g.get? k).bind fun w =>
      if (v.join w).informative then some (v.join w) else none := by
  rw [get?, join, Entries.get?_filterMap common_key f.sorted]
  unfold get?
  congr 1
  funext v
  unfold common get?
  cases Entries.get? k g.entries with
  | none => rfl
  | some w =>
    simp only [Option.bind_some]
    split <;> rfl

end Facts

namespace Sign

theorem informative_iff {v : Sign} : v.informative = true ↔ v ≠ bottom ∧ v ≠ top := by
  cases v <;> decide

theorem top_join (v : Sign) : top.join v = top := by cases v <;> rfl

theorem join_top (v : Sign) : v.join top = top := by cases v <;> rfl

theorem join_bottom (v : Sign) : v.join bottom = v := by cases v <;> rfl

theorem bottom_join (v : Sign) : bottom.join v = v := by cases v <;> rfl

theorem join_eq_bottom {v w : Sign} : v.join w = bottom ↔ v = bottom ∧ w = bottom := by
  cases v <;> cases w <;> decide

end Sign

namespace Store

theorem lookup_eq_bottom {s : Store} {k : Key} : s.lookup k = .bottom ↔ s = unreachable := by
  cases s with
  | unreachable => simp [lookup]
  | reachable f =>
    simp only [lookup, reduceCtorEq, iff_false]
    cases h : f.get? k with
    | none => simp
    | some v => simpa using (Sign.informative_iff.mp (Facts.informative_of_get? h)).1

theorem lookup_bind {f : Facts} {v : Sign} (hv : v ≠ .bottom) (k l : Key) :
    ((reachable f).bind k v).lookup l = if l = k then v else (reachable f).lookup l := by
  simp only [bind, if_neg hv, lookup, Facts.get?_put]
  split
  · split
    · rfl
    · rename_i h
      rw [Sign.informative_iff, not_and, not_not] at h
      exact (h hv).symm
  · rfl

theorem lookup_forget (f : Facts) (k l : Key) :
    ((reachable f).forget k).lookup l = if l = k then .top else (reachable f).lookup l := by
  simp only [forget, lookup, Facts.get?, Facts.erase, Entries.get?_erase]
  split <;> rfl

theorem lookup_join (s t : Store) (k : Key) :
    (s.join t).lookup k = (s.lookup k).join (t.lookup k) := by
  cases s with
  | unreachable => exact (Sign.bottom_join _).symm
  | reachable f =>
    cases t with
    | unreachable => exact (Sign.join_bottom _).symm
    | reachable g =>
      simp only [join, lookup, Facts.get?_join]
      cases hf : f.get? k with
      | none => simp [Sign.top_join]
      | some v =>
        cases hg : g.get? k with
        | none => simp [Sign.join_top]
        | some w =>
          simp only [Option.bind_some, Option.getD_some]
          split
          · rfl
          · rename_i h
            have hv := (Sign.informative_iff.mp (Facts.informative_of_get? hf)).1
            rw [Sign.informative_iff, not_and, not_not] at h
            exact (h fun hb => hv (Sign.join_eq_bottom.mp hb).1).symm

theorem lookup_of_not_mem {f : Facts} {k : Key} (h : k ∉ (reachable f).keys) :
    (reachable f).lookup k = .top := by
  have hnone : f.get? k = none := by
    rw [Facts.get?, Entries.get?_eq_none]
    intro e he hk
    exact h (List.mem_map.mpr ⟨e, he, hk⟩)
  simp [lookup, hnone]

end Store

end SignFlow

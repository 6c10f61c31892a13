import SignFlow.Dataflow.Domain

/-! Finite sets of integers under inclusion: a domain with a least element and no greatest one. -/

namespace SignFlow

namespace Increasing

def insert (n : Int) : List Int → List Int
  | [] => [n]
  | k :: rest =>
    if n = k then k :: rest
    else if n < k then n :: k :: rest
    else k :: insert n rest

theorem mem_insert {n x : Int} {ns : List Int} (h : x ∈ insert n ns) : x = n ∨ x ∈ ns := by
  induction ns with
  | nil => simpa [insert] using h
  | cons k rest ih =>
    unfold insert at h
    split at h
    · exact .inr h
    · split at h
      · exact List.mem_cons.mp h
      · rcases List.mem_cons.mp h with rfl | h
        · exact .inr List.mem_cons_self
        · exact (ih h).imp_right (List.mem_cons_of_mem _)

theorem pairwise_insert {n : Int} {ns : List Int} (h : ns.Pairwise (· < ·)) :
    (insert n ns).Pairwise (· < ·) := by
  induction ns with
  | nil => simp [insert]
  | cons k rest ih =>
    obtain ⟨above, hr⟩ := List.pairwise_cons.mp h
    unfold insert
    split
    · exact h
    · split
      · rename_i lt
        refine List.pairwise_cons.mpr ⟨fun x hx => ?_, h⟩
        rcases List.mem_cons.mp hx with rfl | hx
        · exact lt
        · have := above x hx
          omega
      · refine List.pairwise_cons.mpr ⟨fun x hx => ?_, ih hr⟩
        rcases mem_insert hx with rfl | hx
        · omega
        · exact above x hx

end Increasing

/-- Members in increasing order, each once. -/
structure IntSet where
  members : List Int
  increasing : members.Pairwise (· < ·)
  deriving DecidableEq

namespace IntSet

def empty : IntSet := ⟨[], List.Pairwise.nil⟩

def insert (s : IntSet) (n : Int) : IntSet :=
  ⟨Increasing.insert n s.members, Increasing.pairwise_insert s.increasing⟩

def erase (s : IntSet) (n : Int) : IntSet :=
  ⟨s.members.filter (· ≠ n), List.Pairwise.filter _ s.increasing⟩

def ofList (ns : List Int) : IntSet := ns.foldl insert empty

def union (s t : IntSet) : IntSet := t.members.foldl insert s

def subset (s t : IntSet) : Bool := s.members.all t.members.contains

def domain : Domain IntSet where
  bottom := empty
  join := union
  le := subset

end IntSet

end SignFlow

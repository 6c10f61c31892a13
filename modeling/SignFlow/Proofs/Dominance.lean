import Mathlib.Algebra.BigOperators.Group.Finset.Basic
import Mathlib.Algebra.Order.BigOperators.Group.Finset
import Mathlib.Data.Finset.Lattice.Basic
import Mathlib.Logic.Function.Iterate
import SignFlow.Proofs.Reach

/-! Dominance.

A block dominates another if it is on every path to it that starts at a root, and the roots are the entry
and the blocks that nothing leads to. The dominators of a block are found by searching around each block
in turn. They are also what is left of all blocks after the rows of the table have been computed from each
other until none of them changes any more. -/

namespace SignFlow.Graph

/-- The blocks on a path from `start`, in order, and the last of them. -/
inductive Path (g : Graph) (start : Nat) : List Nat → Nat → Prop
  | here : Path g start [start] start
  | step {path : List Nat} {m n : Nat} (before : Path g start path m) (h : g.Leads m n) :
    Path g start (path ++ [n]) n

def IsRoot (g : Graph) (r : Nat) : Prop := r < g.size ∧ (r = entry ∨ ∀ m, ¬g.Leads m r)

def Dominates (g : Graph) (d n : Nat) : Prop :=
  d < g.size ∧ ∀ r path, g.IsRoot r → g.Path r path n → d ∈ path

variable {g : Graph} {a b d m n r : Nat} {path : List Nat}

theorem Path.reaches (h : g.Path a path b) : g.Reaches a b := by
  induction h with
  | here => exact .refl
  | step _ hl ih => exact ih.tail hl

theorem Path.last_mem (h : g.Path a path b) : b ∈ path := by
  cases h with
  | here => simp
  | step => simp

theorem Path.start_mem (h : g.Path a path b) : a ∈ path := by
  induction h with
  | here => simp
  | step _ _ ih => simp [ih]

theorem Dominates.eq_root (h : g.Dominates d r) (hr : g.IsRoot r) : d = r := by
  simpa using h.2 r [r] hr .here

/-- What dominates a block and is not that block dominates whatever leads to it. -/
theorem Dominates.before (h : g.Dominates d n) (hne : d ≠ n) (hl : g.Leads m n) : g.Dominates d m := by
  refine ⟨h.1, fun r path hr hpath => ?_⟩
  simpa [hne] using h.2 r _ hr (hpath.step hl)

theorem mem_predecessors : a ∈ g.predecessors b ↔ g.Leads a b := by
  simp [predecessors, mem_entering, Leads, and_comm, and_assoc]

theorem mem_roots : r ∈ g.roots ↔ g.IsRoot r := by
  simp only [roots, List.mem_filter, mem_positions, Bool.or_eq_true, beq_iff_eq, List.isEmpty_iff,
    List.eq_nil_iff_forall_not_mem, mem_predecessors, IsRoot]

/-! Searching around a block -/

theorem isolate_leads : (g.isolate d).Leads a b ↔ g.Leads a b ∧ a ≠ d ∧ b ≠ d := by
  simp only [Leads, isolate, List.mem_filter, Bool.and_eq_true, bne_iff_ne]
  constructor
  · rintro ⟨e, ⟨he, hs, hd⟩, rfl, rfl⟩
    exact ⟨⟨e, he, rfl, rfl⟩, hs, hd⟩
  · rintro ⟨⟨e, he, rfl, rfl⟩, hs, hd⟩
    exact ⟨e, ⟨he, hs, hd⟩, rfl, rfl⟩

theorem Closed.isolate (hg : g.Closed) (d : Nat) : (g.isolate d).Closed :=
  ⟨hg.entry_lt, fun e he => hg.src_lt e (List.mem_of_mem_filter he),
    fun e he => hg.dst_lt e (List.mem_of_mem_filter he)⟩

/-- Without the edges at a block there are the paths that do not pass it. -/
theorem isolate_reaches (hr : r ≠ d) :
    (g.isolate d).Reaches r n ↔ ∃ path, g.Path r path n ∧ d ∉ path := by
  constructor
  · intro h
    induction h with
    | refl => exact ⟨_, .here, by simpa using hr.symm⟩
    | tail _ hl ih =>
      obtain ⟨path, hpath, hd⟩ := ih
      obtain ⟨hl, -, hne⟩ := isolate_leads.mp hl
      exact ⟨_, hpath.step hl, by simpa using ⟨hd, hne.symm⟩⟩
  · rintro ⟨path, hpath, hd⟩
    induction hpath with
    | here => exact .refl
    | step before hl ih =>
      obtain ⟨hd, hne⟩ : d ∉ _ ∧ _ := by simpa using hd
      exact (ih hd).tail (isolate_leads.mpr ⟨hl, fun h => hd (h ▸ before.last_mem), Ne.symm hne⟩)

theorem mem_around (hg : g.Closed) :
    n ∈ g.around d ↔ ∃ r path, g.IsRoot r ∧ g.Path r path n ∧ d ∉ path := by
  have hstarts : ∀ r ∈ g.roots.filter (· != d), r < (g.isolate d).size := fun r hr =>
    (mem_roots.mp (List.mem_of_mem_filter hr)).1
  rw [around, mem_exploreFrom (hg.isolate d) hstarts]
  simp only [List.mem_filter, mem_roots, bne_iff_ne]
  constructor
  · rintro ⟨r, ⟨hroot, hne⟩, hr⟩
    obtain ⟨path, hpath, hd⟩ := (isolate_reaches hne).mp hr
    exact ⟨r, path, hroot, hpath, hd⟩
  · rintro ⟨r, path, hroot, hpath, hd⟩
    have hne : r ≠ d := fun h => hd (h ▸ hpath.start_mem)
    exact ⟨r, ⟨hroot, hne⟩, (isolate_reaches hne).mpr ⟨path, hpath, hd⟩⟩

theorem mem_row (hg : g.Closed) {row : List Nat} (h : (n, row) ∈ g.dominators) :
    d ∈ row ↔ g.Dominates d n := by
  simp only [dominators, List.mem_map, mem_positions, Prod.mk.injEq] at h
  obtain ⟨n, -, rfl, rfl⟩ := h
  have hrow : d ∈ ((g.positions.map fun d => (d, g.around d)).filter fun row =>
      row.1 == n || !row.2.contains n).map Prod.fst ↔ d < g.size ∧ (d = n ∨ n ∉ g.around d) := by
    simp [mem_positions]
  rw [hrow, mem_around hg]
  refine and_congr_right fun _ => ⟨?_, fun h => ?_⟩
  · rintro (rfl | h) r path hroot hpath
    · exact hpath.last_mem
    · by_contra hd
      exact h ⟨r, path, hroot, hpath, hd⟩
  · right
    rintro ⟨r, path, hroot, hpath, hd⟩
    exact hd (h r path hroot hpath)

theorem dominators_fst (g : Graph) : g.dominators.map Prod.fst = g.positions := by
  simp [dominators, Function.comp_def]

/-! Computing the rows from each other -/

def shared (rows : Nat → Finset Nat) : List Nat → Finset Nat
  | [] => ∅
  | p :: ps => ps.foldl (fun common q => common ∩ rows q) (rows p)

/-- Every block, for a start; the entry has nothing before it. -/
def allRows (g : Graph) (n : Nat) : Finset Nat := if n = entry then {entry} else Finset.range g.size

/-- A block is dominated by itself and by what dominates all blocks before it. -/
def refresh (g : Graph) (rows : Nat → Finset Nat) (n : Nat) : Nat → Finset Nat :=
  if n = entry then rows else Function.update rows n (insert n (shared rows (g.predecessors n)))

def sweep (g : Graph) (rows : Nat → Finset Nat) : Nat → Finset Nat := g.positions.foldl g.refresh rows

variable {rows : Nat → Finset Nat} {ps : List Nat}

theorem mem_shared : d ∈ shared rows ps ↔ ps ≠ [] ∧ ∀ p ∈ ps, d ∈ rows p := by
  have hfold : ∀ (qs : List Nat) (common : Finset Nat),
      d ∈ qs.foldl (fun common q => common ∩ rows q) common ↔ d ∈ common ∧ ∀ q ∈ qs, d ∈ rows q := by
    intro qs
    induction qs with
    | nil => simp
    | cons q qs ih => simp [ih, and_assoc]
  cases ps with
  | nil => simp [shared]
  | cons p ps => simp [shared, hfold]

theorem shared_mono {rows' : Nat → Finset Nat} (h : rows' ≤ rows) (ps : List Nat) :
    shared rows' ps ⊆ shared rows ps := by
  intro d hd
  obtain ⟨hne, hall⟩ := mem_shared.mp hd
  exact mem_shared.mpr ⟨hne, fun p hp => h p (hall p hp)⟩

theorem refresh_entry (rows : Nat → Finset Nat) : g.refresh rows entry = rows := if_pos rfl

theorem refresh_self (hn : n ≠ entry) :
    g.refresh rows n n = insert n (shared rows (g.predecessors n)) := by
  rw [refresh, if_neg hn, Function.update_self]

theorem refresh_of_ne (hm : m ≠ n) : g.refresh rows n m = rows m := by
  unfold refresh
  split
  · rfl
  · rw [Function.update_of_ne hm]

theorem lt_of_mem_allRows (hg : g.Closed) (h : d ∈ g.allRows n) : d < g.size := by
  unfold allRows at h
  split at h
  · rw [Finset.mem_singleton.mp h]
    exact hg.entry_lt
  · exact Finset.mem_range.mp h

/-- The rows lack no dominator, and computing one of them again can only make it smaller. -/
structure Ample (g : Graph) (rows : Nat → Finset Nat) : Prop where
  entry_eq : rows entry = {entry}
  above : ∀ d n, g.Dominates d n → d ∈ rows n
  below : rows ≤ g.allRows
  slack : ∀ n < g.size, n ≠ entry → insert n (shared rows (g.predecessors n)) ⊆ rows n

namespace Ample

theorem allRows (hg : g.Closed) : g.Ample g.allRows := by
  refine ⟨if_pos rfl, fun d n h => ?_, le_rfl, fun n hn hne d hd => ?_⟩
  · unfold Graph.allRows
    split
    · next hn =>
      subst hn
      exact Finset.mem_singleton.mpr (h.eq_root ⟨hg.entry_lt, .inl rfl⟩)
    · exact Finset.mem_range.mpr h.1
  · rw [Graph.allRows, if_neg hne, Finset.mem_range]
    rcases Finset.mem_insert.mp hd with rfl | hd
    · exact hn
    · obtain ⟨hps, hall⟩ := mem_shared.mp hd
      obtain ⟨p, hp⟩ := List.exists_mem_of_ne_nil _ hps
      exact lt_of_mem_allRows hg (hall p hp)

theorem refresh_le (h : g.Ample rows) (hn : n < g.size) : g.refresh rows n ≤ rows := by
  intro m
  by_cases hm : m = n
  · subst hm
    by_cases hne : m = entry
    · rw [hne, refresh_entry]
    · rw [refresh_self hne]
      exact h.slack m hn hne
  · rw [refresh_of_ne hm]

theorem refresh (h : g.Ample rows) (hn : n < g.size) : g.Ample (g.refresh rows n) := by
  have hle := h.refresh_le hn
  refine ⟨?_, fun d m hd => ?_, hle.trans h.below, fun m hm hne => ?_⟩
  · by_cases hne : n = entry
    · rw [hne, refresh_entry, h.entry_eq]
    · rw [refresh_of_ne (Ne.symm hne), h.entry_eq]
  · by_cases hmn : m = n
    · subst hmn
      by_cases hne : m = entry
      · rw [hne, refresh_entry]
        exact h.above d entry (hne ▸ hd)
      rw [refresh_self hne, Finset.mem_insert, mem_shared]
      refine or_iff_not_imp_left.mpr fun hdm => ⟨fun hps => hdm ?_, fun p hp => ?_⟩
      · refine hd.eq_root ⟨hn, .inr fun p hl => ?_⟩
        rw [← mem_predecessors, hps] at hl
        exact List.not_mem_nil hl
      · exact h.above d p (hd.before hdm (mem_predecessors.mp hp))
    · rw [refresh_of_ne hmn]
      exact h.above d m hd
  · have hshared := Finset.insert_subset_insert m (shared_mono hle (g.predecessors m))
    by_cases hmn : m = n
    · subst hmn
      rwa [refresh_self hne]
    · rw [refresh_of_ne hmn]
      exact hshared.trans (h.slack m hm hne)

theorem foldl_refresh {ns : List Nat} (h : g.Ample rows) (hns : ∀ n ∈ ns, n < g.size) :
    g.Ample (ns.foldl g.refresh rows) ∧ ns.foldl g.refresh rows ≤ rows := by
  induction ns generalizing rows with
  | nil => exact ⟨h, le_rfl⟩
  | cons n ns ih =>
    have hn := hns n List.mem_cons_self
    obtain ⟨hample, hle⟩ := ih (h.refresh hn) fun m hm => hns m (List.mem_cons_of_mem _ hm)
    exact ⟨hample, hle.trans (h.refresh_le hn)⟩

/-- A round that ends where it began has changed nothing on the way. -/
theorem refresh_eq {ns : List Nat} (h : g.Ample rows) (hns : ∀ n ∈ ns, n < g.size)
    (heq : ns.foldl g.refresh rows = rows) : ∀ n ∈ ns, g.refresh rows n = rows := by
  induction ns with
  | nil => simp
  | cons n ns ih =>
    have hn := hns n List.mem_cons_self
    have hrest : ∀ m ∈ ns, m < g.size := fun m hm => hns m (List.mem_cons_of_mem _ hm)
    rw [List.foldl_cons] at heq
    have hfirst : g.refresh rows n = rows :=
      le_antisymm (h.refresh_le hn) (heq.symm.trans_le ((h.refresh hn).foldl_refresh hrest).2)
    rw [hfirst] at heq
    intro m hm
    rcases List.mem_cons.mp hm with rfl | hm
    · exact hfirst
    · exact ih hrest heq m hm

theorem sweep (h : g.Ample rows) : g.Ample (g.sweep rows) :=
  (h.foldl_refresh fun _ => mem_positions.mp).1

theorem sweep_le (h : g.Ample rows) : g.sweep rows ≤ rows :=
  (h.foldl_refresh fun _ => mem_positions.mp).2

/-- Once nothing changes any more, the rows hold exactly the dominators. -/
theorem mem_iff (h : g.Ample rows) (hg : g.Closed) (heq : g.sweep rows = rows) (hn : n < g.size) :
    d ∈ rows n ↔ g.Dominates d n := by
  have hrow : ∀ m < g.size, m ≠ entry → rows m = insert m (shared rows (g.predecessors m)) := by
    intro m hm hne
    rw [← refresh_self hne, h.refresh_eq (fun _ => mem_positions.mp) heq m (mem_positions.mpr hm)]
  refine ⟨fun hd => ⟨lt_of_mem_allRows hg (h.below n hd), fun r path hr hpath => ?_⟩, h.above d n⟩
  -- along the path, a dominator of the last block is that block or one of the block before
  induction hpath with
  | here =>
    rcases hr.2 with rfl | hnone
    · rw [h.entry_eq] at hd
      simpa using hd
    · by_cases hne : r = entry
      · rw [hne, h.entry_eq] at hd
        simpa [hne] using hd
      have hnil : g.predecessors r = [] :=
        List.eq_nil_iff_forall_not_mem.mpr fun p hp => hnone p (mem_predecessors.mp hp)
      rw [hrow r hn hne, hnil] at hd
      simpa [shared] using hd
  | @step path m n before hl ih =>
    by_cases hne : n = entry
    · rw [hne, h.entry_eq] at hd
      simp [hne, Finset.mem_singleton.mp hd]
    · rw [hrow n hn hne, Finset.mem_insert, mem_shared] at hd
      rcases hd with rfl | ⟨-, hall⟩
      · simp
      · have hm : m < g.size := by
          obtain ⟨e, he, rfl, -⟩ := hl
          exact hg.src_lt e he
        exact List.mem_append_left _ (ih hm (hall m (mem_predecessors.mpr hl)))

end Ample

def weight (g : Graph) (rows : Nat → Finset Nat) : Nat := ∑ n ∈ Finset.range g.size, (rows n).card

theorem sweep_outside (hn : g.size ≤ n) : g.sweep rows n = rows n := by
  refine List.foldlRecOn (motive := fun t : Nat → Finset Nat => t n = rows n) g.positions _ rfl ?_
  intro t ht m hm
  rw [refresh_of_ne (by have := mem_positions.mp hm; omega), ht]

theorem Ample.weight_lt (h : g.Ample rows) (hne : g.sweep rows ≠ rows) :
    g.weight (g.sweep rows) < g.weight rows := by
  obtain ⟨n, hn⟩ := Function.ne_iff.mp hne
  have hlt : n < g.size := by
    by_contra hle
    exact hn (sweep_outside (Nat.le_of_not_lt hle))
  refine Finset.sum_lt_sum (fun m _ => Finset.card_le_card (h.sweep_le m)) ⟨n, Finset.mem_range.mpr hlt, ?_⟩
  exact Finset.card_lt_card (lt_of_le_of_ne (h.sweep_le n) hn)

theorem Ample.rests (h : g.Ample rows) : ∃ k ≤ g.weight rows, g.Ample (g.sweep^[k] rows) ∧
    g.sweep (g.sweep^[k] rows) = g.sweep^[k] rows := by
  induction hw : g.weight rows using Nat.strong_induction_on generalizing rows with
  | _ w ih =>
    by_cases heq : g.sweep rows = rows
    · exact ⟨0, Nat.zero_le _, h, heq⟩
    · have hlt := h.weight_lt heq
      obtain ⟨k, hk, hrest⟩ := ih _ (hw ▸ hlt) h.sweep rfl
      exact ⟨k + 1, by omega, hrest⟩

theorem weight_allRows (hg : g.Closed) : g.weight g.allRows ≤ g.size * g.size := by
  have hcard : ∀ n ∈ Finset.range g.size, (g.allRows n).card ≤ g.size := fun n _ =>
    (Finset.card_le_card fun d hd => Finset.mem_range.mpr (lt_of_mem_allRows hg hd)).trans
      (Finset.card_range _).le
  have hsum := Finset.sum_le_card_nsmul _ _ _ hcard
  rwa [Finset.card_range] at hsum

/-- The table of dominators is right. Every block has a row, which holds exactly the blocks that are on
every path from a root to it; if the entry is the only root that leads there, exactly those that are on
every path from the entry. The same table is what computing all rows from each other, round after round,
ends with, and no more rounds than the square of the number of blocks change anything. -/
theorem dominators_exact (hg : g.Closed) :
    g.dominators.map Prod.fst = g.positions ∧
    (∀ n row, (n, row) ∈ g.dominators →
      (∀ d, d ∈ row ↔ d < g.size ∧ ∀ r path, g.IsRoot r → g.Path r path n → d ∈ path) ∧
      ((∀ r, g.IsRoot r → g.Reaches r n → r = entry) →
        ∀ d, d ∈ row ↔ d < g.size ∧ ∀ path, g.Path entry path n → d ∈ path)) ∧
    ∃ k ≤ g.size * g.size, g.sweep (g.sweep^[k] g.allRows) = g.sweep^[k] g.allRows ∧
      ∀ n row, (n, row) ∈ g.dominators → g.sweep^[k] g.allRows n = row.toFinset := by
  refine ⟨g.dominators_fst, fun n row hrow => ⟨fun d => mem_row hg hrow, fun honly d => ?_⟩, ?_⟩
  · rw [mem_row hg hrow]
    refine and_congr_right fun _ =>
      ⟨fun h path => h entry path ⟨hg.entry_lt, .inl rfl⟩, fun h r path hr hpath => ?_⟩
    obtain rfl := honly r hr hpath.reaches
    exact h path hpath
  · obtain ⟨k, hk, hample, heq⟩ := (Ample.allRows hg).rests
    refine ⟨k, hk.trans (weight_allRows hg), heq, fun n row hrow => ?_⟩
    have hn : n < g.size := by
      rw [← mem_positions, ← g.dominators_fst]
      exact List.mem_map_of_mem hrow
    ext d
    rw [List.mem_toFinset, mem_row hg hrow, hample.mem_iff hg heq hn]

/-- A loop behind the entry with two edges into it, one of them from a block that nothing leads to; an
edge back to the entry; and a circle that no root leads to. -/
def tangle : Graph where
  blocks := [⟨.entry, []⟩, ⟨.exit, []⟩, ⟨.loopCond, []⟩, ⟨.unreachable, []⟩, ⟨.body, []⟩, ⟨.body, []⟩]
  edges := [⟨0, 2, .fallThrough, none⟩, ⟨0, 2, .goto, none⟩, ⟨2, 2, .backEdge, none⟩, ⟨2, 0, .goto, none⟩,
    ⟨2, 1, .fallThrough, none⟩, ⟨3, 2, .fallThrough, none⟩, ⟨4, 5, .fallThrough, none⟩,
    ⟨5, 4, .fallThrough, none⟩]

theorem tangle_closed : tangle.Closed := ⟨by decide, by decide, by decide⟩

/-- The loop is not dominated by the entry, since there is a way to it from elsewhere; and what no path
reaches is dominated by everything. -/
theorem dominators_exact_tangle :
    tangle.Closed ∧
    tangle.dominators = [(0, [0]), (1, [1, 2]), (2, [2]), (3, [3]), (4, [0, 1, 2, 3, 4, 5]),
      (5, [0, 1, 2, 3, 4, 5])] ∧
    (∀ d, d ∈ [1, 2] ↔ d < 6 ∧ ∀ r path, tangle.IsRoot r → tangle.Path r path 1 → d ∈ path) ∧
    ∃ k ≤ 36, tangle.sweep (tangle.sweep^[k] tangle.allRows) = tangle.sweep^[k] tangle.allRows ∧
      tangle.sweep^[k] tangle.allRows 2 = {2} := by
  have htable : tangle.dominators = [(0, [0]), (1, [1, 2]), (2, [2]), (3, [3]), (4, [0, 1, 2, 3, 4, 5]),
      (5, [0, 1, 2, 3, 4, 5])] := by decide
  obtain ⟨-, hrows, k, hk, heq, hsweep⟩ := dominators_exact tangle_closed
  rw [htable] at hrows hsweep
  refine ⟨tangle_closed, htable, (hrows 1 _ (by simp)).1, k, hk, heq, ?_⟩
  exact hsweep 2 [2] (by simp)

end SignFlow.Graph

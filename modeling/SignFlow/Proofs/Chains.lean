import Mathlib.Data.List.Chain
import SignFlow.Proofs.Convergence
import SignFlow.Proofs.Representation

/-! How far a store can rise.

A larger store binds no key that a smaller one leaves free, unless the smaller one is unreachable. So on its
way up a store has only its own keys to lose, and each of them can rise twice before it is lost. This bounds
every ascending chain, although there is no bound on the keys that stores may bind. -/

namespace SignFlow.Store

variable {s t : Store} {keys : Finset Key}

theorem lookup_ne_top {k : Key} (hk : k ∈ s.keys) : s.lookup k ≠ .top := by
  obtain ⟨⟨_, v⟩, he, rfl⟩ := List.mem_map.mp hk
  obtain ⟨heq, -, hv⟩ := mem_entries.mp he
  rwa [heq]

/-- Where control arrives, a larger store binds no new key. -/
theorem binding_mono (hb : s ∈ binding keys) (hs : s.isReachable = true) (hle : s ≤ t) :
    t ∈ binding keys := by
  intro k hk
  by_contra hout
  have htop : Sign.top ≤ t.lookup k := lookup_outside hb hs hout ▸ le_iff.mp hle k
  exact lookup_ne_top hk (Sign.le_antisymm (Sign.le_top _) htop)

theorem card_keys (s : Store) : s.keys.toFinset.card = s.size := by
  rw [List.toFinset_card_of_nodup s.keys_nodup]
  exact List.length_map _

/-- The rank rises with every step of a chain. -/
theorem chain_rank {chain : List Store} (hb : s ∈ binding keys) (hs : s.isReachable = true)
    (h : (s :: chain).IsChain fun a b => a ≤ b ∧ a ≠ b) :
    s.rank keys + chain.length ≤ 2 * keys.card + 1 := by
  induction chain generalizing s with
  | nil => exact rank_bound keys s
  | cons t rest ih =>
    obtain ⟨⟨hle, hne⟩, hrest⟩ := List.isChain_cons_cons.mp h
    have ht := binding_mono hb hs hle
    have hlt := rank_rises hb ht hle hne
    have hbound := ih ht (isReachable_mono hle hs) hrest
    rw [List.length_cons]
    omega

theorem chain_length_le {chain : List Store} (hs : s.isReachable = true)
    (h : (s :: chain).IsChain fun a b => a ≤ b ∧ a ≠ b) : chain.length ≤ 2 * s.size := by
  have hb : s ∈ binding s.keys.toFinset := fun k hk => List.mem_toFinset.mpr hk
  have hbound := chain_rank hb hs h
  have hrank : 1 ≤ s.rank s.keys.toFinset := by
    rw [rank, if_pos hs]
    exact Nat.le_add_right 1 _
  rw [card_keys] at hbound
  omega

/-- A chain of stores that starts where control arrives takes at most two steps for each key of the first
store, whatever keys there are. So no store rises for ever. -/
theorem ascending_chains_end :
    (∀ (s : Store) (chain : List Store), s.isReachable = true →
      ((s :: chain).IsChain fun a b => a ≤ b ∧ a ≠ b) → chain.length ≤ 2 * s.size) ∧
    ¬∃ f : Nat → Store, ∀ i, f i ≤ f (i + 1) ∧ f i ≠ f (i + 1) := by
  refine ⟨fun s chain hs h => chain_length_le hs h, ?_⟩
  rintro ⟨f, hf⟩
  -- the first step may only have made the store reachable, so the chain is taken from the second one on
  have hreach : (f 1).isReachable = true := by
    rw [← Bool.not_eq_false]
    intro hdead
    have hone := eq_unreachable hdead
    exact (hf 0).2 (le_antisymm (hf 0).1 (hone ▸ unreachable_le _))
  have hchain : ((List.range' 1 (2 * (f 1).size + 2)).map f).IsChain fun a b => a ≤ b ∧ a ≠ b := by
    refine List.isChain_map_of_isChain f ?_ (List.isChain_range' 1 _ 1)
    rintro i _ rfl
    exact hf i
  rw [List.range'_succ, List.map_cons] at hchain
  have hlength := chain_length_le hreach hchain
  rw [List.length_map, List.length_range'] at hlength
  omega

def signedPair : Store := (empty.bind (.id 1) .neg).bind (.name "y") .pos

def signedPairRising : List Store :=
  [(empty.bind (.id 1) .nonzero).bind (.name "y") .pos, (empty.bind (.id 1) .nonzero).bind (.name "y") .nonzero,
    empty.bind (.name "y") .nonzero, empty]

theorem ascending_chains_end_pair :
    signedPair.isReachable = true ∧ ((signedPair :: signedPairRising).IsChain fun a b => a ≤ b ∧ a ≠ b) ∧
      signedPair.size = 2 ∧ signedPairRising.length = 4 ∧ signedPairRising.length ≤ 2 * signedPair.size := by
  have hchain : (signedPair :: signedPairRising).IsChain fun a b => a ≤ b ∧ a ≠ b := by decide
  exact ⟨rfl, hchain, by decide, rfl, ascending_chains_end.1 signedPair signedPairRising rfl hchain⟩

end SignFlow.Store

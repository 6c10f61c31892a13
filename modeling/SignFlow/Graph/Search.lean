import SignFlow.Graph.Basic

/-! Depth-first search, and what follows from it: reachability, reverse post-order, dominance. -/

namespace SignFlow

structure Search where
  seen : List Nat := []
  order : List Nat := []
  deriving DecidableEq, Repr

namespace Graph

/-- Visits a block, then what it leads to and has not been seen, and finishes it last. Every level of
the search sees a new block, so as much fuel as there are blocks is enough. -/
def explore (g : Graph) : Nat → Nat → Search → Search
  | 0, _, s => s
  | fuel + 1, n, s =>
    let s := (g.successors n).foldl
      (fun s m => if s.seen.contains m then s else explore g fuel m s)
      { s with seen := n :: s.seen }
    { s with order := n :: s.order }

def exploreFrom (g : Graph) (starts : List Nat) : Search :=
  starts.foldl (fun s n => if s.seen.contains n then s else g.explore g.size n s) {}

/-- From the entry, each block before the blocks it leads to, loops apart. -/
def reversePostorder (g : Graph) : List Nat := (g.exploreFrom [entry]).order

def reachable (g : Graph) (start : Nat) : List Nat :=
  let seen := (g.exploreFrom [start]).seen
  g.positions.filter seen.contains

def roots (g : Graph) : List Nat :=
  g.positions.filter fun n => n == entry || (g.predecessors n).isEmpty

def isolate (g : Graph) (d : Nat) : Graph :=
  { g with edges := g.edges.filter fun e => e.src != d && e.dst != d }

def around (g : Graph) (d : Nat) : List Nat :=
  ((g.isolate d).exploreFrom (g.roots.filter (· != d))).seen

/-- A block lists its dominators: those that no path from a root to it goes around. -/
def dominators (g : Graph) : List (Nat × List Nat) :=
  let table := g.positions.map fun d => (d, g.around d)
  g.positions.map fun n =>
    (n, (table.filter fun row => row.1 == n || !row.2.contains n).map Prod.fst)

def backEdges (g : Graph) : List Edge :=
  let table := g.dominators
  g.edges.filter fun e => ((table.lookup e.src).getD []).contains e.dst

end Graph

end SignFlow

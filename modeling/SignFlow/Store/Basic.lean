import SignFlow.Store.Facts

/-! Stores: what is known of every variable at a point of the program.

A store is unreachable, or it gives signs to finitely many keys and leaves the others free. Unreachable
is the least store, the empty one the greatest. Binding an impossible sign makes a store unreachable. -/

namespace SignFlow

inductive Store
  | unreachable
  | reachable (facts : Facts)
  deriving DecidableEq

namespace Store

def empty : Store := reachable .empty

instance : Inhabited Store := ⟨empty⟩

def isReachable : Store → Bool
  | unreachable => false
  | reachable _ => true

def entries : Store → List (Key × Sign)
  | unreachable => []
  | reachable f => f.entries

def keys (s : Store) : List Key := s.entries.map Prod.fst

def contains (s : Store) (k : Key) : Bool := s.keys.contains k

def size (s : Store) : Nat := s.entries.length

def lookup (s : Store) (k : Key) : Sign :=
  match s with
  | unreachable => .bottom
  | reachable f => (f.get? k).getD .top

def bind (s : Store) (k : Key) (v : Sign) : Store :=
  match s with
  | unreachable => unreachable
  | reachable f => if v = .bottom then unreachable else reachable (f.put k v)

def forget (s : Store) (k : Key) : Store :=
  match s with
  | unreachable => unreachable
  | reachable f => reachable (f.erase k)

/-- The bindings of a list of pairs: of a key given twice the last sign counts. -/
def lastBindings (pairs : List (Key × Sign)) : List (Key × Sign) :=
  pairs.foldr (fun p rest => if rest.any fun q => q.1 = p.1 then rest else p :: rest) []

def ofBindings (pairs : List (Key × Sign)) : Store :=
  (lastBindings pairs).foldl (fun s p => s.bind p.1 p.2) empty

def join : Store → Store → Store
  | unreachable, t => t
  | s, unreachable => s
  | reachable f, reachable g => reachable (f.join g)

def merge (stores : List Store) : Store := stores.foldl join unreachable

def le (s t : Store) : Bool :=
  match s, t with
  | unreachable, _ => true
  | _, unreachable => false
  | s, reachable g => g.entries.all fun e => (s.lookup e.1).le e.2

instance : LE Store := ⟨fun s t => s.le t = true⟩

instance (s t : Store) : Decidable (s ≤ t) := inferInstanceAs (Decidable (s.le t = true))

/-- Takes in, key by key, what another store allows. An unreachable store allows nothing. -/
def absorb (s t : Store) : Store :=
  if t.isReachable then
    (s.keys ++ t.keys).foldl (fun r k => r.bind k ((r.lookup k).join (t.lookup k))) s
  else s

/-- Takes over, key by key, what another store says. -/
def adopt (s t : Store) : Store :=
  (s.keys ++ t.keys).foldl (fun r k => r.bind k (t.lookup k)) s

/-- A store as messages show it, its keys in the order of their texts. -/
def display : Store → String
  | unreachable => "AbstractStore(⊥)"
  | reachable f =>
    let shown := f.entries.map fun e => (e.1.display, e.2.symbol)
    "AbstractStore(\x7b" ++ ", ".intercalate ((Text.sortByName shown).map fun e => e.1 ++ ": " ++ e.2) ++ "\x7d)"

end Store

end SignFlow

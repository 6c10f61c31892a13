import SignFlow.Number.Fault
import SignFlow.Sign.Operator
import SignFlow.Store.Basic

/-! Evaluation steps: they read and change a store, note divisions, and may stop with a fault.

A fault leaves the store as it was when it arose. -/

namespace SignFlow

/-- A division as it was evaluated: where, and the signs on both sides. -/
structure Site where
  pos : Nat
  operator : Operator
  dividend : Sign
  divisor : Sign
  compound : Bool := false
  integral : Bool := true
  deriving DecidableEq, Repr

/-- What a step leaves behind. -/
structure Outcome (α : Type) where
  value : Except Fault α
  store : Store
  sites : List Site := []

def Walk (α : Type) : Type := Store → Outcome α

namespace Walk

variable {α β : Type}

protected def pure (a : α) : Walk α := fun s => { value := .ok a, store := s }

protected def bind (x : Walk α) (f : α → Walk β) : Walk β := fun s =>
  let r := x s
  match r.value with
  | .ok a =>
    let q := f a r.store
    { q with sites := r.sites ++ q.sites }
  | .error e => { value := .error e, store := r.store, sites := r.sites }

instance : Monad Walk where
  pure := Walk.pure
  bind := Walk.bind

def store : Walk Store := fun s => { value := .ok s, store := s }

def change (f : Store → Store) : Walk Unit := fun s => { value := .ok (), store := f s }

def note (site : Site) : Walk Unit := fun s => { value := .ok (), store := s, sites := [site] }

def lift (x : Except Fault α) : Walk α := fun s => { value := x, store := s }

/-- Runs a step on another store and gives that store afterwards; the current one stays. -/
def aside (other : Store) (x : Walk α) : Walk (α × Store) := fun s =>
  let r := x other
  { value := r.value.map fun a => (a, r.store), store := s, sites := r.sites }

end Walk

end SignFlow

import Mathlib

/-!
# Layers of writes over a state of rows

A state of rows gives each key a row of the key's own type, or none. Changes to it are kept in a
stack of layers, the newest first: a key that a layer has written reads as it was last written, and
every other key as it reads below. A layer that is merged into the one under it leaves every read as
it was.

## Main definitions

* `RowState S R`: states with a row of type `R k` at the key `k`
* `Layers.lookup`, `Layers.read`: what the layers have written at a key, and what it reads as
* `Layers.apply`, `Layers.flatten`: the state with a layer, or with all of them, written to it
-/

/-- States of rows: at the key `k` a row of the type `R k`, or none. -/
class RowState (S : Type) {K : outParam Type} (R : outParam (K → Type)) where
  get : S → (k : K) → Option (R k)
  set : S → (k : K) → Option (R k) → S
  get_set_self : ∀ s k v, get (set s k v) k = v
  get_set_of_ne : ∀ s {k k'} v, k' ≠ k → get (set s k v) k' = get s k'

namespace Layers

variable {K : Type} [DecidableEq K] {β : K → Type}

/-- What the layers have written at a key; the newest layer first. -/
def lookup (layers : List (AList β)) (k : K) : Option (β k) := layers.findSome? (AList.lookup k)

/-! ## Over a state -/

variable {R : K → Type} {S : Type} [RowState S R]

/-- What a key reads as. -/
def read (base : S) (layers : List (AList fun k => Option (R k))) (k : K) : Option (R k) :=
  (lookup layers k).getD (RowState.get base k)

/-- The entries of a layer written to a state. -/
def applyEntries (base : S) : List (Σ k, Option (R k)) → S
  | [] => base
  | ⟨k, v⟩ :: entries => RowState.set (applyEntries base entries) k v

/-- A layer written to a state. -/
def apply (base : S) (layer : AList fun k => Option (R k)) : S := applyEntries base layer.entries

/-- All layers written to a state, the oldest first. -/
def flatten (base : S) : List (AList fun k => Option (R k)) → S
  | [] => base
  | top :: layers => apply (flatten base layers) top

end Layers

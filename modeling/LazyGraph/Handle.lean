/-! Handles name heap slots, actors name evaluators.

A handle carries the generation its slot had when the node was allocated, so a
handle to a reclaimed node is told apart from one to the slot's next tenant. -/

set_option autoImplicit false

namespace LazyGraph

structure Handle where
  index : UInt32
  generation : UInt32
  deriving DecidableEq, Repr, Hashable

namespace Handle

def text (handle : Handle) : String :=
  "@" ++ toString handle.index.toNat

def le (left right : Handle) : Bool :=
  left.index < right.index || (left.index == right.index && left.generation ≤ right.generation)

end Handle

/-- Identity of an evaluator, recorded in the slots it is reducing. -/
structure Actor where
  number : UInt32
  deriving DecidableEq, Repr

def Actor.text (actor : Actor) : String :=
  "actor " ++ toString actor.number.toNat

end LazyGraph

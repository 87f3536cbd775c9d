import LazyGraph.Node

/-! Heap slots: a node and its evaluation state.

Only a thunk leaves `evaluated`. It starts `unevaluated`, is claimed by one actor,
and is then completed with its result or released as it was. -/

set_option autoImplicit false

namespace LazyGraph

inductive SlotState where
  | unevaluated
  | inProgress (owner : Actor)
  | evaluated
  deriving DecidableEq, Repr

def SlotState.text : SlotState → String
  | .unevaluated => "unevaluated"
  | .inProgress owner => "in progress: " ++ owner.text
  | .evaluated => "evaluated"

def SlotState.heldByOther (state : SlotState) (actor : Actor) : Bool :=
  match state with
  | .inProgress owner => owner ≠ actor
  | _ => false

structure Slot where
  state : SlotState
  node : Node

namespace Slot

def ofNode (node : Node) : Slot where
  state := match node with
    | .thunk .. => .unevaluated
    | _ => .evaluated
  node := node

/-! Transitions; `none` when the slot refuses. -/

def claim (actor : Actor) (slot : Slot) : Option Slot :=
  if slot.state = .unevaluated then some { slot with state := .inProgress actor } else none

def complete (actor : Actor) (result : Node) (slot : Slot) : Option Slot :=
  if slot.state = .inProgress actor then some ⟨.evaluated, result⟩ else none

def release (actor : Actor) (slot : Slot) : Option Slot :=
  if slot.state = .inProgress actor then some { slot with state := .unevaluated } else none

def redirect (target : Handle) (slot : Slot) : Option Slot :=
  match slot.node with
  | .indirection _ => some { slot with node := .indirection target }
  | _ => none

end Slot

end LazyGraph

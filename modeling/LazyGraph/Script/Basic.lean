import LazyGraph.Heap.Census
import LazyGraph.Machine.World
import LazyGraph.Settings
import LazyGraph.View.Graph
import LazyGraph.View.Render

/-! A host made of canned functions, for driving evaluators from outside.

Each host function performs one action. The host keeps named registers, counts calls
and collects what its functions observe. -/

set_option autoImplicit false

namespace LazyGraph

/-- A node given directly, or by the register that holds it when it is used. -/
inductive Reference where
  | handle (handle : Handle)
  | register (name : String)
  deriving DecidableEq, Repr

/-- What a host function does when it is called. -/
inductive Action where
  | count
  | answer (node : Node)
  | operand (index : UInt64)
  | describe
  | compare
  | fail (fault : Fault)
  | failFirst (times : UInt64) (fault : Fault) (node : Node)
  | cancel
  | observe (node : Reference)
  | force (node : Reference) (settings : EvalSettings) (cancelAfter : Option UInt64)
  | sleep (milliseconds : UInt64) (node : Node)

inductive Observation where
  | seen (render describe : String) (state : Except Fault SlotState) (graph : List NodeView)
      (live total : UInt64) (unevaluated : Nat)
  | forced (actor : Actor) (steps : Nat) (result : Except Fault Handle)

structure Script where
  actions : Array Action
  calls : Nat
  -- Bindings of names, the latest first.
  registers : List (String × Handle)
  observations : Array Observation
  token : Token
  nextToken : Nat

namespace Script

def empty : Script where
  actions := #[]
  calls := 0
  registers := []
  observations := #[]
  token := ⟨0⟩
  nextToken := 1

def define (script : Script) (action : Action) : Nat × Script :=
  (script.actions.size, { script with actions := script.actions.push action })

def bind (script : Script) (name : String) (handle : Handle) : Script :=
  { script with registers := (name, handle) :: script.registers.filter fun binding => binding.1 ≠ name }

def register? (script : Script) (name : String) : Option Handle :=
  script.registers.lookup name

def resolve? (script : Script) : Reference → Option Handle
  | .handle handle => some handle
  | .register name => script.register? name

def freshToken (script : Script) : Token × Script :=
  (⟨script.nextToken⟩, { script with nextToken := script.nextToken + 1 })

def registerList (script : Script) : List (String × Handle) :=
  script.registers.mergeSort fun left right => left.1 ≤ right.1

end Script

def Heap.observe (heap : Heap) (handle : Handle) : Observation :=
  .seen (heap.render handle 0) (heap.describe handle) (heap.state handle) (heap.graph handle)
    heap.live heap.total heap.census.unevaluated

end LazyGraph

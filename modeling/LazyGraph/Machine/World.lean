import LazyGraph.Heap.Collect
import LazyGraph.Heap.Follow
import LazyGraph.Heap.Wait
import LazyGraph.Machine.Frame

/-! What evaluators share: the heap, the time, cancellations, the record of events and
the state of the host.

Time is virtual. A step takes one tick; host functions and waits let more pass. -/

set_option autoImplicit false

namespace LazyGraph

/-- What is worth recording about a run. -/
inductive Event where
  | step (actor : Actor) (steps depth : Nat) (control : Control)
  | top (frame : Frame)
  | waiting (actor : Actor) (node : Handle)
  | updated (actor : Actor) (node : Handle) (result : Node)
  | aborted (actor : Actor) (steps : Nat) (fault : Fault) (released : Nat)
  | collected (cycle : Cycle)

namespace Event

def isDetail : Event → Bool
  | .step .. | .top _ | .waiting .. => true
  | .updated .. | .aborted .. | .collected _ => false

def message : Event → String
  | .step actor steps depth control => s!"{actor.text} step={steps} depth={depth} {control.text}"
  | .top frame => "  top: " ++ frame.name
  | .waiting actor node => s!"{actor.text} waiting on {node.text}"
  | .updated actor node result => s!"{actor.text} updated {node.text} -> {result.brief}"
  | .aborted actor steps fault released =>
      s!"{actor.text} aborted after {steps} steps: {fault.message} ({released} update markers released)"
  | .collected cycle =>
      s!"gc cycle {cycle.number}: {cycle.liveBefore} -> {cycle.liveAfter} live ({cycle.collected} collected, threshold {cycle.thresholdAfter.toNat})"

end Event

/-- Names something that can be cancelled. -/
structure Token where
  number : Nat
  deriving DecidableEq, Repr

structure World (σ : Type) where
  heap : Heap
  -- Ticks passed.
  clock : Nat
  cancellations : List (Token × Nat)
  -- Oldest first.
  events : Array Event
  host : σ

def ticksPerMillisecond : Nat := 10000

namespace World

variable {σ : Type}

def record (world : World σ) (event : Event) : World σ :=
  { world with events := world.events.push event }

def pass (world : World σ) (milliseconds : Nat) : World σ :=
  { world with clock := world.clock + milliseconds * ticksPerMillisecond }

def cancelAfter (world : World σ) (token : Token) (milliseconds : Nat) : World σ :=
  { world with
    cancellations := (token, world.clock + milliseconds * ticksPerMillisecond) :: world.cancellations }

def isCancelled (world : World σ) (token : Token) : Bool :=
  world.cancellations.any fun (cancelled, time) => cancelled = token && time ≤ world.clock

def onHeap {α : Type} (operation : HeapM α) : EStateM Fault (World σ) α := fun world =>
  match operation world.heap with
  | .ok result heap => .ok result { world with heap := heap }
  | .error fault heap => .error fault { world with heap := heap }

/-- Runs a collection and records it. -/
def collect (world : World σ) (roots : List Handle) : Cycle × World σ :=
  let (cycle, heap) := world.heap.collect roots
  (cycle, { world with heap := heap }.record (.collected cycle))

end World

/-- The meaning of host functions: what a call on evaluated operands returns and does. -/
structure Host (σ : Type) where
  call : HostFn → List Node → EStateM Fault (World σ) Node

end LazyGraph

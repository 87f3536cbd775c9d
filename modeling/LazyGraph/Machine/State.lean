import LazyGraph.Machine.World
import LazyGraph.Settings
import LazyGraph.Stack

/-! The state of a running evaluator, its limits, and changes to the shared world. -/

set_option autoImplicit false

namespace LazyGraph

/-- One evaluator: who it is, what limits it has, and what cancels it. -/
structure Evaluator where
  actor : Actor
  settings : EvalSettings
  token : Option Token

structure State (σ : Type) where
  stack : Stack Frame
  steps : Nat
  deadline : Option Nat
  world : World σ

/-- Transitions of an evaluator. A fault leaves the state reached so far. -/
abbrev MachineM (σ : Type) := EStateM Fault (State σ)

namespace Machine

variable {σ : Type}

def onWorld {α : Type} (operation : EStateM Fault (World σ) α) : MachineM σ α := fun state =>
  match operation state.world with
  | .ok result world => .ok result { state with world := world }
  | .error fault world => .error fault { state with world := world }

def onHeap {α : Type} (operation : HeapM α) : MachineM σ α :=
  onWorld (World.onHeap operation)

def modifyWorld (change : World σ → World σ) : MachineM σ Unit := fun state =>
  .ok () { state with world := change state.world }

def settle {α : Type} : Except Fault α → MachineM σ α
  | .ok value => pure value
  | .error fault => throw fault

def getHeap : MachineM σ Heap := fun state =>
  .ok state.world.heap state

def record (event : Event) : MachineM σ Unit :=
  modifyWorld (·.record event)

def push (evaluator : Evaluator) (frame : Frame) : MachineM σ Unit := fun state =>
  if evaluator.settings.maxWorkStack.toNat ≤ state.stack.depth then
    .error (.exhausted (.workStack evaluator.settings.maxWorkStack)) state
  else
    .ok () { state with stack := state.stack.push frame }

def interruption? (evaluator : Evaluator) (state : State σ) : Option Limit :=
  if evaluator.token.any state.world.isCancelled then some .cancelled
  else if state.deadline.any fun deadline => deadline ≤ state.world.clock then some .deadline
  else none

def checkInterruption (evaluator : Evaluator) : MachineM σ Unit := fun state =>
  match interruption? evaluator state with
  | some limit => .error (.exhausted limit) state
  | none => .ok () state

/-- Begins a step: counts it, lets a tick pass and checks the limits. -/
def tick (evaluator : Evaluator) : MachineM σ Unit := do
  modify fun state =>
    { state with steps := state.steps + 1, world := { state.world with clock := state.world.clock + 1 } }
  match evaluator.settings.maxSteps with
  | some limit => if limit.toNat < (← get).steps then throw (.exhausted (.steps limit))
  | none => pure ()
  checkInterruption evaluator

/-- Records a step that is about to be taken, if the evaluator is traced. -/
def trace (evaluator : Evaluator) (control : Control) : MachineM σ Unit := fun state =>
  if evaluator.settings.trace then
    let world := state.world.record (.step evaluator.actor state.steps state.stack.depth control)
    match state.stack.top? with
    | some frame => .ok () { state with world := world.record (.top frame) }
    | none => .ok () { state with world := world }
  else .ok () state

def updateMarkers (stack : Stack Frame) : List Handle :=
  stack.items.reverse.filterMap fun
    | .update node => some node
    | _ => none

end Machine

end LazyGraph

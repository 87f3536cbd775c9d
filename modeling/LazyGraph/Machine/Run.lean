import LazyGraph.Machine.Return

/-! Running an evaluator: one transition, the loop over transitions, and a whole call
with its clean-up after a fault. -/

set_option autoImplicit false

namespace LazyGraph

inductive Progress where
  | continues (control : Control)
  | finished (result : Handle)

namespace Machine

variable {σ : Type}

/-- Hands a result to the top frame; without one, the call is finished. -/
def finish (host : Host σ) (evaluator : Evaluator) (whnf : Whnf) : MachineM σ Progress := do
  match (← get).stack.pop? with
  | some (frame, stack) =>
    modify fun state => { state with stack := stack }
    return .continues (← resume host evaluator frame whnf)
  | none =>
    match whnf.handle? with
    | some handle => return .finished handle
    | none => return .finished (← onHeap (Heap.alloc whnf.node))

/-- One transition. Looking again at a node waited for is no step. -/
def iterate (host : Host σ) (evaluator : Evaluator) (control : Control) : MachineM σ Progress := do
  match control with
  | .await links node => return .continues (← resumeWait evaluator links node)
  | .eval expr env => do
    tick evaluator
    trace evaluator control
    return .continues (← eval host evaluator expr env)
  | .force handle => do
    tick evaluator
    trace evaluator control
    return .continues (← demand evaluator handle)
  | .deliver whnf => do
    tick evaluator
    trace evaluator control
    finish host evaluator whnf

def run (host : Host σ) (evaluator : Evaluator) :
    (fuel : Nat) → Control → State σ → Option (EStateM.Result Fault (State σ) Handle)
  | 0, _, _ => none
  | fuel + 1, control, state =>
    match iterate host evaluator control state with
    | .ok (.continues control) state => run host evaluator fuel control state
    | .ok (.finished result) state => some (.ok result state)
    | .error fault state => some (.error fault state)

/-- Gives back the thunks claimed by the frames, the top one first; counts on from `released`. -/
def releaseAll (actor : Actor) : List Frame → (released : Nat) → Heap → Nat × Heap
  | [], released, heap => (released, heap)
  | .update node :: frames, released, heap =>
    match Heap.release node actor heap with
    | .ok true heap => releaseAll actor frames (released + 1) heap
    | .ok false heap | .error _ heap => releaseAll actor frames released heap
  | _ :: frames, released, heap => releaseAll actor frames released heap

/-- Drops the work stack after a fault, and hands every claimed thunk back. -/
def unwind (evaluator : Evaluator) (fault : Fault) (state : State σ) : State σ :=
  let (released, heap) := releaseAll evaluator.actor state.stack.items 0 state.world.heap
  { state with
    stack := .empty
    world := { state.world with heap := heap.endWait evaluator.actor }.record
      (.aborted evaluator.actor state.steps fault released) }

/-- A new call: no steps taken, and the time limit counted from now. -/
def begin (evaluator : Evaluator) (state : State σ) : State σ :=
  { state with
    steps := 0
    deadline := evaluator.settings.timeLimit.map fun limit =>
      state.world.clock + limit.toNat * ticksPerMillisecond }

/-- Reduces a node to weak head normal form and returns where the result lives. Every
thunk on the way is overwritten with its value. None when `fuel` transitions do not end
the call. -/
def force (host : Host σ) (evaluator : Evaluator) (fuel : Nat) (root : Handle) (state : State σ) :
    Option (Except Fault Handle × State σ) :=
  match run host evaluator fuel (.force root) (begin evaluator state) with
  | none => none
  | some (.ok result state) => some (.ok result, state)
  | some (.error fault state) => some (.error fault, unwind evaluator fault state)

/-- A new evaluator on the shared heap, with no frames and no steps. -/
def start (world : World σ) (settings : EvalSettings) (token : Option Token) : Evaluator × State σ :=
  let (actor, heap) := world.heap.registerActor
  (⟨actor, settings, token⟩, ⟨.empty, 0, none, { world with heap := heap }⟩)

/-- Forces the roots one after the other, each with an evaluator of its own. -/
def forceEach (host : Host σ) (settings : EvalSettings) (fuel : Nat) :
    List Handle → World σ → Option (List (Except Fault Handle) × World σ)
  | [], world => some ([], world)
  | root :: roots, world => do
    let (evaluator, state) := start world settings none
    let (result, state) ← force host evaluator fuel root state
    let (results, world) ← forceEach host settings fuel roots state.world
    return (result :: results, world)

end Machine

end LazyGraph

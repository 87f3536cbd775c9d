import LazyGraph.Machine.Run
import LazyGraph.Proofs.Machine.Contract

/-! Evaluators that work at the same time.

What an evaluator does is cut into actions: to read a node, to try to claim it, to write a
result, to mark it as evaluated, and so on. An action is taken at once, and between two
actions of one evaluator the others may take any number of theirs. A chain is followed one
node after the other, so it may change behind the evaluator and before it. -/

set_option autoImplicit false

namespace LazyGraph.Parallel

open Machine

/-! ### Plans -/

inductive Plan (σ α : Type) : Type 1 where
  | ended (value : α)
  | act {β : Type} (action : MachineM σ β) (next : β → Plan σ α)

namespace Plan

variable {σ α β : Type}

def bind : Plan σ α → (α → Plan σ β) → Plan σ β
  | .ended value, later => later value
  | .act action next, later => .act action fun result => (next result).bind later

instance : Monad (Plan σ) where
  pure := .ended
  bind := bind

theorem bind_ended (plan : Plan σ α) : plan.bind .ended = plan := by
  induction plan with
  | ended value => rfl
  | act action next ih => exact congrArg (Plan.act action) (funext ih)

theorem bind_assoc {γ : Type} (plan : Plan σ α) (first : α → Plan σ β) (second : β → Plan σ γ) :
    (plan.bind first).bind second = plan.bind fun value => (first value).bind second := by
  induction plan with
  | ended value => rfl
  | act action next ih => exact congrArg (Plan.act action) (funext ih)

instance : LawfulMonad (Plan σ) :=
  .mk' _ bind_ended (fun _ _ => rfl) bind_assoc

def once (action : MachineM σ α) : Plan σ α :=
  .act action .ended

/-- The actions one after the other, with nothing in between. -/
def alone : Plan σ α → MachineM σ α
  | .ended value => pure value
  | .act action next => do (next (← action)).alone

end Plan

open Plan

variable {σ : Type}

/-! ### Changes of one slot -/

/-- Tries to claim a thunk; if it cannot be claimed, this is the state it was found in. -/
def tryClaim (handle : Handle) (actor : Actor) : HeapM (Option SlotState) := do
  let heap ← get
  match heap.state handle with
  | .error fault => throw fault
  | .ok state => return if ← Heap.claim handle actor then none else some state

/-- Writes the result into a slot, which stays in progress. -/
def write (handle : Handle) (result : Node) : HeapM Unit := do
  let _ ← Heap.transition handle fun slot => some { slot with node := result }

/-- Marks a slot as evaluated and tells those who wait. -/
def mark (handle : Handle) : HeapM Unit := do
  let _ ← Heap.transition handle fun slot => some { slot with state := .evaluated }
  modify Heap.notify

theorem tryClaim_cases {heap : Heap} {node : Handle} {slot : Slot} (found : heap.lookup node = .ok slot) (actor : Actor) :
    (slot.state = .unevaluated ∧
      tryClaim node actor heap = .ok none (heap.put node.index.toNat { slot with state := .inProgress actor })) ∨
    (slot.state ≠ .unevaluated ∧ tryClaim node actor heap = .ok (some slot.state) heap) := by
  have looked : heap.state node = .ok slot.state := by
    rw [Heap.state, found]
    rfl
  unfold tryClaim
  rw [bind_ok (rfl : (get : HeapM Heap) heap = .ok heap heap)]
  simp only [looked]
  by_cases free : slot.state = .unevaluated
  · have claimed : Heap.claim node actor heap =
        .ok true (heap.put node.index.toNat { slot with state := .inProgress actor }) := by
      simp [Heap.claim, Heap.transition, found, Slot.claim, free]
    exact .inl ⟨free, bind_ok claimed⟩
  · exact .inr ⟨free, bind_ok (claim_refused actor found free)⟩

/-- The actor has tried to claim the slot, and has seen what came of it. -/
theorem tryClaim_answer {node : Handle} {actor : Actor} {heap heap' : Heap} {answer : Option SlotState}
    (answered : tryClaim node actor heap = .ok answer heap') :
    Heap.claim node actor heap = .ok answer.isNone heap' := by
  unfold tryClaim at answered
  rw [bind_ok (rfl : (get : HeapM Heap) heap = .ok heap heap)] at answered
  cases known : heap.state node with
  | error fault =>
    simp only [known] at answered
    cases answered
  | ok state =>
    simp only [known] at answered
    cases claimed : Heap.claim node actor heap with
    | error fault after =>
      rw [bind_error claimed] at answered
      cases answered
    | ok won after =>
      rw [bind_ok claimed] at answered
      cases won <;> cases answered <;> rfl

theorem write_ok {heap : Heap} {node : Handle} {slot : Slot} (found : heap.lookup node = .ok slot) (result : Node) :
    write node result heap = .ok () (heap.put node.index.toNat { slot with node := result }) := by
  have written : Heap.transition node (fun slot => some { slot with node := result }) heap =
      .ok true (heap.put node.index.toNat { slot with node := result }) := by
    simp [Heap.transition, found]
  rw [write, bind_ok written]
  rfl

theorem mark_ok {heap : Heap} {node : Handle} {slot : Slot} (found : heap.lookup node = .ok slot) :
    mark node heap = .ok () (heap.put node.index.toNat { slot with state := .evaluated }).notify := by
  have written : Heap.transition node (fun slot => some { slot with state := .evaluated }) heap =
      .ok true (heap.put node.index.toNat { slot with state := .evaluated }) := by
    simp [Heap.transition, found]
  rw [mark, bind_ok written]
  rfl

/-- Looks whether the actor holds the slot, writes the result and marks it. -/
def complete (handle : Handle) (actor : Actor) (result : Node) : Plan σ Bool := do
  let state ← once do settle ((← getHeap).state handle)
  if state = .inProgress actor then
    once (onHeap (write handle result))
    once (onHeap (mark handle))
    return true
  else
    once (onHeap (modify Heap.notify))
    return false

def redirectAll (links : List Handle) (target : Handle) : Plan σ Unit :=
  links.forM fun link => once do
    let _ ← onHeap (Heap.redirect link target)

/-! ### Evaluating and resuming -/

def suspend (env : Env) (expr : Expr) : Plan σ Handle := do
  match ← once (settle (env.suspend expr)) with
  | .existing handle => return handle
  | .new node => once (onHeap (Heap.alloc node))

def suspendAll (env : Env) (exprs : List Expr) : Plan σ (List Handle) :=
  exprs.mapM (suspend env)

/-- Others may use the heap between the reservation of a group and its filling. -/
def allocGroup (count : UInt64) (build : List Handle → List Node) : Plan σ (List Handle) :=
  if count = 0 then return [] else do
    let handles ← once (onHeap (Heap.openGroup count))
    once (onHeap (Heap.closeGroup count handles (build handles)))
    return handles

def bindAll (env : Env) (bindings : List Expr) : Plan σ Env := do
  let handles ← allocGroup (UInt64.ofNat bindings.length) (bindingNodes env bindings)
  let _ ← once (settle (bindings.mapM (env ++ handles).binding))
  return env ++ handles

/-- What allocates no more than the result of a host function is one action. -/
def eval (host : Host σ) (evaluator : Evaluator) (expr : Expr) (env : Env) : Plan σ Control :=
  match expr.form with
  | .data ordinal name args => do
    let fields ← suspendAll env args
    return .deliver (.fresh (.data ordinal name fields))
  | .apply fn args => do
    unless args.isEmpty do
      let handles ← suspendAll env args
      once (push evaluator (.apply handles))
    return .eval fn env
  | .letrec bindings body => do
    return .eval body (← bindAll env bindings)
  | _ => once (Machine.eval host evaluator expr env)

def update (evaluator : Evaluator) (node : Handle) (whnf : Whnf) : Plan σ Control := do
  let (payload, result) := updatePayload node whnf
  if ← complete node evaluator.actor payload then
    once (record (.updated evaluator.actor node whnf.node))
    return .deliver (.stored result whnf.node)
  else once (throw (.malformed (.notOwner node evaluator.actor)))

def resume (host : Host σ) (evaluator : Evaluator) (frame : Frame) (whnf : Whnf) : Plan σ Control :=
  match frame with
  | .update node => update evaluator node whnf
  | .redirect links => do
    if let some target := whnf.handle? then
      redirectAll links target
    return .deliver whnf
  | _ => once (Machine.resume host evaluator frame whnf)

/-! ### Demanding and waiting -/

/-- Who holds the node, and what that actor waits for. Nobody else enters or withdraws a wait
while an actor looks for a cycle of waits, so the two are read at once. -/
def holder (current : Handle) : MachineM σ (Option (Actor × Option Handle)) := do
  let heap ← getHeap
  match heap.state current with
  | .error fault => throw fault
  | .ok (.inProgress owner) => return some (owner, heap.waits.lookup owner)
  | .ok _ => return none

def leadsBack (actor : Actor) : (hops : Nat) → (current : Handle) → Plan σ Bool
  | 0, _ => return false
  | hops + 1, current => do
    match ← once (holder current) with
    | none => return false
    | some (owner, next?) =>
      if owner = actor then return true
      else match next? with
        | some next => leadsBack actor hops next
        | none => return false

def startWait (evaluator : Evaluator) (links : List Handle) (node : Handle) : Plan σ Control := do
  let entries ← once do return (← getHeap).waits.length
  if ← leadsBack evaluator.actor (entries + 1) node then once (throw (.nonTermination node))
  else
    once (modifyWorld fun world =>
      { world with heap := { world.heap with waits := Heap.insertWait evaluator.actor node world.heap.waits } })
    once (record (.waiting evaluator.actor node))
    return .await links node

inductive Pace where
  | turn (control : Control)
  | walk (links : List Handle) (current : Handle)

def walk (evaluator : Evaluator) (links : List Handle) (current : Handle) : Plan σ Pace := do
  match ← once do settle ((← getHeap).node current) with
  | .indirection target =>
    if current ∈ links then once (throw (.nonTermination current))
    else return .walk (current :: links) target
  | .thunk expr env =>
    match ← once (onHeap (tryClaim current evaluator.actor)) with
    | none => return .turn (← once (enter evaluator links.reverse current expr env))
    | some (.inProgress owner) =>
      if owner = evaluator.actor then once (throw (.nonTermination current))
      else return .turn (← startWait evaluator links.reverse current)
    -- completed or released since it was read
    | some _ => return .walk links current
  | node => do
    redirectAll links.reverse current
    return .turn (.deliver (.stored current node))

def resumeWait (evaluator : Evaluator) (links : List Handle) (node : Handle) : Plan σ Pace := do
  once (checkInterruption evaluator)
  let state ← once do settle ((← getHeap).state node)
  if state.heldByOther evaluator.actor then
    once (modifyWorld (·.pass evaluator.settings.pollInterval.toNat))
    return .turn (.await links node)
  else
    once (modifyWorld fun world => { world with heap := world.heap.endWait evaluator.actor })
    return .walk links.reverse node

/-! ### Steps of an evaluator -/

def pop : MachineM σ (Option Frame) := fun state =>
  match state.stack.pop? with
  | some (frame, stack) => .ok (some frame) { state with stack := stack }
  | none => .ok none state

/-- What becomes of a delivered value: a frame goes on with it, or it is the result. -/
def receive (host : Host σ) (evaluator : Evaluator) (whnf : Whnf) : Option Frame → Plan σ (Pace ⊕ Handle)
  | some frame => do return .inl (.turn (← resume host evaluator frame whnf))
  | none =>
    match whnf.handle? with
    | some handle => return .inr handle
    | none => return .inr (← once (onHeap (Heap.alloc whnf.node)))

def finish (host : Host σ) (evaluator : Evaluator) (whnf : Whnf) : Plan σ (Pace ⊕ Handle) := do
  receive host evaluator whnf (← once pop)

/-- What an evaluator does next, up to a new pace or to the result. -/
def plan (host : Host σ) (evaluator : Evaluator) : Pace → Plan σ (Pace ⊕ Handle)
  | .walk links current => return .inl (← walk evaluator links current)
  | .turn (.await links node) => return .inl (← resumeWait evaluator links node)
  | .turn (.eval expr env) => do
    once do tick evaluator; trace evaluator (.eval expr env)
    return .inl (.turn (← eval host evaluator expr env))
  | .turn (.force handle) => do
    once do tick evaluator; trace evaluator (.force handle)
    return .inl (.walk [] handle)
  | .turn (.deliver whnf) => do
    once do tick evaluator; trace evaluator (.deliver whnf)
    finish host evaluator whnf

/-- Hands the thunks of the frames back, the top one first. A thunk that cannot be released is left. -/
def releaseAll (actor : Actor) : List Frame → (released : Nat) → Plan σ Nat
  | [], released => return released
  | .update node :: frames, released => do
    let done ← once (tryCatch (onHeap (Heap.release node actor)) fun _ => pure false)
    releaseAll actor frames (if done then released + 1 else released)
  | _ :: frames, released => releaseAll actor frames released

/-- An evaluator that was waiting does so no longer; then the frames are dropped. -/
def unwind (evaluator : Evaluator) (fault : Fault) (frames : List Frame) : Plan σ Unit := do
  once (modifyWorld fun world => { world with heap := world.heap.endWait evaluator.actor })
  let released ← releaseAll evaluator.actor frames 0
  once (modify fun state => { state with
    stack := .empty
    world := state.world.record (.aborted evaluator.actor state.steps fault released) })

/-! ### Many evaluators -/

inductive Activity (σ : Type) : Type 1 where
  | reducing (rest : Plan σ (Pace ⊕ Handle))
  | unwinding (fault : Fault) (rest : Plan σ Unit)
  | ended (outcome : Except Fault Handle)

structure Thread (σ : Type) : Type 1 where
  evaluator : Evaluator
  stack : Stack Frame
  steps : Nat
  deadline : Option Nat
  activity : Activity σ

namespace Thread

def state (thread : Thread σ) (world : World σ) : State σ :=
  ⟨thread.stack, thread.steps, thread.deadline, world⟩

def ofState (evaluator : Evaluator) (state : State σ) (activity : Activity σ) : Thread σ :=
  ⟨evaluator, state.stack, state.steps, state.deadline, activity⟩

def act (host : Host σ) (thread : Thread σ) (world : World σ) : Thread σ × World σ :=
  match thread.activity with
  | .reducing (.act action next) =>
    match action (thread.state world) with
    | .ok value after => (.ofState thread.evaluator after (.reducing (next value)), after.world)
    | .error fault after =>
      (.ofState thread.evaluator after (.unwinding fault (unwind thread.evaluator fault after.stack.items)), after.world)
  | .reducing (.ended (.inl pace)) => ({ thread with activity := .reducing (plan host thread.evaluator pace) }, world)
  | .reducing (.ended (.inr handle)) => ({ thread with activity := .ended (.ok handle) }, world)
  | .unwinding fault (.act action next) =>
    match action (thread.state world) with
    | .ok value after => (.ofState thread.evaluator after (.unwinding fault (next value)), after.world)
    | .error _ after => (.ofState thread.evaluator after (.ended (.error fault)), after.world)
  | .unwinding fault (.ended ()) => ({ thread with activity := .ended (.error fault) }, world)
  | .ended _ => (thread, world)

end Thread

/-- A root to be forced, by an evaluator that is yet to be made or is at work. -/
inductive Job (σ : Type) : Type 1 where
  | queued (root : Handle)
  | begun (thread : Thread σ)

/-- The job makes its evaluator, or takes the next action. -/
def Job.step (host : Host σ) (settings : EvalSettings) (world : World σ) : Job σ → Job σ × World σ
  | .queued root =>
    let (evaluator, state) := start world settings none
    let state := begin evaluator state
    (.begun (.ofState evaluator state (.reducing (.ended (.inl (.turn (.force root)))))), state.world)
  | .begun thread =>
    let (thread, world) := thread.act host world
    (.begun thread, world)

structure System (σ : Type) : Type 1 where
  world : World σ
  jobs : List (Job σ)

namespace System

/-- One evaluator for each root, none of them made yet. -/
def launch (roots : List Handle) (world : World σ) : System σ :=
  ⟨world, roots.map .queued⟩

def step (host : Host σ) (settings : EvalSettings) (system : System σ) (place : Nat) : System σ :=
  match system.jobs[place]? with
  | some job =>
    let (job, world) := Job.step host settings system.world job
    ⟨world, system.jobs.set place job⟩
  | none => system

def run (host : Host σ) (settings : EvalSettings) (schedule : List Nat) (system : System σ) : System σ :=
  schedule.foldl (step host settings) system

end System

def Job.outcome? : Job σ → Option (Except Fault Handle)
  | .begun { activity := .ended outcome, .. } => some outcome
  | _ => none

/-- The fault that the job has met, if it has met one. -/
def Job.fault? : Job σ → Option Fault
  | .begun { activity := .unwinding fault _, .. } => some fault
  | .begun { activity := .ended (.error fault), .. } => some fault
  | _ => none

end LazyGraph.Parallel

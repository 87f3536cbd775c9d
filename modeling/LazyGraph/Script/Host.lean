import LazyGraph.Machine.Run
import LazyGraph.Script.Basic

/-! The meaning of scripted host functions.

A function may force a node with an evaluator of its own, whose host functions may do
so again; the host is defined by how deep this can nest. -/

set_option autoImplicit false

namespace LazyGraph.Script

/-- Most transitions of one call. No call of a terminating program comes near. -/
def horizon : Nat := Nat.pow 2 50

/-- Forces a node; a call beyond the horizon counts as out of steps. -/
def force (host : Host Script) (evaluator : Evaluator) (root : Handle) (state : State Script) :
    Except Fault Handle × State Script :=
  match Machine.force host evaluator horizon root state with
  | some outcome => outcome
  | none => (.error (.exhausted (.steps (UInt64.ofNat horizon))), state)

def note (world : World Script) (observation : Observation) : World Script :=
  { world with host := { world.host with observations := world.host.observations.push observation } }

/-- Forces a node from inside a call and returns an indirection to the result. -/
def forceInside (host : Host Script) (root : Handle) (settings : EvalSettings) (cancelAfter : Option UInt64) :
    EStateM Fault (World Script) Node := fun world =>
  let (token, script) := world.host.freshToken
  let world := { world with host := script }
  let world := match cancelAfter with
    | some milliseconds => world.cancelAfter token milliseconds.toNat
    | none => world
  let (evaluator, state) := Machine.start world settings (some token)
  let (result, state) := force host evaluator root state
  let world := note state.world (.forced evaluator.actor state.steps result)
  match result with
  | .ok handle => .ok (.indirection handle) world
  | .error fault => .error fault world

/-- Performs an action on the operands; `nested` is the host of evaluators it starts. -/
def perform (nested : Option (Host Script)) (key : Nat) (action : Action) (operands : List Node) :
    EStateM Fault (World Script) Node := do
  let missing : Fault := .malformed (.reported "no such register")
  match action with
  | .count => return .int (Int64.ofNat (← get).host.calls)
  | .answer node => return node
  | .operand index =>
    match operands[index.toNat]? with
    | some node => return node
    | none => throw (.failed (.raised "no such argument"))
  | .describe =>
    return .text (",".intercalate (operands.map fun node => node.tag.label ++ ":" ++ node.brief))
  | .compare =>
    match operands with
    | left :: right :: _ =>
      match left.value?, right.value? with
      | some left, some right => return .bool (left.same right)
      | none, none => return .bool true
      | _, _ => return .bool false
    | _ => throw (.failed (.raised "no such argument"))
  | .fail fault => throw fault
  | .failFirst times fault node =>
    if times = 0 then return node
    else
      modify fun world => { world with host := { world.host with
        actions := world.host.actions.setIfInBounds key (.failFirst (times - 1) fault node) } }
      throw fault
  | .cancel =>
    modify fun world => world.cancelAfter world.host.token 0
    return .int 0
  | .observe node =>
    match (← get).host.resolve? node with
    | some handle =>
      modify fun world => note world (world.heap.observe handle)
      return .int 0
    | none => throw missing
  | .force node settings cancelAfter =>
    match (← get).host.resolve? node, nested with
    | some handle, some host => forceInside host handle settings cancelAfter
    | none, _ => throw missing
    | _, none => throw (.malformed (.reported "calls nest too deeply"))
  | .sleep milliseconds node =>
    modify fun world => world.pass milliseconds.toNat
    return node

def call (nested : Option (Host Script)) (fn : HostFn) (operands : List Node) :
    EStateM Fault (World Script) Node := do
  modify fun world => { world with host := { world.host with calls := world.host.calls + 1 } }
  match (← get).host.actions[fn.key]? with
  | some action => perform nested fn.key action operands
  | none => throw (.malformed (.reported "no such host function"))

/-- The scripted host whose functions may force nodes inside each other `depth` deep. -/
def host : (depth : Nat) → Host Script
  | 0 => ⟨call none⟩
  | depth + 1 => ⟨call (some (host depth))⟩

end LazyGraph.Script

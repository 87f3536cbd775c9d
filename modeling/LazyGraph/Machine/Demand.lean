import LazyGraph.Machine.State

/-! Bringing a node to weak head normal form.

Indirections are followed, and once the end of the chain is known every link is
pointed straight at it. A thunk is claimed before its frames are pushed. A thunk that
this actor holds already depends on itself; one that another actor holds is waited
for. -/

set_option autoImplicit false

namespace LazyGraph.Machine

variable {σ : Type}

def redirectAll (links : List Handle) (target : Handle) : MachineM σ Unit :=
  links.forM fun link => do
    let _ ← onHeap (Heap.redirect link target)

def enter (evaluator : Evaluator) (links : List Handle) (handle : Handle) (expr : Expr) (env : Env) :
    MachineM σ Control := do
  unless links.isEmpty do
    push evaluator (.redirect links)
  push evaluator (.update handle)
  return .eval expr env

def startWait (evaluator : Evaluator) (links : List Handle) (node : Handle) : MachineM σ Control := do
  onHeap (Heap.beginWait evaluator.actor node)
  record (.waiting evaluator.actor node)
  return .await links node

/-- Goes on from `start` after the indirections `passed`. -/
def demandFrom (evaluator : Evaluator) (passed : List Handle) (start : Handle) : MachineM σ Control := do
  let chain := (← getHeap).followOn passed start
  match chain.landing with
  | .broken fault => throw fault
  | .loop handle => throw (.nonTermination handle)
  | .at handle slot =>
    match slot.node with
    | .thunk expr env =>
      if ← onHeap (Heap.claim handle evaluator.actor) then
        enter evaluator chain.links handle expr env
      else match slot.state with
        | .inProgress owner =>
          if owner = evaluator.actor then throw (.nonTermination handle)
          else startWait evaluator chain.links handle
        | _ => return .await chain.links handle
    | node => do
      redirectAll chain.links handle
      return .deliver (.stored handle node)

def demand (evaluator : Evaluator) (handle : Handle) : MachineM σ Control :=
  demandFrom evaluator [] handle

/-- Looks again at a node waited for: while another actor holds it, time passes until
the next look. -/
def resumeWait (evaluator : Evaluator) (links : List Handle) (node : Handle) : MachineM σ Control := do
  checkInterruption evaluator
  let state ← settle ((← getHeap).state node)
  if state.heldByOther evaluator.actor then
    modifyWorld (·.pass evaluator.settings.pollInterval.toNat)
    return .await links node
  else
    modifyWorld fun world => { world with heap := world.heap.endWait evaluator.actor }
    demandFrom evaluator links node

end LazyGraph.Machine

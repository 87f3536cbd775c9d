import LazyGraph.Machine.Demand
import LazyGraph.Machine.Reduce

/-! Handing a result to the frame that waits for it. -/

set_option autoImplicit false

namespace LazyGraph.Machine

variable {σ : Type}

/-- Applies a function value to suspended arguments. Too few make a partial
application, enough run the body, and a surplus is applied to what the body returns. -/
def apply (evaluator : Evaluator) (callee : Node) (args : List Handle) : MachineM σ Control :=
  match callee with
  | .function code bound => do
    let remaining := code.remaining bound
    if args.length < remaining then deliver (.function code (bound ++ args))
    else
      let surplus := args.drop remaining
      unless surplus.isEmpty do
        push evaluator (.apply surplus)
      return .eval code.body (bound ++ args.take remaining)
  | node => throw (.typeMismatch "apply" "FUNCTION" node.tag)

def scrutineeFields : Node → List Handle
  | .data _ _ fields => fields
  | _ => []

/-- Picks the first alternative with the scrutinee's ordinal. Without alternatives the
default needs no ordinal. -/
def select (alternatives : List (Alternative Expr)) (otherwise : Option Expr) (env : Env)
    (scrutinee : Node) : Except Fault Control :=
  match alternatives, otherwise with
  | [], some body => .ok (.eval body env)
  | _, _ => do
    let ordinal ← scrutinee.ordinal
    match alternatives.find? (·.ordinal == ordinal), otherwise with
    | some alternative, _ =>
      let fields := scrutineeFields scrutinee
      if alternative.binds.toNat = fields.length then .ok (.eval alternative.body (env ++ fields))
      else .error (.malformed (.fieldCount alternative.ordinal alternative.binds fields.length))
    | none, some body => .ok (.eval body env)
    | none, none => .error (.noAlternative ordinal)

/-- What is written into a thunk, and where its value then lives. Scalars and new nodes
go into the thunk's own slot; a node that lives elsewhere is shared. -/
def updatePayload (node : Handle) (whnf : Whnf) : Node × Handle :=
  match whnf.handle? with
  | some existing =>
    if existing ≠ node ∧ whnf.node.tag.isScalar = false then (.indirection existing, existing)
    else (whnf.node, node)
  | none => (whnf.node, node)

def update (evaluator : Evaluator) (node : Handle) (whnf : Whnf) : MachineM σ Control := do
  let (payload, result) := updatePayload node whnf
  if ← onHeap (Heap.complete node evaluator.actor payload) then
    record (.updated evaluator.actor node whnf.node)
    return .deliver (.stored result whnf.node)
  else throw (.malformed (.notOwner node evaluator.actor))

def resume (host : Host σ) (evaluator : Evaluator) (frame : Frame) (whnf : Whnf) : MachineM σ Control :=
  match frame with
  | .update node => update evaluator node whnf
  | .redirect links => do
    if let some target := whnf.handle? then
      redirectAll links target
    return .deliver whnf
  | .apply args => apply evaluator whnf.node args
  | .call callee operands =>
    nextOperand host evaluator callee { operands with done := operands.done ++ [whnf.node] }
  | .choose alternatives otherwise env =>
    settle (select alternatives otherwise env whnf.node)
  | .seq next env => return .eval next env

end LazyGraph.Machine

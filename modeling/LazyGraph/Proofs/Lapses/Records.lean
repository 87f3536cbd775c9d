import LazyGraph.Proofs.Parallel.Plans

/-! An evaluator with every branch that it has.

The frames of the machine leave no room for some mistakes: a frame that selects holds
alternatives, and a frame that calls holds a callee. Here the stack holds records as an
evaluator writes them down: a record of a case holds a whole expression, and any record can be
asked for its next operand. Where something does not fit there is a branch for it, and taking
the branch is a lapse. -/

set_option autoImplicit false

namespace LazyGraph

inductive Lapse where
  | notOwner
  | noCase
  | noOperands
  | noCall
  | operandCount
  -- A chain is to be collapsed to a result that has no slot.
  | nowhere
  -- The last result has no slot.
  | homeless
  deriving DecidableEq, Repr

inductive Record where
  | update (node : Handle)
  | redirect (links : List Handle)
  | apply (args : List Handle)
  | primitive (op : Primitive) (operands : Operands)
  | host (fn : HostFn) (operands : Operands)
  | choose (case : Expr) (env : Env)
  | seq (next : Expr) (env : Env)

namespace Record

def operands? : Record → Option Operands
  | .primitive _ operands | .host _ operands => some operands
  | _ => none

def withOperands (operands : Operands) : Record → Record
  | .primitive op _ => .primitive op operands
  | .host fn _ => .host fn operands
  | record => record

def frame? : Record → Option Frame
  | .update node => some (.update node)
  | .redirect links => some (.redirect links)
  | .apply args => some (.apply args)
  | .primitive op operands => some (.call (.primitive op) operands)
  | .host fn operands => some (.call (.host fn) operands)
  | .choose case env =>
    match case.form with
    | .choose _ alternatives otherwise => some (.choose alternatives otherwise env)
    | _ => none
  | .seq next env => some (.seq next env)

theorem of_update {record : Record} {node : Handle} (framed : record.frame? = some (.update node)) :
    record = .update node := by
  cases record with
  | choose case env =>
    simp only [frame?] at framed
    split at framed <;> cases framed
  | _ => cases framed <;> rfl

end Record

namespace Lapses

open Machine Parallel

variable {σ α β : Type}

/-! ### Desks -/

/-- An evaluator's records, the top one first, with the rest of its state. -/
structure Desk (σ : Type) where
  records : List Record
  steps : Nat
  deadline : Option Nat
  world : World σ

namespace Desk

/-- The state of the machine with the frames for the records. -/
def state (desk : Desk σ) : State σ where
  stack := ⟨desk.records.filterMap Record.frame?, _, rfl⟩
  steps := desk.steps
  deadline := desk.deadline
  world := desk.world

/-- The records are those of the desk, and all else is as in the state. -/
def refresh (desk : Desk σ) (state : State σ) : Desk σ :=
  { desk with steps := state.steps, deadline := state.deadline, world := state.world }

end Desk

abbrev DeskM (σ : Type) := EStateM Fault (Desk σ)

def beside (action : MachineM σ α) : DeskM σ α := fun desk =>
  match action desk.state with
  | .ok value state => .ok value (desk.refresh state)
  | .error fault state => .error fault (desk.refresh state)

namespace Desk

def push (evaluator : Evaluator) (record : Record) : DeskM σ Unit := fun desk =>
  if evaluator.settings.maxWorkStack.toNat ≤ desk.records.length then
    .error (.exhausted (.workStack evaluator.settings.maxWorkStack)) desk
  else .ok () { desk with records := record :: desk.records }

def pop : DeskM σ (Option Record) := fun desk =>
  match desk.records with
  | record :: records => .ok (some record) { desk with records := records }
  | [] => .ok none desk

end Desk

/-! ### Scripts -/

/-- A computation cut into actions, between which others may act. What a host function does to
the heap is done by others, so that it is only asked for its answer. -/
inductive Script (σ α : Type) : Type 1 where
  | ended (value : α)
  | act {β : Type} (action : DeskM σ β) (next : β → Script σ α)
  | ask (fn : HostFn) (operands : List Node) (next : Node → Script σ α)
  | lapse (branch : Lapse)

namespace Script

def bind : Script σ α → (α → Script σ β) → Script σ β
  | .ended value, later => later value
  | .act action next, later => .act action fun result => (next result).bind later
  | .ask fn operands next, later => .ask fn operands fun node => (next node).bind later
  | .lapse branch, _ => .lapse branch

instance : Monad (Script σ) where
  pure := .ended
  bind := bind

def once (action : MachineM σ α) : Script σ α :=
  .act (beside action) .ended

def ofPlan : Plan σ α → Script σ α
  | .ended value => .ended value
  | .act action next => .act (beside action) fun result => ofPlan (next result)

def push (evaluator : Evaluator) (record : Record) : Script σ Unit :=
  .act (Desk.push evaluator record) .ended

end Script

open Script

variable (evaluator : Evaluator)

/-! ### Calls -/

/-- The answer of a strict call whose operands are evaluated. -/
def call (record : Record) : Script σ Node :=
  match record with
  | .primitive op operands =>
    match op.execute operands.done with
    | .error (.malformed (.operandCount ..)) => .lapse .operandCount
    | outcome => once (settle outcome)
  | .host fn operands => .ask fn operands.done .ended
  | _ => .lapse .noCall

def callStrict (record : Record) : Script σ Control := do
  let result ← call record
  if result.tag.isWhnf then return .deliver (.fresh result)
  else return .force (← once (onHeap (Heap.alloc result)))

def nextOperand (record : Record) : Script σ Control :=
  match record.operands? with
  | none => .lapse .noOperands
  | some operands =>
    match operands.pending with
    | expr :: pending => do
      push evaluator (record.withOperands { operands with pending := pending })
      return .eval expr operands.env
    | [] => callStrict record

def apply (callee : Node) (args : List Handle) : Script σ Control :=
  match callee with
  | .function code bound => do
    let remaining := code.remaining bound
    if args.length < remaining then return .deliver (.fresh (.function code (bound ++ args)))
    else
      let surplus := args.drop remaining
      unless surplus.isEmpty do
        push evaluator (.apply surplus)
      return .eval code.body (bound ++ args.take remaining)
  | node => once (throw (.typeMismatch "apply" "FUNCTION" node.tag))

/-! ### Evaluating -/

def eval (expr : Expr) (env : Env) : Script σ Control :=
  match expr.form with
  | .var slot => return .force (← once (settle (env.lookup slot)))
  | .global node => return .force node
  | .char value => return .deliver (.fresh (.char value))
  | .int value => return .deliver (.fresh (.int value))
  | .double value => return .deliver (.fresh (.double value))
  | .text value => return .deliver (.fresh (.text value))
  | .data ordinal name args => do
    let fields ← ofPlan (suspendAll env args)
    return .deliver (.fresh (.data ordinal name fields))
  | .lambda code captures => return .deliver (.fresh (← once (settle (env.close code captures))))
  | .apply fn args => do
    unless args.isEmpty do
      let handles ← ofPlan (suspendAll env args)
      push evaluator (.apply handles)
    return .eval fn env
  | .primitive op args =>
    if args.length = op.arity then nextOperand evaluator (.primitive op ⟨[], args, env⟩)
    else once (throw (.malformed (.argumentCount op args.length)))
  | .host fn args =>
    if args.length = fn.arity.toNat then nextOperand evaluator (.host fn ⟨[], args, env⟩)
    else once (throw (.malformed (.hostArgumentCount fn.name fn.arity args.length)))
  | .choose scrutinee _ _ => do
    push evaluator (.choose expr env)
    return .eval scrutinee env
  | .letrec bindings body => return .eval body (← ofPlan (bindAll env bindings))
  | .seq first second => do
    push evaluator (.seq second env)
    return .eval first env
  | .raise message => once (throw (.failed (.raised message)))

/-! ### Resuming -/

def select (case : Expr) (env : Env) (scrutinee : Node) : Script σ Control :=
  match case.form with
  | .choose _ alternatives otherwise => once (settle (Machine.select alternatives otherwise env scrutinee))
  | _ => .lapse .noCase

def update (node : Handle) (whnf : Whnf) : Script σ Control := do
  let (payload, result) := updatePayload node whnf
  if ← ofPlan (complete node evaluator.actor payload) then
    once (record (.updated evaluator.actor node whnf.node))
    return .deliver (.stored result whnf.node)
  else .lapse .notOwner

def resume (record : Record) (whnf : Whnf) : Script σ Control :=
  match record with
  | .update node => update evaluator node whnf
  | .redirect links =>
    match whnf.handle? with
    | some target => do
      ofPlan (Parallel.redirectAll links target)
      return .deliver whnf
    | none => .lapse .nowhere
  | .apply args => apply evaluator whnf.node args
  | .primitive op operands => nextOperand evaluator (.primitive op { operands with done := operands.done ++ [whnf.node] })
  | .host fn operands => nextOperand evaluator (.host fn { operands with done := operands.done ++ [whnf.node] })
  | .choose case env => select case env whnf.node
  | .seq next env => return .eval next env

/-! ### Demanding -/

def enter (links : List Handle) (handle : Handle) (expr : Expr) (env : Env) : Script σ Control := do
  unless links.isEmpty do
    push evaluator (.redirect links)
  push evaluator (.update handle)
  return .eval expr env

def walk (links : List Handle) (current : Handle) : Script σ Pace := do
  match ← once do settle ((← getHeap).node current) with
  | .indirection target =>
    if current ∈ links then once (throw (.nonTermination current))
    else return .walk (current :: links) target
  | .thunk expr env =>
    match ← once (onHeap (tryClaim current evaluator.actor)) with
    | none => return .turn (← enter evaluator links.reverse current expr env)
    | some (.inProgress owner) =>
      if owner = evaluator.actor then once (throw (.nonTermination current))
      else return .turn (← ofPlan (Parallel.startWait evaluator links.reverse current))
    | some _ => return .walk links current
  | node => do
    ofPlan (Parallel.redirectAll links.reverse current)
    return .turn (.deliver (.stored current node))

/-! ### Turns -/

def finish (whnf : Whnf) : Script σ (Pace ⊕ Handle) := do
  match ← .act Desk.pop .ended with
  | some record => return .inl (.turn (← resume evaluator record whnf))
  | none =>
    match whnf.handle? with
    | some handle => return .inr handle
    | none => .lapse .homeless

/-- What the evaluator does next, up to a new pace or to the result. -/
def script : Pace → Script σ (Pace ⊕ Handle)
  | .walk links current => return .inl (← walk evaluator links current)
  | .turn (.await links node) => return .inl (← ofPlan (Parallel.resumeWait evaluator links node))
  | .turn (.eval expr env) => do
    once do tick evaluator; trace evaluator (.eval expr env)
    return .inl (.turn (← eval evaluator expr env))
  | .turn (.force handle) => do
    once do tick evaluator; trace evaluator (.force handle)
    return .inl (.walk [] handle)
  | .turn (.deliver whnf) => do
    once do tick evaluator; trace evaluator (.deliver whnf)
    finish evaluator whnf

end Lapses

end LazyGraph

import LazyGraph.Machine.State
import LazyGraph.Primitive.Execute

/-! Evaluating expressions and suspending them.

An expression in a strict position is evaluated; one in a lazy position becomes a
node: an existing one for a variable or a global, a value for a literal or a lambda, a
thunk for all else. -/

set_option autoImplicit false

namespace LazyGraph

inductive Suspension where
  | existing (handle : Handle)
  | new (node : Node)

namespace Env

def lookup (env : Env) (slot : UInt64) : Except Fault Handle :=
  match env[slot.toNat]? with
  | some handle => .ok handle
  | none => .error (.malformed (.unboundSlot slot env.length))

def close (env : Env) (code : Lambda Expr) (captures : List UInt64) : Except Fault Node :=
  if captures.length = code.captures.toNat then do
    return .function code (← captures.mapM env.lookup)
  else .error (.malformed (.captureCount code.name captures.length code.captures))

def suspend (env : Env) (expr : Expr) : Except Fault Suspension :=
  match expr.form with
  | .var slot => (env.lookup slot).map .existing
  | .global node => .ok (.existing node)
  | .char value => .ok (.new (.char value))
  | .int value => .ok (.new (.int value))
  | .double value => .ok (.new (.double value))
  | .text value => .ok (.new (.text value))
  | .lambda code captures => (env.close code captures).map .new
  | _ => .ok (.new (.thunk expr env))

/-- The node of a recursive binding. One that names an existing node is an indirection
to it, so bindings that only rename each other form a loop of indirections. -/
def binding (env : Env) (expr : Expr) : Except Fault Node :=
  (env.suspend expr).map fun
    | .existing handle => .indirection handle
    | .new node => node

end Env

def Node.invalid : Node := .data 0 "<invalid>" []

namespace Machine

variable {σ : Type}

def suspend (env : Env) (expr : Expr) : MachineM σ Handle := do
  match ← settle (env.suspend expr) with
  | .existing handle => return handle
  | .new node => onHeap (Heap.alloc node)

def suspendAll (env : Env) (exprs : List Expr) : MachineM σ (List Handle) :=
  exprs.mapM (suspend env)

/-- Allocates recursive bindings and returns the environment with them. Each binding
sees them all. If some cannot be built, the first of them decides the fault. -/
def bindAll (env : Env) (bindings : List Expr) : MachineM σ Env := do
  let handles ← onHeap (Heap.allocGroup (UInt64.ofNat bindings.length) fun handles heap =>
    let build binding := ((env ++ handles).binding binding).toOption.getD .invalid
    (bindings.map build, heap))
  let _ ← settle (bindings.mapM (env ++ handles).binding)
  return env ++ handles

def deliver (node : Node) : MachineM σ Control :=
  pure (.deliver (.fresh node))

/-- Makes a strict call whose operands are evaluated. A host function may hand back a
suspended computation, which is then forced. -/
def callStrict (host : Host σ) (callee : Callee) (operands : List Node) : MachineM σ Control := do
  let result ← match callee with
    | .primitive op => settle (op.execute operands)
    | .host fn => onWorld (host.call fn operands)
  if result.tag.isWhnf then deliver result
  else return .force (← onHeap (Heap.alloc result))

/-- Evaluates the next operand, or makes the call when none is left. -/
def nextOperand (host : Host σ) (evaluator : Evaluator) (callee : Callee) (operands : Operands) :
    MachineM σ Control :=
  match operands.pending with
  | expr :: pending => do
    push evaluator (.call callee { operands with pending := pending })
    return .eval expr operands.env
  | [] => callStrict host callee operands.done

def eval (host : Host σ) (evaluator : Evaluator) (expr : Expr) (env : Env) : MachineM σ Control :=
  match expr.form with
  | .var slot => return .force (← settle (env.lookup slot))
  | .global node => return .force node
  | .char value => deliver (.char value)
  | .int value => deliver (.int value)
  | .double value => deliver (.double value)
  | .text value => deliver (.text value)
  | .data ordinal name args => do
    deliver (.data ordinal name (← suspendAll env args))
  | .lambda code captures => do
    deliver (← settle (env.close code captures))
  | .apply fn args => do
    unless args.isEmpty do
      push evaluator (.apply (← suspendAll env args))
    return .eval fn env
  | .primitive op args =>
    if args.length = op.arity then nextOperand host evaluator (.primitive op) ⟨[], args, env⟩
    else throw (.malformed (.argumentCount op args.length))
  | .host fn args =>
    if args.length = fn.arity.toNat then nextOperand host evaluator (.host fn) ⟨[], args, env⟩
    else throw (.malformed (.hostArgumentCount fn.name fn.arity args.length))
  | .choose scrutinee alternatives otherwise => do
    push evaluator (.choose alternatives otherwise env)
    return .eval scrutinee env
  | .letrec bindings body => do
    return .eval body (← bindAll env bindings)
  | .seq first second => do
    push evaluator (.seq second env)
    return .eval first env
  | .raise message => throw (.failed (.raised message))

end Machine

end LazyGraph

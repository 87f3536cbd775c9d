import LazyGraph.Node

/-! What an evaluator does next, and what it does with the result. -/

set_option autoImplicit false

namespace LazyGraph

/-- A function that is strict in all its operands. -/
inductive Callee where
  | primitive (op : Primitive)
  | host (fn : HostFn)
  deriving DecidableEq, Repr

/-- Operands of a strict call, evaluated from left to right. -/
structure Operands where
  done : List Node
  pending : List Expr
  env : Env

inductive Frame where
  | update (node : Handle)
  | redirect (links : List Handle)
  | apply (args : List Handle)
  | call (callee : Callee) (operands : Operands)
  | choose (alternatives : List (Alternative Expr)) (otherwise : Option Expr) (env : Env)
  | seq (next : Expr) (env : Env)

def Frame.name : Frame → String
  | .update _ => "update"
  | .redirect _ => "redirect"
  | .apply _ => "apply"
  | .call (.primitive _) _ => "prim"
  | .call (.host _) _ => "native"
  | .choose .. => "case"
  | .seq .. => "seq"

/-- A node in weak head normal form, and where it lives if it has a slot already. -/
structure Whnf where
  handle? : Option Handle
  node : Node

def Whnf.fresh (node : Node) : Whnf := ⟨none, node⟩

def Whnf.stored (handle : Handle) (node : Node) : Whnf := ⟨some handle, node⟩

inductive Control where
  | eval (expr : Expr) (env : Env)
  | force (handle : Handle)
  | deliver (whnf : Whnf)
  | await (links : List Handle) (node : Handle)

def Control.text : Control → String
  | .eval expr env => s!"eval {expr.form.kind} env={env.length}"
  | .force handle => "force " ++ handle.text
  | .deliver whnf =>
    let place := match whnf.handle? with
      | some handle => handle.text
      | none => "fresh"
    s!"return {whnf.node.tag.label} {whnf.node.brief} ({place})"
  | .await _ node => "await " ++ node.text

end LazyGraph

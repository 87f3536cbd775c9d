import LazyGraph.Machine.Return

/-! Lazy evaluation by plain recursion.

The evaluator here has no frames: an expression is evaluated by evaluating its parts,
and a node is forced by evaluating its thunk. Evaluation need not end, so each function
takes a bound on how deep it may recurse and gives no answer when that is too little.
More depth never changes an answer. -/

set_option autoImplicit false

namespace LazyGraph

-- None when the depth is used up; a fault leaves the heap reached so far.
def Reduction (α : Type) : Type :=
  Heap → Option (EStateM.Result Fault Heap α)

namespace Reduction

variable {α β : Type}

instance : Monad Reduction where
  pure value heap := some (.ok value heap)
  bind first next heap :=
    match first heap with
    | some (.ok value heap) => next value heap
    | some (.error fault heap) => some (.error fault heap)
    | none => none

def diverge : Reduction α := fun _ => none

def fail (fault : Fault) : Reduction α := fun heap => some (.error fault heap)

def settle : Except Fault α → Reduction α
  | .ok value => pure value
  | .error fault => fail fault

def onHeap (operation : HeapM α) : Reduction α := fun heap => some (operation heap)

def current : Reduction Heap := fun heap => some (.ok heap heap)

/-! A sequence goes on from the first part's answer, if there is one. -/

theorem bind_some_ok {first : Reduction α} {next : α → Reduction β} {heap heap' : Heap} {value : α}
    (ended : first heap = some (.ok value heap')) : (first >>= next) heap = next value heap' := by
  simp only [bind, ended]

theorem bind_some_error {first : Reduction α} {next : α → Reduction β} {heap heap' : Heap} {fault : Fault}
    (ended : first heap = some (.error fault heap')) : (first >>= next) heap = some (.error fault heap') := by
  simp only [bind, ended]

theorem bind_none {first : Reduction α} {next : α → Reduction β} {heap : Heap} (ended : first heap = none) :
    (first >>= next) heap = none := by
  simp only [bind, ended]

theorem bind_congr {left right : Reduction α} {heap heap' : Heap} (same : left heap = right heap')
    (next : α → Reduction β) : (left >>= next) heap = (right >>= next) heap' := by
  simp only [bind, same]

theorem bind_pure_self (computation : Reduction α) : computation >>= pure = computation := by
  funext heap
  rcases ended : computation heap with _ | (⟨value, after⟩ | ⟨fault, after⟩)
  · exact bind_none ended
  · exact bind_some_ok ended
  · exact bind_some_error ended

theorem bind_bind {γ : Type} (computation : Reduction α) (next : α → Reduction β) (last : β → Reduction γ) :
    computation >>= next >>= last = computation >>= fun value => next value >>= last := by
  funext heap
  rcases ended : computation heap with _ | (_ | _) <;> simp only [bind, ended]

instance : LawfulMonad Reduction :=
  .mk' Reduction bind_pure_self (fun _ _ => rfl) bind_bind

/-- Every answer on the left is the answer on the right. -/
def Below (left right : Reduction α) : Prop :=
  ∀ heap outcome, left heap = some outcome → right heap = some outcome

theorem Below.refl (computation : Reduction α) : Below computation computation :=
  fun _ _ ended => ended

theorem Below.diverge (computation : Reduction α) : Below diverge computation :=
  fun _ _ ended => nomatch ended

theorem Below.bind {left right : Reduction α} {next next' : α → Reduction β} (first : Below left right)
    (rest : ∀ value, Below (next value) (next' value)) : Below (left >>= next) (right >>= next') := by
  intro heap outcome ended
  cases reached : left heap with
  | none =>
    rw [bind_none reached] at ended
    cases ended
  | some answer =>
    cases answer with
    | ok value heap' =>
      rw [bind_some_ok reached] at ended
      rw [bind_some_ok (first _ _ reached)]
      exact rest value _ _ ended
    | error fault heap' =>
      rw [bind_some_error reached] at ended
      rw [bind_some_error (first _ _ reached)]
      exact ended

theorem Below.next (first : Reduction α) {next next' : α → Reduction β}
    (rest : ∀ value, Below (next value) (next' value)) : Below (first >>= next) (first >>= next') :=
  (Below.refl first).bind rest

end Reduction

def Whnf.located (place : Handle × Node) : Whnf :=
  .stored place.1 place.2

namespace Recursion

open Reduction

/-! ### Building the graph -/

def suspend (env : Env) (expr : Expr) : HeapM Handle :=
  match env.suspend expr with
  | .ok (.existing handle) => pure handle
  | .ok (.new node) => Heap.alloc node
  | .error fault => throw fault

-- From left to right.
def suspendAll (env : Env) (exprs : List Expr) : HeapM (List Handle) :=
  exprs.mapM (suspend env)

def bindAll (env : Env) (bindings : List Expr) : HeapM Env := do
  let handles ← Heap.allocGroup (UInt64.ofNat bindings.length) fun handles heap =>
    (bindings.map fun binding => ((env ++ handles).binding binding).toOption.getD .invalid, heap)
  match bindings.mapM (env ++ handles).binding with
  | .ok _ => return env ++ handles
  | .error fault => throw fault

def collapse (links : List Handle) (target : Handle) : HeapM Unit :=
  links.forM fun link => do
    let _ ← Heap.redirect link target

-- Overwrites a claimed thunk and tells where its value lives now.
def update (actor : Actor) (node : Handle) (whnf : Whnf) : HeapM Handle := do
  let (payload, result) := Machine.updatePayload node whnf
  if ← Heap.complete node actor payload then return result
  else throw (.malformed (.notOwner node actor))

/-! ### Evaluating -/

-- The first alternative of the scrutinee's ordinal, with its fields in scope.
def branch (alternatives : List (Alternative Expr)) (otherwise : Option Expr) (env : Env)
    (scrutinee : Node) : Except Fault (Expr × Env) :=
  match alternatives, otherwise with
  | [], some body => .ok (body, env)
  | _, _ => do
    let ordinal ← scrutinee.ordinal
    match alternatives.find? (·.ordinal == ordinal), otherwise with
    | some alternative, _ =>
      let fields := Machine.scrutineeFields scrutinee
      if alternative.binds.toNat = fields.length then .ok (alternative.body, env ++ fields)
      else .error (.malformed (.fieldCount alternative.ordinal alternative.binds fields.length))
    | none, some body => .ok (body, env)
    | none, none => .error (.noAlternative ordinal)

section

variable (actor : Actor) (meaning : HostFn → List Node → Except Fault Node)

def call : Callee → List Node → Except Fault Node
  | .primitive op, operands => op.execute operands
  | .host fn, operands => meaning fn operands

/-! The parts of the recursion that many forms share take the recursive calls as
arguments. -/

def strict (evaluate : Expr → Reduction Whnf) (exprs : List Expr) : Reduction (List Node) :=
  exprs.mapM fun expr => do return (← evaluate expr).node

theorem strict_cons (evaluate : Expr → Reduction Whnf) (expr : Expr) (exprs : List Expr) :
    strict evaluate (expr :: exprs) = do
      let whnf ← evaluate expr
      let rest ← strict evaluate exprs
      return whnf.node :: rest := by
  simp only [strict, List.mapM_cons, bind_assoc, pure_bind]

-- Host code may hand back a suspended computation.
def invoke (enforce : Handle → Reduction (Handle × Node)) (callee : Callee) (operands : List Node) :
    Reduction Whnf := do
  let result ← settle (call meaning callee operands)
  if result.tag.isWhnf then return .fresh result
  else return .located (← enforce (← onHeap (Heap.alloc result)))

mutual

def force : (depth : Nat) → (root : Handle) → Reduction (Handle × Node)
  | 0, _ => diverge
  | depth + 1, root => do
    match (← current).follow root with
    | ⟨_, .broken fault⟩ => fail fault
    | ⟨_, .loop handle⟩ => fail (.nonTermination handle)
    | ⟨links, .at handle slot⟩ =>
      match slot.node, slot.state with
      | .thunk expr env, .unevaluated =>
        let _ ← onHeap (Heap.claim handle actor)
        let whnf ← eval depth expr env
        let result ← onHeap (update actor handle whnf)
        onHeap (collapse links result)
        return (result, whnf.node)
      -- The thunk depends on itself.
      | .thunk .., .inProgress _ => fail (.nonTermination handle)
      -- No operation makes such a slot, and none changes it.
      | .thunk .., .evaluated => diverge
      | node, _ =>
        onHeap (collapse links handle)
        return (handle, node)

def eval : (depth : Nat) → Expr → Env → Reduction Whnf
  | 0, _, _ => diverge
  | depth + 1, expr, env =>
    match expr.form with
    | .var slot => do return .located (← force depth (← settle (env.lookup slot)))
    | .global node => do return .located (← force depth node)
    | .char value => return .fresh (.char value)
    | .int value => return .fresh (.int value)
    | .double value => return .fresh (.double value)
    | .text value => return .fresh (.text value)
    | .data ordinal name args => do return .fresh (.data ordinal name (← onHeap (suspendAll env args)))
    | .lambda code captures => do return .fresh (← settle (env.close code captures))
    | .apply fn args =>
      if args.isEmpty then eval depth fn env
      else do
        let suspended ← onHeap (suspendAll env args)
        let callee ← eval depth fn env
        apply depth callee.node suspended
    | .primitive op args =>
      if args.length = op.arity then do
        invoke meaning (force depth) (.primitive op) (← strict (eval depth · env) args)
      else fail (.malformed (.argumentCount op args.length))
    | .host fn args =>
      if args.length = fn.arity.toNat then do
        invoke meaning (force depth) (.host fn) (← strict (eval depth · env) args)
      else fail (.malformed (.hostArgumentCount fn.name fn.arity args.length))
    | .choose scrutinee alternatives otherwise => do
      let whnf ← eval depth scrutinee env
      let (body, scope) ← settle (branch alternatives otherwise env whnf.node)
      eval depth body scope
    | .letrec bindings body => do eval depth body (← onHeap (bindAll env bindings))
    | .seq first second => do
      let _ ← eval depth first env
      eval depth second env
    | .raise message => fail (.failed (.raised message))

-- What is left over of the arguments is applied to what the body returns.
def apply : (depth : Nat) → (callee : Node) → (args : List Handle) → Reduction Whnf
  | 0, _, _ => diverge
  | depth + 1, .function code bound, args =>
    let remaining := code.remaining bound
    if args.length < remaining then return .fresh (.function code (bound ++ args))
    else do
      let whnf ← eval depth code.body (bound ++ args.take remaining)
      if (args.drop remaining).isEmpty then return whnf
      else apply depth whnf.node (args.drop remaining)
  | _ + 1, node, _ => fail (.typeMismatch "apply" "FUNCTION" node.tag)

end

/-! ### More depth -/

-- One more level of recursion keeps every answer.
structure Deepens (depth : Nat) : Prop where
  force : ∀ root, Below (force actor meaning depth root) (force actor meaning (depth + 1) root)
  eval : ∀ expr env, Below (eval actor meaning depth expr env) (eval actor meaning (depth + 1) expr env)
  apply : ∀ callee args, Below (apply actor meaning depth callee args)
    (apply actor meaning (depth + 1) callee args)

variable {actor meaning}

theorem Deepens.located {depth : Nat} (deepens : Deepens actor meaning depth) (root : Handle) :
    Below (do return Whnf.located (← Recursion.force actor meaning depth root))
      (do return Whnf.located (← Recursion.force actor meaning (depth + 1) root)) :=
  (deepens.force root).bind fun _ => .refl _

theorem Deepens.strict {depth : Nat} (deepens : Deepens actor meaning depth) (exprs : List Expr) (env : Env) :
    Below (Recursion.strict (Recursion.eval actor meaning depth · env) exprs)
      (Recursion.strict (Recursion.eval actor meaning (depth + 1) · env) exprs) := by
  induction exprs with
  | nil => exact .refl _
  | cons expr exprs ih =>
    rw [strict_cons, strict_cons]
    exact (deepens.eval expr env).bind fun _ => Below.bind ih fun _ => .refl _

theorem Deepens.invoke {depth : Nat} (deepens : Deepens actor meaning depth) (callee : Callee)
    (operands : List Node) :
    Below (Recursion.invoke meaning (Recursion.force actor meaning depth) callee operands)
      (Recursion.invoke meaning (Recursion.force actor meaning (depth + 1)) callee operands) := by
  refine .next _ fun result => ?_
  split
  · exact .refl _
  · exact .next _ fun handle => deepens.located handle

theorem Deepens.force_succ {depth : Nat} (deepens : Deepens actor meaning depth) (root : Handle) :
    Below (Recursion.force actor meaning (depth + 1) root) (Recursion.force actor meaning (depth + 2) root) := by
  rw [Recursion.force, Recursion.force]
  refine .next _ fun heap => ?_
  split
  · exact .refl _
  · exact .refl _
  · split
    · exact .next _ fun _ => (deepens.eval _ _).bind fun _ => .refl _
    · exact .refl _
    · exact .refl _
    · exact .refl _

theorem Deepens.eval_succ {depth : Nat} (deepens : Deepens actor meaning depth) (expr : Expr) (env : Env) :
    Below (Recursion.eval actor meaning (depth + 1) expr env)
      (Recursion.eval actor meaning (depth + 2) expr env) := by
  rw [Recursion.eval, Recursion.eval]
  cases expr.form with
  | var slot => exact .next _ fun handle => deepens.located handle
  | global node => exact deepens.located node
  | char value | int value | double value | text value => exact .refl _
  | data ordinal name args => exact .refl _
  | lambda code captures => exact .refl _
  | apply fn args =>
    simp only
    split
    · exact deepens.eval fn env
    · exact .next _ fun suspended => (deepens.eval fn env).bind fun callee => deepens.apply _ suspended
  | primitive op args =>
    simp only
    split
    · exact (deepens.strict args env).bind (deepens.invoke _)
    · exact .refl _
  | host fn args =>
    simp only
    split
    · exact (deepens.strict args env).bind (deepens.invoke _)
    · exact .refl _
  | choose scrutinee alternatives otherwise =>
    refine (deepens.eval scrutinee env).bind fun whnf => .next _ fun chosen => ?_
    exact deepens.eval chosen.1 chosen.2
  | letrec bindings body => exact .next _ fun scope => deepens.eval body scope
  | seq first second => exact (deepens.eval first env).bind fun _ => deepens.eval second env
  | raise message => exact .refl _

theorem Deepens.apply_succ {depth : Nat} (deepens : Deepens actor meaning depth) (callee : Node)
    (args : List Handle) :
    Below (Recursion.apply actor meaning (depth + 1) callee args)
      (Recursion.apply actor meaning (depth + 2) callee args) := by
  cases callee with
  | function code bound =>
    rw [Recursion.apply, Recursion.apply]
    split
    · exact .refl _
    · refine (deepens.eval _ _).bind fun whnf => ?_
      split
      · exact .refl _
      · exact deepens.apply whnf.node _
  | _ => exact .refl _

theorem deepens (depth : Nat) : Deepens actor meaning depth := by
  induction depth with
  | zero =>
    exact ⟨fun _ => .diverge _, fun _ _ => .diverge _, fun _ _ => .diverge _⟩
  | succ depth ih => exact ⟨ih.force_succ, ih.eval_succ, ih.apply_succ⟩

end

/-! ### Where a chain ends -/

variable {actor : Actor} {meaning : HostFn → List Node → Except Fault Node} {heap : Heap} {root handle : Handle}
  {links : List Handle}

theorem force_broken {fault : Fault} (chain : heap.follow root = ⟨links, .broken fault⟩) (depth : Nat) :
    force actor meaning (depth + 1) root heap = some (.error fault heap) := by
  rw [force]
  simp only [bind, current, chain, fail]

theorem force_loop (chain : heap.follow root = ⟨links, .loop handle⟩) (depth : Nat) :
    force actor meaning (depth + 1) root heap = some (.error (.nonTermination handle) heap) := by
  rw [force]
  simp only [bind, current, chain, fail]

theorem force_unevaluated {expr : Expr} {env : Env}
    (chain : heap.follow root = ⟨links, .at handle ⟨.unevaluated, .thunk expr env⟩⟩) (depth : Nat) :
    force actor meaning (depth + 1) root heap = (do
      let _ ← onHeap (Heap.claim handle actor)
      let whnf ← eval actor meaning depth expr env
      let result ← onHeap (update actor handle whnf)
      onHeap (collapse links result)
      return (result, whnf.node) : Reduction (Handle × Node)) heap := by
  rw [force, bind_some_ok rfl]
  simp only [chain]

theorem force_inProgress {expr : Expr} {env : Env} {owner : Actor}
    (chain : heap.follow root = ⟨links, .at handle ⟨.inProgress owner, .thunk expr env⟩⟩) (depth : Nat) :
    force actor meaning (depth + 1) root heap = some (.error (.nonTermination handle) heap) := by
  rw [force, bind_some_ok rfl]
  simp only [chain]
  rfl

theorem force_evaluated {expr : Expr} {env : Env}
    (chain : heap.follow root = ⟨links, .at handle ⟨.evaluated, .thunk expr env⟩⟩) (depth : Nat) :
    force actor meaning (depth + 1) root heap = none := by
  rw [force, bind_some_ok rfl]
  simp only [chain]
  rfl

theorem force_value {slot : Slot} (chain : heap.follow root = ⟨links, .at handle slot⟩)
    (value : ∀ expr env, slot.node ≠ .thunk expr env) (depth : Nat) :
    force actor meaning (depth + 1) root heap = (do
      onHeap (collapse links handle)
      return (handle, slot.node) : Reduction (Handle × Node)) heap := by
  rw [force, bind_some_ok rfl]
  simp only [chain]
  obtain ⟨state, node⟩ := slot
  cases node with
  | thunk expr env => exact absurd rfl (value expr env)
  | _ => rfl

end Recursion

end LazyGraph

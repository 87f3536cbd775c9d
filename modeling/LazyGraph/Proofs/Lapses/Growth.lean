import LazyGraph.Proofs.Heap.Confinement
import LazyGraph.Proofs.Lapses.Quiet
import LazyGraph.Proofs.Lapses.Records
import LazyGraph.Proofs.Machine.Assignment

/-! No script gives slots of the heap back. -/

set_option autoImplicit false

namespace LazyGraph.Lapses

open Machine Parallel

variable {σ α β : Type}

def Desk.Grows (before after : Desk σ) : Prop :=
  before.world.heap.capacity ≤ after.world.heap.capacity

namespace Script

def Growing : Script σ α → Prop
  | .ended _ | .lapse _ => True
  | .act action next => Moves Desk.Grows action ∧ ∀ before value after, action before = .ok value after → (next value).Growing
  | .ask _ _ next => ∀ node, (next node).Growing

namespace Growing

theorem bind {first : Script σ β} {next : β → Script σ α} (early : first.Growing) (late : ∀ value, (next value).Growing) :
    (first >>= next).Growing := by
  induction first with
  | ended value => exact late value
  | act action rest ih => exact ⟨early.1, fun before value after ended => ih value (early.2 before value after ended)⟩
  | ask fn operands rest ih => exact fun node => ih node (early node)
  | lapse branch => trivial

theorem beside {action : MachineM σ α} (works : Moves (Works growing.along) action) : Moves Desk.Grows (beside action) := by
  intro desk
  have moved := (works desk.state).heap
  unfold Lapses.beside
  cases answered : action desk.state with
  | ok value state =>
    rw [answered] at moved
    exact moved
  | error fault state =>
    rw [answered] at moved
    exact moved

theorem once {action : MachineM σ α} (works : Moves (Works growing.along) action) : (Script.once action).Growing :=
  ⟨beside works, fun _ _ _ _ => trivial⟩

theorem settle (outcome : Except Fault α) : (Script.once (σ := σ) (settle outcome)).Growing :=
  once (settle_works outcome)

theorem throw (fault : Fault) : (Script.once (σ := σ) (α := α) (throw fault)).Growing :=
  once (Moves.throw fault)

theorem push (evaluator : Evaluator) (record : Record) : (Script.push (σ := σ) evaluator record).Growing := by
  refine ⟨fun desk => ?_, fun _ _ _ _ => trivial⟩
  unfold Desk.push
  split <;> exact Nat.le_refl _

theorem ofPlan {plan : Plan σ α} {gives : α → Prop} (quiet : plan.Quiet growing gives) : (ofPlan plan).Growing := by
  induction plan with
  | ended value => trivial
  | act action following ih =>
    refine ⟨beside quiet.1, fun before value after ended => ?_⟩
    unfold Lapses.beside at ended
    split at ended
    · rename_i answered
      cases ended
      exact ih _ (quiet.2 _ _ _ answered)
    · cases ended

end Growing

end Script

/-! ### Single slots and groups -/

instance : Std.Refl growing.along := ⟨fun _ => Nat.le_refl _⟩

instance : Trans growing.along growing.along growing.along := ⟨growing.trans⟩

theorem transition_grows (node : Handle) (change : Slot → Option Slot) :
    Moves growing.along (Heap.transition node change) :=
  fun heap => Nat.le_of_eq (Heap.capacity_transition node change heap).symm

theorem notify_grows : Moves growing.along (modify Heap.notify : HeapM Unit) :=
  fun heap => Nat.le_refl heap.capacity

theorem complete_grows (node : Handle) (actor : Actor) (payload : Node) :
    Plan.Quiet (σ := σ) growing (fun _ => True) (Parallel.complete node actor payload) := by
  refine .bind (.once_any (Plan.Quiet.getHeap_works.bind fun heap => settle_works _)) fun state _ => ?_
  split
  · have writes : Moves growing.along (Parallel.write node payload) :=
      (transition_grows node _).bind fun _ => Moves.pure ()
    have marks : Moves growing.along (Parallel.mark node) :=
      (transition_grows node _).bind fun _ => notify_grows
    exact .bind (.once_any (onHeap_works writes)) fun _ _ => .bind (.once_any (onHeap_works marks)) fun _ _ => trivial
  · exact .bind (.once_any (onHeap_works notify_grows)) fun _ _ => trivial

theorem openGroup_grows (count : UInt64) : Moves growing.along (Heap.openGroup count) := by
  intro heap
  rcases Heap.openGroup_cases count heap with ⟨handles, opened, ended, _, enlarges⟩ | ⟨limit, refused⟩
  · exact ended ▸ enlarges.grows
  · exact refused ▸ Nat.le_refl _

theorem closeGroup_grows (count : UInt64) (handles : List Handle) (nodes : List Node) :
    Moves growing.along (Heap.closeGroup count handles nodes) := by
  intro heap
  unfold Heap.closeGroup
  split
  · exact Nat.le_of_eq (Heap.capacity_fillAll _ heap).symm
  · exact Nat.le_of_eq (Heap.capacity_abandonAll _ heap).symm

theorem bindAll_grows (env : Env) (bindings : List Expr) :
    Plan.Quiet (σ := σ) growing (fun _ => True) (Parallel.bindAll env bindings) := by
  have group : Plan.Quiet (σ := σ) growing (fun _ => True)
      (Parallel.allocGroup (UInt64.ofNat bindings.length) (bindingNodes env bindings)) := by
    unfold Parallel.allocGroup
    split
    · trivial
    · exact .bind (.once_any (onHeap_works (openGroup_grows _))) fun _ _ =>
        .bind (.once_any (onHeap_works (closeGroup_grows _ _ _))) fun _ _ => trivial
  exact group.bind fun handles _ => .bind (.settle _) fun _ _ => trivial

theorem tryClaim_grows (node : Handle) (actor : Actor) : Moves growing.along (tryClaim node actor) := by
  have looks : Moves growing.along (get : HeapM Heap) := fun heap => Nat.le_refl heap.capacity
  refine looks.bind fun heap => ?_
  split
  · exact Moves.throw _
  · exact (transition_grows node _).bind fun _ => Moves.pure _

/-! ### Scripts -/

open Script

variable {evaluator : Evaluator}

theorem call_growing (record : Record) : (call (σ := σ) record).Growing := by
  unfold call
  split
  · split
    · trivial
    · exact .settle _
  · exact fun node => trivial
  · trivial

theorem callStrict_growing (record : Record) : (callStrict (σ := σ) record).Growing := by
  refine (call_growing record).bind fun result => ?_
  split
  · trivial
  · exact (Growing.ofPlan (.alloc result)).bind fun _ => trivial

theorem nextOperand_growing (record : Record) : (nextOperand (σ := σ) evaluator record).Growing := by
  unfold nextOperand
  split
  · trivial
  · split
    · exact (Growing.push evaluator _).bind fun _ => trivial
    · exact callStrict_growing record

theorem apply_growing (callee : Node) (args : List Handle) : (apply (σ := σ) evaluator callee args).Growing := by
  cases callee with
  | function code bound =>
    simp only [apply]
    split
    · trivial
    · split
      · trivial
      · exact (Growing.push evaluator _).bind fun _ => trivial
  | _ => exact .throw _

theorem eval_growing (expr : Expr) (env : Env) : (eval (σ := σ) evaluator expr env).Growing := by
  unfold eval
  cases expr.form with
  | var slot => exact (Growing.settle _).bind fun _ => trivial
  | data ordinal name args => exact (Growing.ofPlan (.suspendAll env args)).bind fun _ => trivial
  | lambda code captures => exact (Growing.settle _).bind fun _ => trivial
  | apply fn args =>
    simp only
    split
    · trivial
    · exact (Growing.ofPlan (.suspendAll env args)).bind fun _ => (Growing.push evaluator _).bind fun _ => trivial
  | primitive op args =>
    simp only
    split
    · exact nextOperand_growing _
    · exact .throw _
  | host fn args =>
    simp only
    split
    · exact nextOperand_growing _
    · exact .throw _
  | choose scrutinee alternatives otherwise => exact (Growing.push evaluator _).bind fun _ => trivial
  | letrec bindings body => exact (Growing.ofPlan (bindAll_grows env bindings)).bind fun _ => trivial
  | seq first second => exact (Growing.push evaluator _).bind fun _ => trivial
  | raise message => exact .throw _
  | _ => trivial

theorem resume_growing (record : Record) (whnf : Whnf) : (resume (σ := σ) evaluator record whnf).Growing := by
  cases record with
  | update node =>
    refine (Growing.ofPlan (complete_grows node evaluator.actor _)).bind fun done => ?_
    split
    · exact (Growing.ofPlan (.record _)).bind fun _ => trivial
    · trivial
  | redirect links =>
    simp only [resume]
    split
    · exact (Growing.ofPlan (.redirectAll links _)).bind fun _ => trivial
    · trivial
  | apply args => exact apply_growing whnf.node args
  | primitive op operands => exact nextOperand_growing (.primitive op { operands with done := operands.done ++ [whnf.node] })
  | host fn operands => exact nextOperand_growing (.host fn { operands with done := operands.done ++ [whnf.node] })
  | choose case env =>
    simp only [resume, select]
    split
    · exact .settle _
    · trivial
  | seq next env => trivial

theorem enter_growing (links : List Handle) (handle : Handle) (expr : Expr) (env : Env) :
    (enter (σ := σ) evaluator links handle expr env).Growing := by
  cases links with
  | nil => exact (Growing.push evaluator _).bind fun _ => trivial
  | cons link links => exact (Growing.push evaluator _).bind fun _ => (Growing.push evaluator _).bind fun _ => trivial

theorem walk_growing (links : List Handle) (current : Handle) : (walk (σ := σ) evaluator links current).Growing := by
  have looks : (Script.once (σ := σ) do settle ((← getHeap).node current)).Growing :=
    .once (Plan.Quiet.getHeap_works.bind fun heap => settle_works _)
  refine looks.bind fun node => ?_
  cases node with
  | indirection target =>
    simp only
    split
    · exact .throw _
    · trivial
  | thunk expr env =>
    refine (Growing.once (onHeap_works (tryClaim_grows current _))).bind fun answer => ?_
    split
    · exact (enter_growing links.reverse current expr env).bind fun _ => trivial
    · split
      · exact .throw _
      · exact (Growing.ofPlan (.startWait evaluator links.reverse current)).bind fun _ => trivial
    · trivial
  | _ => exact (Growing.ofPlan (.redirectAll links.reverse current)).bind fun _ => trivial

theorem finish_growing (whnf : Whnf) : (finish (σ := σ) evaluator whnf).Growing := by
  have pops : Moves Desk.Grows (Desk.pop (σ := σ)) := by
    intro desk
    unfold Desk.pop
    split <;> exact Nat.le_refl _
  have popping : (.act Desk.pop .ended : Script σ (Option Record)).Growing := ⟨pops, fun _ _ _ _ => trivial⟩
  refine popping.bind fun top => ?_
  split
  · exact (resume_growing _ whnf).bind fun _ => trivial
  · split <;> trivial

theorem script_growing (pace : Pace) : (script (σ := σ) evaluator pace).Growing :=
  match pace with
  | .walk links current => (walk_growing links current).bind fun _ => trivial
  | .turn (.await links node) => (Growing.ofPlan (.resumeWait evaluator links node)).bind fun _ => trivial
  | .turn (.eval expr env) =>
    (Growing.ofPlan (.begins evaluator (.eval expr env))).bind fun _ => (eval_growing expr env).bind fun _ => trivial
  | .turn (.force handle) => (Growing.ofPlan (.begins evaluator (.force handle))).bind fun _ => trivial
  | .turn (.deliver whnf) => (Growing.ofPlan (.begins evaluator (.deliver whnf))).bind fun _ => finish_growing whnf

end LazyGraph.Lapses

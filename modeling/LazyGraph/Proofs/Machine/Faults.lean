import LazyGraph.Proofs.Heap.Waiting
import LazyGraph.Proofs.Machine.Answers

/-! Which parts of a transition can find that a node depends on itself.

Only demanding a node can. Evaluating, calling, applying and selecting raise other faults, and
so do the operations of the heap. -/

set_option autoImplicit false

namespace LazyGraph

def Fault.Ordinary (fault : Fault) : Prop :=
  ∀ node, fault ≠ .nonTermination node

theorem Fault.exhausted_ordinary (limit : Limit) : (Fault.exhausted limit).Ordinary :=
  fun _ same => Fault.noConfusion same

theorem Fault.malformed_ordinary (defect : Defect) : (Fault.malformed defect).Ordinary :=
  fun _ same => Fault.noConfusion same

def Raises {ε σ α : Type} (kind : ε → Prop) (computation : EStateM ε σ α) : Prop :=
  ∀ state fault after, computation state = .error fault after → kind fault

namespace Raises

variable {ε σ α β : Type} {kind : ε → Prop}

theorem bind {first : EStateM ε σ α} {next : α → EStateM ε σ β} (firstRaises : Raises kind first)
    (nextRaises : ∀ value, Raises kind (next value)) : Raises kind (first >>= next) := by
  intro state fault after ended
  cases answered : first state with
  | ok value middle =>
    rw [bind_ok answered] at ended
    exact nextRaises value middle fault after ended
  | error fault' middle =>
    rw [bind_error answered] at ended
    cases ended
    exact firstRaises state fault after answered

theorem never {computation : EStateM ε σ α} (total : ∀ state, ∃ value after, computation state = .ok value after) :
    Raises kind computation := by
  intro state fault after ended
  obtain ⟨value, after', succeeded⟩ := total state
  cases ended.symm.trans succeeded

theorem pure (value : α) : Raises kind (Pure.pure value : EStateM ε σ α) :=
  never fun state => ⟨value, state, rfl⟩

theorem throw {fault : ε} (isKind : kind fault) : Raises kind (MonadExcept.throw fault : EStateM ε σ α) := by
  intro state fault' after ended
  cases ended
  exact isKind

theorem mapM {f : α → EStateM ε σ β} (each : ∀ item, Raises kind (f item)) (items : List α) :
    Raises kind (items.mapM f) := by
  induction items with
  | nil => exact pure []
  | cons head tail ih =>
    rw [List.mapM_cons]
    exact (each head).bind fun _ => ih.bind fun _ => pure _

theorem forM {f : α → EStateM ε σ PUnit} (each : ∀ item, Raises kind (f item)) (items : List α) :
    Raises kind (items.forM f) := by
  induction items with
  | nil => exact pure PUnit.unit
  | cons head tail ih => exact (each head).bind fun _ => ih

end Raises

/-! ### The heap -/

namespace Heap

theorem reserve_raises (count : UInt64) : Raises Fault.Ordinary (reserve count) := by
  intro heap fault after ended
  unfold reserve at ended
  split at ended
  · split at ended <;> cases ended
    exact Fault.exhausted_ordinary _
  · cases ended

theorem alloc_raises (node : Node) : Raises Fault.Ordinary (alloc node) :=
  (reserve_raises 1).bind fun _ => .never fun _ => ⟨_, _, rfl⟩

theorem allocGroup_raises (count : UInt64) (build : List Handle → Heap → List Node × Heap) :
    Raises Fault.Ordinary (allocGroup count build) := by
  have opens : Raises Fault.Ordinary (openGroup count) := 
    (reserve_raises count).bind fun _ => .never fun _ => ⟨_, _, rfl⟩
  have closes : ∀ handles nodes, Raises Fault.Ordinary (closeGroup count handles nodes) := by
    intro handles nodes heap fault after ended
    unfold closeGroup at ended
    split at ended <;> cases ended
    exact Fault.malformed_ordinary _
  unfold allocGroup
  split
  · exact Raises.pure []
  · refine opens.bind fun handles => Raises.bind ?_ fun nodes => (closes handles nodes).bind fun _ => Raises.pure _
    exact .never fun _ => ⟨_, _, rfl⟩

theorem transition_raises (handle : Handle) (change : Slot → Option Slot) :
    Raises Fault.Ordinary (transition handle change) := by
  intro heap fault after ended
  unfold transition at ended
  split at ended
  · rename_i found
    cases ended
    obtain ⟨defect, rfl⟩ := lookup_error found
    exact Fault.malformed_ordinary defect
  · split at ended <;> cases ended

theorem complete_raises (handle : Handle) (actor : Actor) (result : Node) :
    Raises Fault.Ordinary (complete handle actor result) :=
  (transition_raises _ _).bind fun _ => Raises.bind (.never fun _ => ⟨_, _, rfl⟩) fun _ => Raises.pure _

end Heap

/-! ### Outcomes -/

def Except.Raises {ε α : Type} (kind : ε → Prop) (outcome : Except ε α) : Prop :=
  ∀ fault, outcome = .error fault → kind fault

namespace Except.Raises

variable {ε α β : Type} {kind : ε → Prop}

theorem ok (value : α) : Raises kind (.ok value : Except ε α) := by
  intro fault raised
  cases raised

theorem error {fault : ε} (isKind : kind fault) : Raises kind (.error fault : Except ε α) := by
  intro fault' raised
  cases raised
  exact isKind

theorem bind {first : Except ε α} {next : α → Except ε β} (firstRaises : Raises kind first)
    (nextRaises : ∀ value, Raises kind (next value)) : Raises kind (first >>= next) := by
  cases first with
  | ok value => exact nextRaises value
  | error fault => exact error (firstRaises fault rfl)

theorem map {outcome : Except ε α} (raises : Raises kind outcome) (f : α → β) : Raises kind (outcome.map f) := by
  cases outcome with
  | ok value => exact ok (f value)
  | error fault => exact error (raises fault rfl)

theorem mapM {f : α → Except ε β} (each : ∀ item, Raises kind (f item)) (items : List α) :
    Raises kind (items.mapM f) := by
  induction items with
  | nil => exact ok []
  | cons head tail ih =>
    rw [List.mapM_cons]
    exact (each head).bind fun _ => ih.bind fun _ => ok _

end Except.Raises

namespace Env

theorem lookup_raises (env : Env) (slot : UInt64) : Except.Raises Fault.Ordinary (env.lookup slot) := by
  unfold lookup
  split
  · exact .ok _
  · exact .error (Fault.malformed_ordinary _)

theorem close_raises (env : Env) (code : Lambda Expr) (captures : List UInt64) :
    Except.Raises Fault.Ordinary (env.close code captures) := by
  unfold close
  split
  · exact (Except.Raises.mapM env.lookup_raises captures).bind fun _ => .ok _
  · exact .error (Fault.malformed_ordinary _)

theorem suspend_raises (env : Env) (expr : Expr) : Except.Raises Fault.Ordinary (env.suspend expr) := by
  unfold suspend
  split
  · exact (env.lookup_raises _).map _
  · exact .ok _
  · exact .ok _
  · exact .ok _
  · exact .ok _
  · exact .ok _
  · exact (env.close_raises _ _).map _
  · exact .ok _

theorem binding_raises (env : Env) (expr : Expr) : Except.Raises Fault.Ordinary (env.binding expr) :=
  (env.suspend_raises expr).map _

end Env

theorem Primitive.execute_raises (op : Primitive) (operands : List Node) :
    Except.Raises Fault.Ordinary (op.execute operands) := by
  have operand : ∀ (kind : Kind) (node : Node), Except.Raises Fault.Ordinary (kind.operand op node) := by
    intro kind node
    unfold Kind.operand
    split
    · exact .ok _
    · exact .error fun _ same => Fault.noConfusion same
  have computed : ∀ outcome : Except Failure Node, Except.Raises Fault.Ordinary (outcome.mapError Fault.failed) := by
    intro outcome
    cases outcome with
    | ok node => exact .ok node
    | error failure => exact .error fun _ same => Fault.noConfusion same
  unfold execute
  split
  · exact (operand _ _).bind fun _ => computed _
  · exact (operand _ _).bind fun _ => (operand _ _).bind fun _ => computed _
  · exact .error (Fault.malformed_ordinary _)

theorem Node.ordinal_raises (node : Node) : Except.Raises Fault.Ordinary node.ordinal := by
  unfold ordinal
  split
  · exact .ok _
  · exact .ok _
  · exact .error fun _ same => Fault.noConfusion same

/-! ### Reducing -/

namespace Machine

variable {σ : Type} {host : Host σ}

theorem settle_raises {α : Type} {outcome : Except Fault α} (raises : Except.Raises Fault.Ordinary outcome) :
    Raises Fault.Ordinary (settle (σ := σ) outcome) := by
  cases outcome with
  | ok value => exact .pure value
  | error fault => exact .throw (raises fault rfl)

theorem onWorld_raises {α : Type} {operation : EStateM Fault (World σ) α} (raises : Raises Fault.Ordinary operation) :
    Raises Fault.Ordinary (onWorld operation) := by
  intro state fault after ended
  unfold onWorld at ended
  split at ended
  · cases ended
  · rename_i raised
    cases ended
    exact raises _ _ _ raised

theorem onHeap_raises {α : Type} {operation : HeapM α} (raises : Raises Fault.Ordinary operation) :
    Raises Fault.Ordinary (onHeap (σ := σ) operation) := by
  refine onWorld_raises fun world fault after ended => ?_
  unfold World.onHeap at ended
  split at ended
  · cases ended
  · rename_i raised
    cases ended
    exact raises _ _ _ raised

theorem push_raises (evaluator : Evaluator) (frame : Frame) : Raises Fault.Ordinary (push (σ := σ) evaluator frame) := by
  intro state fault after ended
  unfold push at ended
  split at ended <;> cases ended
  exact Fault.exhausted_ordinary _

theorem suspend_raises (env : Env) (expr : Expr) : Raises Fault.Ordinary (suspend (σ := σ) env expr) := by
  refine (settle_raises (env.suspend_raises expr)).bind fun suspension => ?_
  cases suspension with
  | existing handle => exact .pure handle
  | new node => exact onHeap_raises (Heap.alloc_raises node)

theorem suspendAll_raises (env : Env) (exprs : List Expr) : Raises Fault.Ordinary (suspendAll (σ := σ) env exprs) :=
  .mapM (suspend_raises env) exprs

theorem bindAll_raises (env : Env) (bindings : List Expr) : Raises Fault.Ordinary (bindAll (σ := σ) env bindings) := by
  refine (onHeap_raises (Heap.allocGroup_raises _ _)).bind fun handles => ?_
  exact (settle_raises (.mapM (env ++ handles).binding_raises bindings)).bind fun _ => .pure _

theorem answer_raises (result : Node) : Raises Fault.Ordinary (answer (σ := σ) result) := by
  unfold answer
  split
  · exact .pure _
  · exact (onHeap_raises (Heap.alloc_raises result)).bind fun _ => .pure _

variable (honest : ∀ fn operands, Raises Fault.Ordinary (host.call fn operands))
include honest

theorem callStrict_raises (callee : Callee) (operands : List Node) :
    Raises Fault.Ordinary (callStrict host callee operands) := by
  cases callee with
  | primitive op =>
    rw [callStrict_primitive]
    exact (settle_raises (op.execute_raises operands)).bind answer_raises
  | host fn =>
    rw [callStrict_host]
    exact (onWorld_raises (honest fn operands)).bind answer_raises

theorem nextOperand_raises (evaluator : Evaluator) (callee : Callee) (operands : Operands) :
    Raises Fault.Ordinary (nextOperand host evaluator callee operands) := by
  unfold nextOperand
  split
  · exact (push_raises evaluator _).bind fun _ => .pure _
  · exact callStrict_raises honest callee operands.done

theorem eval_raises (evaluator : Evaluator) (expr : Expr) (env : Env) :
    Raises Fault.Ordinary (eval host evaluator expr env) := by
  unfold eval
  cases expr.form with
  | var slot => exact (settle_raises (env.lookup_raises slot)).bind fun _ => .pure _
  | global | char | int | double | text => exact .pure _
  | data ordinal name args => exact (suspendAll_raises env args).bind fun _ => .pure _
  | lambda code captures => exact (settle_raises (env.close_raises code captures)).bind fun _ => .pure _
  | apply fn args =>
    simp only
    split
    · exact .pure _
    · exact (suspendAll_raises env args).bind fun _ => (push_raises evaluator _).bind fun _ => .pure _
  | primitive op args =>
    simp only
    split
    · exact nextOperand_raises honest evaluator _ _
    · exact .throw (Fault.malformed_ordinary _)
  | host fn args =>
    simp only
    split
    · exact nextOperand_raises honest evaluator _ _
    · exact .throw (Fault.malformed_ordinary _)
  | choose scrutinee alternatives otherwise => exact (push_raises evaluator _).bind fun _ => .pure _
  | letrec bindings body => exact (bindAll_raises env bindings).bind fun _ => .pure _
  | seq first second => exact (push_raises evaluator _).bind fun _ => .pure _
  | raise message => exact .throw fun _ same => Fault.noConfusion same

omit honest in
theorem apply_raises (evaluator : Evaluator) (callee : Node) (args : List Handle) :
    Raises Fault.Ordinary (apply (σ := σ) evaluator callee args) := by
  unfold apply
  split
  · simp only
    split
    · exact .pure _
    · split
      · exact .pure _
      · exact (push_raises evaluator _).bind fun _ => .pure _
  · exact .throw fun _ same => Fault.noConfusion same

omit honest in
theorem select_raises (alternatives : List (Alternative Expr)) (otherwise : Option Expr) (env : Env) (scrutinee : Node) :
    Except.Raises Fault.Ordinary (select alternatives otherwise env scrutinee) := by
  unfold select
  split
  · exact .ok _
  · refine scrutinee.ordinal_raises.bind fun ordinal => ?_
    split
    · dsimp only
      split
      · exact .ok _
      · exact .error (Fault.malformed_ordinary _)
    · exact .ok _
    · exact .error fun _ same => Fault.noConfusion same

omit honest in
theorem redirectAll_raises (links : List Handle) (target : Handle) :
    Raises Fault.Ordinary (redirectAll (σ := σ) links target) :=
  .forM (fun _ => (onHeap_raises (Heap.transition_raises _ _)).bind fun _ => .pure _) links

omit honest in
theorem update_raises (evaluator : Evaluator) (node : Handle) (whnf : Whnf) :
    Raises Fault.Ordinary (update (σ := σ) evaluator node whnf) := by
  unfold update
  refine (onHeap_raises (Heap.complete_raises _ _ _)).bind fun written => ?_
  cases written with
  | true => exact Raises.bind (.never fun _ => ⟨_, _, rfl⟩) fun _ => .pure _
  | false => exact .throw (Fault.malformed_ordinary _)

theorem resume_raises (evaluator : Evaluator) (frame : Frame) (whnf : Whnf) :
    Raises Fault.Ordinary (resume host evaluator frame whnf) := by
  cases frame with
  | update node => exact update_raises evaluator node whnf
  | redirect links =>
    unfold resume
    cases whnf.handle? with
    | none => exact .pure _
    | some target => exact (redirectAll_raises links target).bind fun _ => .pure _
  | apply args => exact apply_raises evaluator whnf.node args
  | call callee operands => exact nextOperand_raises honest evaluator callee _
  | choose alternatives otherwise env => exact settle_raises (select_raises alternatives otherwise env whnf.node)
  | seq next env => exact .pure _

theorem finish_raises (evaluator : Evaluator) (whnf : Whnf) :
    Raises Fault.Ordinary (finish host evaluator whnf) := by
  unfold finish
  refine Raises.bind (.never fun _ => ⟨_, _, rfl⟩) fun state => ?_
  split
  · refine Raises.bind (.never fun _ => ⟨_, _, rfl⟩) fun _ => ?_
    exact (resume_raises honest evaluator _ whnf).bind fun _ => .pure _
  · split
    · exact .pure _
    · exact (onHeap_raises (Heap.alloc_raises whnf.node)).bind fun _ => .pure _

omit honest in
theorem tick_raises (evaluator : Evaluator) : Raises Fault.Ordinary (tick (σ := σ) evaluator) := by
  intro state fault after ended
  obtain ⟨limit, rfl⟩ := tick_refused ended
  exact Fault.exhausted_ordinary limit

omit honest in
theorem step_raises {evaluator : Evaluator} {control : Control} {next : MachineM σ Progress}
    (nextRaises : Raises Fault.Ordinary next) :
    Raises Fault.Ordinary (do tick evaluator; trace evaluator control; next) := by
  refine (tick_raises evaluator).bind fun _ => Raises.bind (.never fun state => ?_) fun _ => nextRaises
  obtain ⟨events, traced⟩ := trace_ok evaluator control state
  exact ⟨_, _, traced⟩

/-- Only a transition that demands a node, or looks again at one, finds that it depends on
itself. -/
theorem iterate_raises (evaluator : Evaluator) {control : Control} (unforced : ∀ handle, control ≠ .force handle)
    (active : ∀ links node, control ≠ .await links node) : Raises Fault.Ordinary (iterate host evaluator control) := by
  cases control with
  | eval expr env => exact step_raises ((eval_raises honest evaluator expr env).bind fun _ => .pure _)
  | force handle => exact absurd rfl (unforced handle)
  | deliver whnf => exact step_raises (finish_raises honest evaluator whnf)
  | await links node => exact absurd rfl (active links node)

end Machine

end LazyGraph

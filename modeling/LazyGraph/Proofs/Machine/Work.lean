import LazyGraph.Machine.Run
import LazyGraph.Proofs.Heap.Drift

/-! Work that leaves the claims alone.

All an evaluator does outside demanding a thunk and finishing one comes to this: the
heap moves along, and plain frames, which hold no claim, are pushed. The same is said of
computations that end in a fault, since they may have pushed and allocated before. -/

set_option autoImplicit false

namespace LazyGraph

/-- The frame neither holds a claimed thunk nor waits for one to collapse a chain. -/
def Frame.isPlain : Frame → Bool
  | .update _ | .redirect _ => false
  | _ => true

/-- Whatever the host's functions do to the heap stays within the motion. -/
def Host.Follows {σ : Type} (motion : HeapMotion) (host : Host σ) : Prop :=
  ∀ fn operands, Moves (fun before after : World σ => motion.along before.heap after.heap)
    (host.call fn operands)

/-- Whatever the host's functions do to the heap keeps to the course. -/
def Host.KeepsTo {σ : Type} (along : Heap → Heap → Prop) (host : Host σ) : Prop :=
  ∀ fn operands, Moves (fun before after : World σ => along before.heap after.heap) (host.call fn operands)

namespace Machine

variable {σ α : Type} {along : Heap → Heap → Prop}

structure Works (along : Heap → Heap → Prop) (before after : State σ) : Prop where
  stack : ∃ pushed, (∀ frame ∈ pushed, frame.isPlain) ∧ after.stack.items = pushed ++ before.stack.items
  heap : along before.world.heap after.world.heap

theorem Works.of_same {before after : State σ} (stack : after.stack = before.stack)
    (heap : along before.world.heap after.world.heap) : Works along before after :=
  ⟨⟨[], by simp, by simp [stack]⟩, heap⟩

theorem Works.trans [Pathway along] {first second third : State σ} (early : Works along first second)
    (late : Works along second third) : Works along first third := by
  obtain ⟨pushed, plain, items⟩ := early.stack
  obtain ⟨pushed', plain', items'⟩ := late.stack
  refine ⟨⟨pushed' ++ pushed, ?_, by simp [items', items]⟩, Pathway.trans early.heap late.heap⟩
  intro frame member
  rcases List.mem_append.mp member with member | member
  · exact plain' frame member
  · exact plain frame member

instance [Pathway along] : Std.Refl (Works (σ := σ) along) := ⟨fun _ => .of_same rfl (Pathway.refl _)⟩

instance [Pathway along] : Trans (Works (σ := σ) along) (Works along) (Works along) := ⟨Works.trans⟩

/-! ### The parts a transition is made of -/

theorem onWorld_works {operation : EStateM Fault (World σ) α}
    (follows : Moves (fun before after => along before.heap after.heap) operation) :
    Moves (Works along) (onWorld operation) := by
  intro state
  have moved := follows state.world
  unfold onWorld
  cases ended : operation state.world with
  | ok result world =>
    rw [ended] at moved
    exact .of_same rfl moved
  | error fault world =>
    rw [ended] at moved
    exact .of_same rfl moved

theorem onHeap_works {operation : HeapM α} (follows : Moves along operation) :
    Moves (Works (σ := σ) along) (onHeap operation) := by
  apply onWorld_works
  intro world
  have moved := follows world.heap
  unfold World.onHeap
  cases ended : operation world.heap with
  | ok result heap =>
    rw [ended] at moved
    exact moved
  | error fault heap =>
    rw [ended] at moved
    exact moved

theorem modifyWorld_works {change : World σ → World σ}
    (follows : ∀ world, along world.heap (change world).heap) :
    Moves (Works along) (modifyWorld change) :=
  fun state => .of_same rfl (follows state.world)

variable [Pathway along]

theorem settle_works (outcome : Except Fault α) : Moves (Works (σ := σ) along) (settle outcome) := by
  cases outcome with
  | ok value => exact Moves.pure value
  | error fault => exact Moves.throw fault

theorem record_works (event : Event) : Moves (Works (σ := σ) along) (record event) :=
  modifyWorld_works fun _ => Pathway.refl _

theorem push_works (evaluator : Evaluator) {frame : Frame} (plain : frame.isPlain) :
    Moves (Works (σ := σ) along) (push evaluator frame) := by
  intro state
  unfold push
  split
  · exact .of_same rfl (Pathway.refl _)
  · exact ⟨⟨[frame], by simpa using plain, rfl⟩, Pathway.refl _⟩

theorem checkInterruption_state (evaluator : Evaluator) (state : State σ) :
    (checkInterruption evaluator state).state = state := by
  unfold checkInterruption
  split <;> rfl

/-- A step begun is counted and takes a tick, whether it is then granted or not. -/
def begun (state : State σ) : State σ :=
  { state with steps := state.steps + 1, world := { state.world with clock := state.world.clock + 1 } }

theorem tick_eq (evaluator : Evaluator) (state : State σ) :
    tick evaluator state = match evaluator.settings.maxSteps with
      | some limit =>
        if limit.toNat < state.steps + 1 then .error (.exhausted (.steps limit)) (begun state)
        else checkInterruption evaluator (begun state)
      | none => checkInterruption evaluator (begun state) := by
  unfold tick
  cases evaluator.settings.maxSteps with
  | none => rfl
  | some limit =>
    by_cases spent : limit.toNat < state.steps + 1
    · simp only [if_pos spent]
      refine (bind_ok rfl).trans ((bind_ok rfl).trans ?_)
      rw [if_pos spent]
      rfl
    · simp only [if_neg spent]
      refine (bind_ok rfl).trans ((bind_ok rfl).trans ?_)
      rw [if_neg spent]
      rfl

theorem tick_refused {evaluator : Evaluator} {state after : State σ} {fault : Fault}
    (refused : tick evaluator state = .error fault after) : ∃ limit, fault = .exhausted limit := by
  have interrupted : ∀ {state after : State σ}, checkInterruption evaluator state = .error fault after →
      ∃ limit, fault = .exhausted limit := by
    intro state after stopped
    unfold checkInterruption at stopped
    split at stopped
    · cases stopped
      exact ⟨_, rfl⟩
    · cases stopped
  rw [tick_eq] at refused
  split at refused
  · split at refused
    · cases refused
      exact ⟨_, rfl⟩
    · exact interrupted refused
  · exact interrupted refused

theorem tick_state (evaluator : Evaluator) (state : State σ) :
    (tick evaluator state).state = begun state := by
  rw [tick_eq]
  split
  · split
    · rfl
    · exact checkInterruption_state evaluator _
  · exact checkInterruption_state evaluator _

theorem trace_ok (evaluator : Evaluator) (control : Control) (state : State σ) :
    ∃ events, trace evaluator control state = .ok () { state with world := { state.world with events := events } } := by
  unfold trace
  split
  · split <;> exact ⟨_, rfl⟩
  · exact ⟨_, rfl⟩

theorem trace_state (evaluator : Evaluator) (control : Control) (state : State σ) :
    ∃ state', trace evaluator control state = .ok () state' ∧ state'.stack = state.stack ∧
      state'.world.heap = state.world.heap := by
  obtain ⟨events, traced⟩ := trace_ok evaluator control state
  exact ⟨_, traced, rfl, rfl⟩

/-! ### Evaluating, calling and applying -/

theorem suspend_works (env : Env) (expr : Expr) : Moves (Works (σ := σ) along) (suspend env expr) := by
  unfold suspend
  refine (settle_works _).bind fun suspension => ?_
  cases suspension with
  | existing handle => exact Moves.pure handle
  | new node => exact onHeap_works (Pathway.alloc node)

theorem suspendAll_works (env : Env) (exprs : List Expr) :
    Moves (Works (σ := σ) along) (suspendAll env exprs) :=
  Moves.mapM exprs fun expr _ => suspend_works env expr

theorem bindAll_works (env : Env) (bindings : List Expr) :
    Moves (Works (σ := σ) along) (bindAll env bindings) := by
  refine (onHeap_works (Pathway.allocGroup _ _ fun _ _ => rfl)).bind fun handles => ?_
  exact (settle_works _).bind fun _ => Moves.pure _

theorem deliver_works (node : Node) : Moves (Works (σ := σ) along) (deliver node) :=
  Moves.pure _

-- What becomes of the result of a strict call.
def answer (result : Node) : MachineM σ Control :=
  if result.tag.isWhnf then deliver result
  else do return .force (← onHeap (Heap.alloc result))

theorem callStrict_primitive (host : Host σ) (op : Primitive) (operands : List Node) :
    callStrict host (.primitive op) operands = settle (op.execute operands) >>= answer := rfl

theorem callStrict_host (host : Host σ) (fn : HostFn) (operands : List Node) :
    callStrict host (.host fn) operands = onWorld (host.call fn operands) >>= answer := rfl

theorem answer_works (result : Node) : Moves (Works (σ := σ) along) (answer result) := by
  unfold answer
  split
  · exact deliver_works result
  · exact (onHeap_works (Pathway.alloc result)).bind fun _ => Moves.pure _

theorem callStrict_works {host : Host σ} (follows : host.KeepsTo along) (callee : Callee)
    (operands : List Node) : Moves (Works along) (callStrict host callee operands) := by
  cases callee with
  | primitive op =>
    rw [callStrict_primitive]
    exact (settle_works _).bind answer_works
  | host fn =>
    rw [callStrict_host]
    exact (onWorld_works (follows fn operands)).bind answer_works

theorem nextOperand_works {host : Host σ} (follows : host.KeepsTo along) (evaluator : Evaluator)
    (callee : Callee) (operands : Operands) :
    Moves (Works along) (nextOperand host evaluator callee operands) := by
  unfold nextOperand
  split
  · exact (push_works evaluator rfl).bind fun _ => Moves.pure _
  · exact callStrict_works follows callee operands.done

theorem eval_works {host : Host σ} (follows : host.KeepsTo along) (evaluator : Evaluator) (expr : Expr)
    (env : Env) : Moves (Works along) (eval host evaluator expr env) := by
  unfold eval
  cases expr.form with
  | var slot => exact (settle_works _).bind fun _ => Moves.pure _
  | global node => exact Moves.pure _
  | char value | int value | double value | text value => exact deliver_works _
  | data ordinal name args => exact (suspendAll_works env args).bind fun _ => deliver_works _
  | lambda code captures => exact (settle_works _).bind fun _ => deliver_works _
  | apply fn args =>
    simp only
    split
    · exact Moves.pure _
    · refine (suspendAll_works env args).bind fun _ => ?_
      exact (push_works evaluator rfl).bind fun _ => Moves.pure _
  | primitive op args =>
    simp only
    split
    · exact nextOperand_works follows evaluator _ _
    · exact Moves.throw _
  | host fn args =>
    simp only
    split
    · exact nextOperand_works follows evaluator _ _
    · exact Moves.throw _
  | choose scrutinee alternatives otherwise => exact (push_works evaluator rfl).bind fun _ => Moves.pure _
  | letrec bindings body => exact (bindAll_works env bindings).bind fun _ => Moves.pure _
  | seq first second => exact (push_works evaluator rfl).bind fun _ => Moves.pure _
  | raise message => exact Moves.throw _

theorem apply_works (evaluator : Evaluator) (callee : Node) (args : List Handle) :
    Moves (Works (σ := σ) along) (apply evaluator callee args) := by
  unfold apply
  split
  · simp only
    split
    · exact deliver_works _
    · split
      · exact Moves.pure _
      · exact (push_works evaluator rfl).bind fun _ => Moves.pure _
  · exact Moves.throw _

/-- Frames that hold no claim and wait for none are resumed as they stand. -/
theorem resume_plain_works {host : Host σ} (follows : host.KeepsTo along) (evaluator : Evaluator) {frame : Frame}
    (plain : frame.isPlain) (whnf : Whnf) : Moves (Works along) (resume host evaluator frame whnf) := by
  unfold resume
  cases frame with
  | update node => cases plain
  | redirect links => cases plain
  | apply args => exact apply_works evaluator whnf.node args
  | call callee operands => exact nextOperand_works follows evaluator callee _
  | choose alternatives otherwise env => exact settle_works _
  | seq next env => exact Moves.pure _

theorem redirectAll_works {motion : HeapMotion} (links : List Handle) (target : Handle) :
    Moves (Works (σ := σ) motion.along) (redirectAll links target) :=
  Moves.forM links fun link _ =>
    (onHeap_works (motion.redirect link target)).bind fun _ => Moves.pure _

theorem resume_works {motion : HeapMotion} {host : Host σ} (follows : host.Follows motion) (evaluator : Evaluator)
    {frame : Frame} (unclaimed : ∀ node, frame ≠ .update node) (whnf : Whnf) :
    Moves (Works motion.along) (resume host evaluator frame whnf) := by
  cases frame with
  | update node => exact absurd rfl (unclaimed node)
  | redirect links =>
    simp only [resume]
    split
    · exact (redirectAll_works links _).bind fun _ => Moves.pure _
    · exact Moves.pure _
  | _ => exact resume_plain_works follows evaluator rfl whnf

end Machine

end LazyGraph

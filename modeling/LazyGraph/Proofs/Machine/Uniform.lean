import LazyGraph.Proofs.Recursion.Runs

/-! Transitions over different frames.

What an evaluator does next depends on the heap and on the frame it takes off. The frames
below, the steps taken so far and what was recorded make no difference, as long as no limit
is met. -/

set_option autoImplicit false

namespace LazyGraph.Machine

variable {σ α β : Type} {evaluator : Evaluator} {host : Host σ} {meaning : HostFn → List Node → Except Fault Node}
  {loud loud' : Prop} {base base' pushed : List Frame} {control : Control} {left right : State σ}

def StackFull (evaluator : Evaluator) (result : EStateM.Result Fault (State σ) α) : Prop :=
  ∃ after, result = .error (.exhausted (.workStack evaluator.settings.maxWorkStack)) after

/-- Both come to the same value or fault, with the same heap and the same frames on top of
theirs. A full stack excuses them if they are loud. -/
inductive Conforms (evaluator : Evaluator) (loud : Prop) (base base' : List Frame) :
    EStateM.Result Fault (State σ) α → EStateM.Result Fault (State σ) α → Prop where
  | ok {value : α} {left right : State σ} (pushed : List Frame) (stack : left.stack.items = pushed ++ base)
      (stack' : right.stack.items = pushed ++ base') (heap : left.world.heap = right.world.heap) :
      Conforms evaluator loud base base' (.ok value left) (.ok value right)
  | error {fault : Fault} {left right : State σ} (pushed : List Frame) (stack : left.stack.items = pushed ++ base)
      (stack' : right.stack.items = pushed ++ base') (heap : left.world.heap = right.world.heap) :
      Conforms evaluator loud base base' (.error fault left) (.error fault right)
  | full {result result' : EStateM.Result Fault (State σ) α} (isLoud : loud)
      (full : StackFull evaluator result ∨ StackFull evaluator result') : Conforms evaluator loud base base' result result'

namespace Conforms

variable {result result' : EStateM.Result Fault (State σ) α}

theorem lower (conforms : Conforms evaluator loud (pushed ++ base) (pushed ++ base') result result') :
    Conforms evaluator loud base base' result result' := by
  cases conforms with
  | ok more stack stack' heap => exact .ok (more ++ pushed) (by simp [stack]) (by simp [stack']) heap
  | error more stack stack' heap => exact .error (more ++ pushed) (by simp [stack]) (by simp [stack']) heap
  | full isLoud full => exact .full isLoud full

theorem weaken (conforms : Conforms evaluator loud base base' result result') (implies : loud → loud') :
    Conforms evaluator loud' base base' result result' := by
  cases conforms with
  | ok pushed stack stack' heap => exact .ok pushed stack stack' heap
  | error pushed stack stack' heap => exact .error pushed stack stack' heap
  | full isLoud full => exact .full (implies isLoud) full

end Conforms

/-- What the computation comes to depends on the heap alone. It may push frames if it is loud. -/
def Uniform (evaluator : Evaluator) (loud : Prop) (computation : MachineM σ α) : Prop :=
  ∀ left right, left.world.heap = right.world.heap →
    Conforms evaluator loud left.stack.items right.stack.items (computation left) (computation right)

theorem Conforms.bind {first : MachineM σ β} {next : β → MachineM σ α}
    (early : Conforms evaluator loud base base' (first left) (first right))
    (late : ∀ value, Uniform evaluator loud (next value)) :
    Conforms evaluator loud base base' ((first >>= next) left) ((first >>= next) right) := by
  generalize begins : first left = result at early
  generalize begins' : first right = result' at early
  cases early with
  | @ok value middle middle' pushed stack stack' heap =>
    rw [bind_ok begins, bind_ok begins']
    have rest := late value middle middle' heap
    rw [stack, stack'] at rest
    exact rest.lower
  | error pushed stack stack' heap =>
    rw [bind_error begins, bind_error begins']
    exact .error pushed stack stack' heap
  | full isLoud full =>
    refine .full isLoud (full.imp ?_ ?_)
    · rintro ⟨after, rfl⟩
      exact ⟨after, bind_error begins⟩
    · rintro ⟨after, rfl⟩
      exact ⟨after, bind_error begins'⟩

namespace Uniform

theorem weaken {computation : MachineM σ α} (uniform : Uniform evaluator loud computation) (implies : loud → loud') :
    Uniform evaluator loud' computation :=
  fun left right heap => (uniform left right heap).weaken implies

theorem pure (value : α) : Uniform evaluator loud (Pure.pure value : MachineM σ α) :=
  fun _ _ heap => .ok [] rfl rfl heap

theorem throw (fault : Fault) : Uniform evaluator loud (MonadExcept.throw fault : MachineM σ α) :=
  fun _ _ heap => .error [] rfl rfl heap

theorem bind {first : MachineM σ β} {next : β → MachineM σ α} (early : Uniform evaluator loud first)
    (late : ∀ value, Uniform evaluator loud (next value)) : Uniform evaluator loud (first >>= next) :=
  fun left right heap => (early left right heap).bind late

theorem settle (outcome : Except Fault α) : Uniform evaluator loud (settle (σ := σ) outcome) := by
  cases outcome with
  | ok value => exact .pure value
  | error fault => exact .throw fault

theorem onHeap (operation : HeapM α) : Uniform evaluator loud (onHeap (σ := σ) operation) := by
  intro left right heap
  cases operated : operation left.world.heap with
  | ok value after =>
    rw [onHeap_ok operated, onHeap_ok (heap ▸ operated)]
    exact .ok [] rfl rfl rfl
  | error fault after =>
    rw [onHeap_error operated, onHeap_error (heap ▸ operated)]
    exact .error [] rfl rfl rfl

/-- Changes of the world that turn equal heaps into equal heaps. -/
theorem modifyWorld {change : World σ → World σ} (onHeap : Heap → Heap)
    (changes : ∀ world, (change world).heap = onHeap world.heap) : Uniform evaluator loud (modifyWorld change) := by
  intro left right heap
  refine .ok [] rfl rfl ?_
  rw [changes, changes, heap]

theorem getHeap {next : Heap → MachineM σ α} (late : ∀ heap, Uniform evaluator loud (next heap)) :
    Uniform evaluator loud (Machine.getHeap >>= next) := by
  intro left right heap
  rw [bind_ok (rfl : Machine.getHeap left = .ok left.world.heap left),
    bind_ok (rfl : Machine.getHeap right = .ok right.world.heap right), ← heap]
  exact late _ left right heap

theorem push (frame : Frame) : Uniform evaluator True (push (σ := σ) evaluator frame) := by
  intro left right heap
  unfold Machine.push
  by_cases full : evaluator.settings.maxWorkStack.toNat ≤ left.stack.depth
  · rw [if_pos full]
    exact .full trivial (.inl ⟨_, rfl⟩)
  by_cases full' : evaluator.settings.maxWorkStack.toNat ≤ right.stack.depth
  · rw [if_pos full']
    exact .full trivial (.inr ⟨_, rfl⟩)
  rw [if_neg full, if_neg full']
  exact .ok [frame] rfl rfl heap

theorem forM {f : β → MachineM σ PUnit} (each : ∀ item, Uniform evaluator loud (f item)) (items : List β) :
    Uniform evaluator loud (items.forM f) := by
  induction items with
  | nil => exact .pure PUnit.unit
  | cons head tail ih => exact (each head).bind fun _ => ih

end Uniform

/-! ### Evaluating and calling -/

theorem answer_uniform (result : Node) : Uniform evaluator loud (answer (σ := σ) result) := by
  unfold answer
  split
  · exact .pure _
  · exact (Uniform.onHeap _).bind fun _ => .pure _

theorem callStrict_uniform (means : host.Means meaning) (callee : Callee) (operands : List Node) :
    Uniform evaluator loud (callStrict host callee operands) := by
  cases callee with
  | primitive op => exact (Uniform.settle (op.execute operands)).bind answer_uniform
  | host fn =>
    refine Uniform.bind ?_ answer_uniform
    intro left right heap
    obtain ⟨world, kept, called⟩ := means fn operands left.world
    obtain ⟨world', kept', called'⟩ := means fn operands right.world
    unfold onWorld
    rw [called, called']
    cases meaning fn operands with
    | ok result => exact .ok [] rfl rfl (kept.trans (heap.trans kept'.symm))
    | error fault => exact .error [] rfl rfl (kept.trans (heap.trans kept'.symm))

theorem nextOperand_uniform (means : host.Means meaning) (callee : Callee) (operands : Operands) :
    Uniform evaluator (operands.pending ≠ []) (nextOperand host evaluator callee operands) := by
  obtain ⟨done, pending, env⟩ := operands
  cases pending with
  | nil => exact callStrict_uniform means callee done
  | cons expr pending =>
    have pushes : Uniform evaluator True (nextOperand host evaluator callee ⟨done, expr :: pending, env⟩) :=
      (Uniform.push _).bind fun _ => .pure _
    exact pushes.weaken fun _ => List.cons_ne_nil _ _

theorem eval_uniform (means : host.Means meaning) (expr : Expr) (env : Env) (frames : List Frame) :
    Uniform evaluator (callsHost (.eval expr env) frames = false) (eval host evaluator expr env) := by
  obtain ⟨label, form⟩ := expr
  unfold eval
  cases form with
  | var slot => exact (Uniform.settle _).bind fun _ => .pure _
  | global | char | int | double | text => exact .pure _
  | data ordinal name args =>
    simp only [suspendAll_eq]
    exact (Uniform.onHeap _).bind fun _ => .pure _
  | lambda => exact (Uniform.settle _).bind fun _ => .pure _
  | apply fn args =>
    simp only [suspendAll_eq]
    split
    · exact .pure _
    · refine ((Uniform.onHeap _).bind fun _ => Uniform.bind ?_ fun _ => .pure _)
      exact (Uniform.push _).weaken fun _ => rfl
  | primitive op args =>
    dsimp only
    split
    · exact (nextOperand_uniform means _ _).weaken fun _ => rfl
    · exact .throw _
  | host fn args =>
    dsimp only
    split
    · refine (nextOperand_uniform means _ _).weaken fun more => ?_
      cases args with
      | nil => exact absurd rfl more
      | cons => rfl
    · exact .throw _
  | choose | seq => exact ((Uniform.push _).weaken fun _ => rfl).bind fun _ => .pure _
  | letrec bindings body =>
    simp only [bindAll_eq]
    exact (Uniform.onHeap _).bind fun _ => .pure _
  | raise => exact .throw _

/-! ### Demanding and delivering -/

theorem redirectAll_uniform (links : List Handle) (target : Handle) :
    Uniform evaluator loud (redirectAll (σ := σ) links target) :=
  .forM (fun _ => (Uniform.onHeap _).bind fun _ => .pure _) links

theorem enter_uniform (links : List Handle) (handle : Handle) (expr : Expr) (env : Env) :
    Uniform evaluator True (enter (σ := σ) evaluator links handle expr env) := by
  have marks : Uniform evaluator True (do push (σ := σ) evaluator (.update handle); return Control.eval expr env) :=
    (Uniform.push _).bind fun _ => .pure _
  unfold enter
  split
  · exact marks
  · exact (Uniform.push _).bind fun _ => marks

theorem demandFrom_uniform (passed : List Handle) (start : Handle) :
    Uniform evaluator True (demandFrom (σ := σ) evaluator passed start) := by
  refine .getHeap fun heap => ?_
  dsimp only
  split
  · exact .throw _
  · exact .throw _
  · split
    · refine (Uniform.onHeap _).bind fun claimed => ?_
      split
      · exact enter_uniform _ _ _ _
      · split
        · split
          · exact .throw _
          · exact (Uniform.onHeap _).bind fun _ => .bind (.modifyWorld id fun _ => rfl) fun _ => .pure _
        · exact .pure _
    · exact (redirectAll_uniform _ _).bind fun _ => .pure _

theorem apply_uniform (callee : Node) (args : List Handle) : Uniform evaluator True (apply (σ := σ) evaluator callee args) := by
  unfold apply
  split
  · dsimp only
    split
    · exact .pure _
    · split
      · exact .pure _
      · exact (Uniform.push _).bind fun _ => .pure _
  · exact .throw _

theorem resume_uniform (means : host.Means meaning) (frame : Frame) (whnf : Whnf) (frames : List Frame) :
    Uniform evaluator (callsHost (.deliver whnf) (frame :: frames) = false) (resume host evaluator frame whnf) := by
  cases frame with
  | update node =>
    refine (Uniform.onHeap _).bind fun written => ?_
    split
    · exact .bind (.modifyWorld id fun _ => rfl) fun _ => .pure _
    · exact .throw _
  | redirect links =>
    unfold resume
    cases whnf.handle? with
    | some target => exact (redirectAll_uniform _ _).bind fun _ => .pure _
    | none => exact .pure _
  | apply args => exact (apply_uniform _ _).weaken fun _ => rfl
  | call callee operands =>
    obtain ⟨done, pending, env⟩ := operands
    refine (nextOperand_uniform means callee _).weaken fun more => ?_
    cases pending with
    | nil => exact absurd rfl more
    | cons => cases callee <;> rfl
  | choose alternatives otherwise env => exact .settle _
  | seq next env => exact .pure _

/-! ### Transitions -/

theorem continuing_uniform {computation : MachineM σ Control} (uniform : Uniform evaluator loud computation) :
    Uniform evaluator loud (continuing computation) :=
  uniform.bind fun _ => .pure _

/-- A step that is granted on both sides is taken from the same frames and nodes. -/
theorem step_conforms {next : MachineM σ Progress} (active : control.waits = false)
    (free : ¬ Hindered host evaluator control left) (free' : ¬ Hindered host evaluator control right)
    (late : ∀ ready ready', ready.stack = left.stack → ready'.stack = right.stack →
      ready.world.heap = left.world.heap → ready'.world.heap = right.world.heap →
      Conforms evaluator loud base base' (next ready) (next ready')) :
    Conforms evaluator loud base base' ((do tick evaluator; trace evaluator control; next) left)
      ((do tick evaluator; trace evaluator control; next) right) := by
  obtain ⟨ready, stack, heap, going⟩ := step_granted control next (granted free active)
  obtain ⟨ready', stack', heap', going'⟩ := step_granted control next (granted free' active)
  rw [going, going']
  exact late ready ready' stack stack' heap heap'

theorem resumeWait_conforms {links : List Handle} {node : Handle} (free : ¬ Hindered host evaluator (.await links node) left)
    (free' : ¬ Hindered host evaluator (.await links node) right) (heap : left.world.heap = right.world.heap) :
    Conforms evaluator True left.stack.items right.stack.items (resumeWait evaluator links node left)
      (resumeWait evaluator links node right) := by
  have checked : ∀ {state : State σ}, ¬ Hindered host evaluator (.await links node) state →
      checkInterruption evaluator state = .ok () state := by
    intro state free
    unfold checkInterruption
    cases found : interruption? evaluator state with
    | none => rfl
    | some limit => exact absurd (.interrupted found) free
  unfold resumeWait
  rw [bind_ok (checked free), bind_ok (checked free')]
  refine Uniform.getHeap (fun heap => (Uniform.settle _).bind fun held => ?_) left right heap
  split
  · exact .bind (.modifyWorld id fun _ => rfl) fun _ => .pure _
  · exact .bind (.modifyWorld (·.endWait evaluator.actor) fun _ => rfl) fun _ => demandFrom_uniform links node

theorem callsHost_eval (expr : Expr) (env : Env) (frames frames' : List Frame) :
    callsHost (.eval expr env) frames = callsHost (.eval expr env) frames' := by
  obtain ⟨label, form⟩ := expr
  cases form with
  | host fn args => cases args <;> rfl
  | _ => rfl

theorem callsHost_deliver (whnf : Whnf) (frame : Frame) (frames frames' : List Frame) :
    callsHost (.deliver whnf) (frame :: frames) = callsHost (.deliver whnf) (frame :: frames') := by
  cases frame with
  | call callee operands =>
    obtain ⟨done, pending, env⟩ := operands
    cases callee <;> cases pending <;> rfl
  | _ => rfl

/-- Two transitions that no limit stops conform, as long as they take the same frame off. -/
theorem iterate_conforms (means : host.Means meaning) (stack : left.stack.items = pushed ++ base)
    (stack' : right.stack.items = pushed ++ base') (heap : left.world.heap = right.world.heap)
    (above : pushed = [] → ∀ whnf, control ≠ .deliver whnf) (free : ¬ Hindered host evaluator control left)
    (free' : ¬ Hindered host evaluator control right) :
    Conforms evaluator False base base' (iterate host evaluator control left) (iterate host evaluator control right) := by
  -- a full stack would be a limit
  have unhindered : Conforms evaluator (callsHost control left.stack.items = false) base base'
      (iterate host evaluator control left) (iterate host evaluator control right) →
      callsHost control left.stack.items = callsHost control right.stack.items →
      Conforms evaluator False base base' (iterate host evaluator control left) (iterate host evaluator control right) := by
    intro conforms same
    generalize ended : iterate host evaluator control left = result at conforms ⊢
    generalize ended' : iterate host evaluator control right = result' at conforms ⊢
    cases conforms with
    | ok pushed stack stack' heap => exact .ok pushed stack stack' heap
    | error pushed stack stack' heap => exact .error pushed stack stack' heap
    | full uncalled full =>
      rcases full with ⟨after, rfl⟩ | ⟨after, rfl⟩
      · exact absurd (.crowded uncalled ended) free
      · exact absurd (.crowded (same ▸ uncalled) ended') free'
  cases control with
  | await links node =>
    have conforms := (resumeWait_conforms free free' heap).bind fun next => .pure (Progress.continues next)
    rw [stack, stack'] at conforms
    exact unhindered (conforms.lower.weaken fun _ => rfl) rfl
  | eval expr env =>
    refine unhindered (step_conforms rfl free free' fun ready ready' sameStack sameStack' sameHeap sameHeap' => ?_)
      (callsHost_eval expr env _ _)
    have uniform : Uniform evaluator _ (eval host evaluator expr env) := eval_uniform means expr env left.stack.items
    have conforms := continuing_uniform uniform ready ready' (by rw [sameHeap, sameHeap', heap])
    rw [sameStack, sameStack', stack', stack] at conforms
    exact stack ▸ conforms.lower
  | force handle =>
    refine unhindered (step_conforms rfl free free' fun ready ready' sameStack sameStack' sameHeap sameHeap' => ?_) rfl
    have uniform : Uniform evaluator _ (demand (σ := σ) evaluator handle) := demandFrom_uniform [] handle
    have conforms := continuing_uniform uniform ready ready' (by rw [sameHeap, sameHeap', heap])
    rw [sameStack, sameStack', stack, stack'] at conforms
    exact conforms.lower.weaken fun _ => rfl
  | deliver whnf =>
    cases pushed with
    | nil => exact absurd rfl (above rfl whnf)
    | cons frame pushed =>
      refine unhindered (step_conforms rfl free free' fun ready ready' sameStack sameStack' sameHeap sameHeap' => ?_) ?_
      · obtain ⟨rest, popped, items⟩ := Stack.pop?_of_items ((congrArg Stack.items sameStack).trans stack)
        obtain ⟨rest', popped', items'⟩ := Stack.pop?_of_items ((congrArg Stack.items sameStack').trans stack')
        rw [finish_pops host evaluator whnf popped, finish_pops host evaluator whnf popped', stack]
        have uniform : Uniform evaluator _ (resume host evaluator frame whnf) := resume_uniform means frame whnf (pushed ++ base)
        have conforms := continuing_uniform uniform { ready with stack := rest }
          { ready' with stack := rest' } (by rw [sameHeap, sameHeap', heap])
        rw [items, items'] at conforms
        exact conforms.lower
      · rw [stack, stack']
        exact callsHost_deliver whnf frame _ _

end LazyGraph.Machine

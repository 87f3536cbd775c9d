import LazyGraph.Proofs.Heap.Growth
import LazyGraph.Proofs.Heap.Waiting
import LazyGraph.Proofs.Machine.Transition
import LazyGraph.Proofs.Renaming.Alike

/-! The step budget is checked when a step begins.

Nothing that is done in a step raises the fault of a spent budget. So a call that ends with it
has done nothing in its last step, and was not waiting. -/

set_option autoImplicit false

namespace LazyGraph

/-- The fault does not say that the step budget is spent. -/
def Fault.Unbudgeted (fault : Fault) : Prop :=
  ∀ budget, fault ≠ .exhausted (.steps budget)

theorem Fault.unbudgeted_of_kind {fault : Fault} (kind : fault.kind ≠ .exhausted) : fault.Unbudgeted := by
  rintro budget rfl
  exact kind rfl

/-! ### Results of functions -/

def Sober {α : Type} (outcome : Except Fault α) : Prop :=
  ∀ fault, outcome = .error fault → fault.kind ≠ .exhausted

namespace Sober

variable {α β : Type}

theorem ok (value : α) : Sober (.ok value) := nofun

theorem error {fault : Fault} (kind : fault.kind ≠ .exhausted) : Sober (.error fault : Except Fault α) := by
  rintro _ ⟨⟩
  exact kind

theorem bind {first : Except Fault α} {next : α → Except Fault β} (early : Sober first)
    (late : ∀ value, Sober (next value)) : Sober (first >>= next) := by
  cases first with
  | ok value => exact late value
  | error fault => exact .error (early fault rfl)

theorem map {outcome : Except Fault α} (sober : Sober outcome) (f : α → β) : Sober (outcome.map f) := by
  cases outcome with
  | ok value => exact .ok _
  | error fault => exact .error (sober fault rfl)

theorem mapM {f : α → Except Fault β} (each : ∀ item, Sober (f item)) (items : List α) : Sober (items.mapM f) := by
  induction items with
  | nil => exact .ok []
  | cons head tail ih =>
    rw [List.mapM_cons]
    exact (each head).bind fun _ => ih.bind fun _ => .ok _

end Sober

theorem Env.lookup_sober (env : Env) (slot : UInt64) : Sober (env.lookup slot) := by
  unfold Env.lookup
  split
  · exact .ok _
  · exact .error nofun

theorem Env.close_sober (env : Env) (code : Lambda Expr) (captures : List UInt64) : Sober (env.close code captures) := by
  unfold Env.close
  split
  · exact (Sober.mapM env.lookup_sober captures).bind fun _ => .ok _
  · exact .error nofun

theorem Env.suspend_sober (env : Env) (expr : Expr) : Sober (env.suspend expr) := by
  unfold Env.suspend
  split
  · exact (env.lookup_sober _).map _
  · exact .ok _
  · exact .ok _
  · exact .ok _
  · exact .ok _
  · exact .ok _
  · exact (env.close_sober _ _).map _
  · exact .ok _

theorem Node.ordinal_sober (node : Node) : Sober node.ordinal := by
  unfold Node.ordinal
  split
  · exact .ok _
  · exact .ok _
  · exact .error nofun

theorem Machine.select_sober (alternatives : List (Alternative Expr)) (otherwise : Option Expr) (env : Env)
    (scrutinee : Node) : Sober (select alternatives otherwise env scrutinee) := by
  unfold select
  split
  · exact .ok _
  · refine scrutinee.ordinal_sober.bind fun ordinal => ?_
    split
    · dsimp only
      split
      · exact .ok _
      · exact .error nofun
    · exact .ok _
    · exact .error nofun

theorem Primitive.execute_sober (op : Primitive) (operands : List Node) : Sober (op.execute operands) := by
  have read : ∀ (kind : Kind) (node : Node), Sober (kind.operand op node) := by
    intro kind node
    unfold Kind.operand
    split
    · exact .ok _
    · exact .error nofun
  have computed : ∀ outcome : Except Failure Node, Sober (outcome.mapError Fault.failed) := by
    intro outcome
    cases outcome with
    | ok node => exact .ok _
    | error failure => exact .error nofun
  unfold execute
  split
  · exact (read _ _).bind fun _ => computed _
  · exact (read _ _).bind fun _ => (read _ _).bind fun _ => computed _
  · exact .error nofun

/-! ### Computations -/

def Frugal {τ α : Type} (computation : EStateM Fault τ α) : Prop :=
  ∀ state fault after, computation state = .error fault after → fault.Unbudgeted

namespace Frugal

variable {τ α β : Type}

theorem pure (value : α) : Frugal (Pure.pure value : EStateM Fault τ α) := nofun

theorem throw {fault : Fault} (unbudgeted : fault.Unbudgeted) : Frugal (MonadExcept.throw fault : EStateM Fault τ α) := by
  rintro state _ after ⟨⟩
  exact unbudgeted

theorem safe {computation : EStateM Fault τ α} {result : τ → α} {next : τ → τ}
    (succeeds : ∀ state, computation state = .ok (result state) (next state)) : Frugal computation := by
  intro state fault after ended
  cases ended.symm.trans (succeeds state)

theorem bind {first : EStateM Fault τ β} {next : β → EStateM Fault τ α} (early : Frugal first)
    (late : ∀ value, Frugal (next value)) : Frugal (first >>= next) := by
  intro state fault after ended
  cases begins : first state with
  | ok value middle =>
    rw [bind_ok begins] at ended
    exact late value middle fault after ended
  | error fault' middle =>
    rw [bind_error begins] at ended
    cases ended
    exact early state _ _ begins

theorem mapM {f : β → EStateM Fault τ α} (items : List β) (each : ∀ item, Frugal (f item)) : Frugal (items.mapM f) := by
  induction items with
  | nil => exact .pure []
  | cons head tail ih =>
    rw [List.mapM_cons]
    exact (each head).bind fun _ => ih.bind fun _ => .pure _

theorem forM {f : β → EStateM Fault τ PUnit} (items : List β) (each : ∀ item, Frugal (f item)) :
    Frugal (items.forM f) := by
  induction items with
  | nil => exact .pure PUnit.unit
  | cons head tail ih => exact (each head).bind fun _ => ih

end Frugal

namespace Heap

theorem transition_frugal (node : Handle) (change : Slot → Option Slot) : Frugal (transition node change) := by
  intro heap fault after ended
  unfold transition at ended
  split at ended
  · rename_i broken
    cases ended
    obtain ⟨defect, rfl⟩ := lookup_error broken
    exact nofun
  · split at ended <;> cases ended

theorem notified_frugal {operation : HeapM Bool} (frugal : Frugal operation) :
    Frugal (do let done ← operation; modify notify; return done) :=
  frugal.bind fun _ => (Frugal.safe fun _ => rfl : Frugal (modify notify)).bind fun _ => .pure _

theorem alloc_frugal (node : Node) : Frugal (alloc node) := by
  intro heap fault after ended
  rcases alloc_cases node heap with ⟨_, _, granted, _⟩ | ⟨limit, refused⟩
  · cases ended.symm.trans granted
  · cases ended.symm.trans refused
    exact nofun

theorem allocGroup_frugal (count : UInt64) (build : List Handle → Heap → List Node × Heap) :
    Frugal (allocGroup count build) := by
  have closes : ∀ handles nodes, Frugal (closeGroup count handles nodes) := by
    intro handles nodes heap fault after ended
    unfold closeGroup at ended
    split at ended <;> cases ended
    exact nofun
  have opens : Frugal (openGroup count) := by
    refine Frugal.bind (fun heap fault after ended => ?_) fun _ => .safe fun _ => rfl
    rcases @reserve_cases [] count heap with ⟨_, granted, _⟩ | ⟨limit, refused⟩
    · cases ended.symm.trans granted
    · cases ended.symm.trans refused
      exact nofun
  unfold allocGroup
  split
  · exact .pure _
  · refine opens.bind fun handles => ?_
    have built : Frugal (modifyGet (build handles) : HeapM (List Node)) := .safe fun _ => rfl
    exact built.bind fun nodes => (closes handles nodes).bind fun _ => .pure _

theorem beginWait_frugal (actor : Actor) (node : Handle) : Frugal (beginWait actor node) := by
  intro heap fault after ended
  unfold beginWait at ended
  split at ended
  · rename_i fault' broken
    cases ended
    obtain ⟨defect, rfl⟩ := leadsBack_error broken
    exact nofun
  · cases ended
    exact nofun
  · cases ended

end Heap

namespace Machine

variable {σ α : Type} {host : Host σ} {evaluator : Evaluator}

theorem settle_frugal {outcome : Except Fault α} (sober : Sober outcome) : Frugal (settle (σ := σ) outcome) := by
  cases outcome with
  | ok value => exact .pure value
  | error fault => exact .throw (Fault.unbudgeted_of_kind (sober fault rfl))

theorem onHeap_frugal {operation : HeapM α} (frugal : Frugal operation) : Frugal (onHeap (σ := σ) operation) := by
  intro state fault after ended
  cases operated : operation state.world.heap with
  | ok value heap =>
    rw [onHeap_ok operated] at ended
    cases ended
  | error fault' heap =>
    rw [onHeap_error operated] at ended
    cases ended
    exact frugal _ _ _ operated

theorem push_frugal (evaluator : Evaluator) (frame : Frame) : Frugal (push (σ := σ) evaluator frame) := by
  intro state fault after ended
  unfold push at ended
  split at ended <;> cases ended
  exact nofun

theorem record_frugal (event : Event) : Frugal (record (σ := σ) event) :=
  .safe fun _ => rfl

theorem suspend_frugal (env : Env) (expr : Expr) : Frugal (suspend (σ := σ) env expr) := by
  refine (settle_frugal (env.suspend_sober expr)).bind fun suspension => ?_
  cases suspension with
  | existing handle => exact .pure handle
  | new node => exact onHeap_frugal (Heap.alloc_frugal node)

theorem bindAll_frugal (env : Env) (bindings : List Expr) : Frugal (bindAll (σ := σ) env bindings) := by
  refine (onHeap_frugal (Heap.allocGroup_frugal _ _)).bind fun handles => ?_
  refine (settle_frugal (Sober.mapM (fun binding => ?_) bindings)).bind fun _ => .pure _
  exact ((env ++ handles).suspend_sober binding).map _

theorem nextOperand_frugal (op : Primitive) (operands : Operands) :
    Frugal (nextOperand host evaluator (.primitive op) operands) := by
  obtain ⟨done, pending, env⟩ := operands
  cases pending with
  | cons expr pending => exact (push_frugal evaluator _).bind fun _ => .pure _
  | nil =>
    simp only [nextOperand, callStrict_primitive]
    refine (settle_frugal (op.execute_sober done)).bind fun result => ?_
    unfold answer
    split
    · exact .pure _
    · exact (onHeap_frugal (Heap.alloc_frugal result)).bind fun _ => .pure _

theorem eval_frugal {expr : Expr} (code : expr.HostFree) (env : Env) : Frugal (eval host evaluator expr env) := by
  have suspends : ∀ args : List Expr, Frugal (suspendAll (σ := σ) env args) :=
    fun args => .mapM args (suspend_frugal env)
  obtain ⟨label, form⟩ := expr
  unfold eval
  cases form with
  | var slot => exact (settle_frugal (env.lookup_sober slot)).bind fun _ => .pure _
  | global | char | int | double | text => exact .pure _
  | data ordinal name args => exact (suspends args).bind fun _ => .pure _
  | lambda => exact (settle_frugal (env.close_sober _ _)).bind fun _ => .pure _
  | apply fn args =>
    dsimp only
    split
    · exact .pure _
    · exact (suspends args).bind fun _ => (push_frugal evaluator _).bind fun _ => .pure _
  | primitive op args =>
    dsimp only
    split
    · exact nextOperand_frugal op _
    · exact .throw nofun
  | host fn args => exact absurd rfl (code _ fn args .whole)
  | choose | seq => exact (push_frugal evaluator _).bind fun _ => .pure _
  | letrec bindings body => exact (bindAll_frugal env bindings).bind fun _ => .pure _
  | raise => exact .throw nofun

theorem redirectAll_frugal (links : List Handle) (target : Handle) : Frugal (redirectAll (σ := σ) links target) :=
  .forM links fun _ => (onHeap_frugal (Heap.transition_frugal _ _)).bind fun _ => .pure _

theorem demandFrom_frugal (passed : List Handle) (start : Handle) :
    Frugal (demandFrom (σ := σ) evaluator passed start) := by
  have enters : ∀ links handle expr env, Frugal (enter (σ := σ) evaluator links handle expr env) := by
    intro links handle expr env
    unfold enter
    split
    · exact (push_frugal evaluator _).bind fun _ => .pure _
    · exact (push_frugal evaluator _).bind fun _ => (push_frugal evaluator _).bind fun _ => .pure _
  refine Frugal.bind (.safe fun _ => rfl : Frugal getHeap) fun heap => ?_
  dsimp only
  split
  · rename_i fault landed
    refine .throw ?_
    obtain ⟨defect, rfl⟩ := Heap.followFrom_broken landed
    exact nofun
  · exact .throw nofun
  · split
    · refine (onHeap_frugal (Heap.transition_frugal _ _)).bind fun claimed => ?_
      split
      · exact enters _ _ _ _
      · split
        · split
          · exact .throw nofun
          · refine (onHeap_frugal (Heap.beginWait_frugal _ _)).bind fun _ => ?_
            exact (record_frugal _).bind fun _ => .pure _
        · exact .pure _
    · exact (redirectAll_frugal _ _).bind fun _ => .pure _

theorem resume_frugal {known : Handle → Prop} {pairs : Pairing} {frame : Frame} (frames : frame.Alike known pairs frame)
    (whnf : Whnf) : Frugal (resume host evaluator frame whnf) := by
  cases frames with
  | update =>
    refine (onHeap_frugal (Heap.notified_frugal (Heap.transition_frugal _ _))).bind fun written => ?_
    split
    · exact (record_frugal _).bind fun _ => .pure _
    · exact .throw nofun
  | redirect =>
    unfold resume
    cases whnf.handle? with
    | some target => exact (redirectAll_frugal _ _).bind fun _ => .pure _
    | none => exact .pure _
  | apply =>
    unfold resume
    dsimp only
    unfold apply
    split
    · dsimp only
      split
      · exact .pure _
      · split
        · exact .pure _
        · exact (push_frugal evaluator _).bind fun _ => .pure _
    · exact .throw nofun
  | call => exact nextOperand_frugal _ _
  | choose => exact settle_frugal (select_sober _ _ _ _)
  | seq => exact .pure _

theorem continuing_frugal {computation : MachineM σ Control} (frugal : Frugal computation) :
    Frugal (continuing computation) :=
  frugal.bind fun _ => .pure _

theorem resumeWait_frugal (links : List Handle) (node : Handle) : Frugal (resumeWait (σ := σ) evaluator links node) := by
  have checked : Frugal (checkInterruption (σ := σ) evaluator) := by
    intro state fault after ended
    unfold checkInterruption at ended
    split at ended
    · rename_i limit found
      cases ended
      unfold interruption? at found
      split at found
      · cases found
        exact nofun
      · split at found <;> cases found
        exact nofun
    · cases ended
  refine checked.bind fun _ => (Frugal.safe fun _ => rfl : Frugal getHeap).bind fun heap => ?_
  refine (settle_frugal fun fault broken => ?_).bind fun held => ?_
  · obtain ⟨defect, rfl⟩ := Heap.state_error broken
    exact nofun
  · split
    · exact (Frugal.safe fun _ => rfl : Frugal (modifyWorld _)).bind fun _ => .pure _
    · exact (Frugal.safe fun _ => rfl : Frugal (modifyWorld _)).bind fun _ => demandFrom_frugal links node

theorem finish_frugal {known : Handle → Prop} {pairs : Pairing} {state : State σ}
    (frames : ∀ frame ∈ state.stack.items, frame.Alike known pairs frame) (whnf : Whnf) {fault : Fault} {after : State σ}
    (ended : finish host evaluator whnf state = .error fault after) : fault.Unbudgeted := by
  cases popped : state.stack.pop? with
  | some top =>
    have member : top.1 ∈ state.stack.items := by
      rw [Stack.pop?_eq_some popped]
      exact .head _
    rw [finish_pops host evaluator whnf popped] at ended
    exact continuing_frugal (resume_frugal (frames _ member) whnf) _ _ _ ended
  | none =>
    unfold finish at ended
    rw [bind_ok (rfl : (get : MachineM σ (State σ)) state = .ok state state), popped] at ended
    dsimp only at ended
    cases place : whnf.handle? with
    | some handle =>
      rw [place] at ended
      cases ended
    | none =>
      rw [place] at ended
      have stores : Frugal (do return Progress.finished (← onHeap (σ := σ) (Heap.alloc whnf.node))) :=
        (onHeap_frugal (Heap.alloc_frugal whnf.node)).bind fun _ => .pure _
      exact stores _ _ _ ended

/-- Who finds the step budget spent has done nothing but begin a step. -/
theorem iterate_spent {known : Handle → Prop} {pairs : Pairing} {control : Control} {state after : State σ} {budget : UInt64}
    (controls : control.Alike known pairs control) (frames : ∀ frame ∈ state.stack.items, frame.Alike known pairs frame)
    (ended : iterate host evaluator control state = .error (.exhausted (.steps budget)) after) :
    (∀ links node, control ≠ .await links node) ∧ after = begun state := by
  have stops : ∀ {rest : MachineM σ Progress},
      (∀ {ready fault}, ready.stack = state.stack → rest ready = .error fault after → fault.Unbudgeted) →
      (do tick evaluator; trace evaluator control; rest) state = .error (.exhausted (.steps budget)) after →
      after = begun state := by
    intro rest frugal ended
    rcases step_cases evaluator control rest state with ⟨limit, refused⟩ | ⟨_, ready, stack, _, going⟩
    · cases ended.symm.trans refused
      rfl
    · exact absurd rfl (frugal stack (going.symm.trans ended) budget)
  cases control with
  | await links node => exact absurd rfl (continuing_frugal (resumeWait_frugal links node) _ _ _ ended budget)
  | eval expr env =>
    have code : expr.HostFree := by
      cases controls with
      | eval code _ => exact code.hostFree
    exact ⟨nofun, stops (fun _ => continuing_frugal (eval_frugal code env) _ _ _) ended⟩
  | force handle => exact ⟨nofun, stops (fun _ => continuing_frugal (demandFrom_frugal [] handle) _ _ _) ended⟩
  | deliver whnf => exact ⟨nofun, stops (fun stack => finish_frugal (stack ▸ frames) whnf) ended⟩

end Machine

end LazyGraph

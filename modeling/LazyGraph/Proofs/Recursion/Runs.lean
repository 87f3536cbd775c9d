import LazyGraph.Proofs.Machine.Iterations
import LazyGraph.Proofs.Recursion.Simulation

/-! Runs above a floor, and the limits that stop them.

A run that starts over some frames leaves them alone until it hands them its result.
Where no limit stops it, each of its transitions unfolds one recursive call. -/

set_option autoImplicit false

namespace LazyGraph.Machine

open Recursion (ofControl ofFrame through)

variable {σ : Type} {host : Host σ} {evaluator : Evaluator} {meaning : HostFn → List Node → Except Fault Node}

/-! ### Transitions that no limit stops -/

inductive Hindered (host : Host σ) (evaluator : Evaluator) : Control → State σ → Prop where
  | refused {control : Control} {state after : State σ} {fault : Fault} (active : control.waits = false)
      (ticked : tick evaluator state = .error fault after) : Hindered host evaluator control state
  | interrupted {links : List Handle} {node : Handle} {state : State σ} {limit : Limit}
      (found : interruption? evaluator state = some limit) :
      Hindered host evaluator (.await links node) state
  | crowded {control : Control} {state after : State σ} (uncalled : callsHost control state.stack.items = false)
      (full : iterate host evaluator control state =
        .error (.exhausted (.workStack evaluator.settings.maxWorkStack)) after) :
      Hindered host evaluator control state

theorem granted {control : Control} {state : State σ} (free : ¬ Hindered host evaluator control state)
    (active : control.waits = false) : tick evaluator state = .ok () (begun state) := by
  have reached := tick_state evaluator state
  cases ticked : tick evaluator state with
  | ok _ after =>
    rw [ticked] at reached
    cases reached
    rfl
  | error fault after => exact absurd (.refused active ticked) free

theorem Hindered.error {control : Control} {state : State σ} (hindered : Hindered host evaluator control state) :
    ∃ limit after, iterate host evaluator control state = .error (.exhausted limit) after := by
  cases hindered with
  | @refused _ _ after fault active ticked =>
    obtain ⟨limit, rfl⟩ := tick_refused ticked
    refine ⟨limit, after, ?_⟩
    cases control with
    | await links node => cases active
    | eval expr env => exact bind_error ticked
    | force handle => exact bind_error ticked
    | deliver whnf => exact bind_error ticked
  | @interrupted links node _ limit found =>
    have checked : checkInterruption evaluator state = .error (.exhausted limit) state := by
      simp only [checkInterruption, found]
    have ended : resumeWait evaluator links node state = .error (.exhausted limit) state := bind_error checked
    exact ⟨_, _, continuing_error ended⟩
  | crowded _ full => exact ⟨_, _, full⟩

/-- A transition unfolds a call over the frames `base`, and nothing stops it. -/
inductive Unfolds (evaluator : Evaluator) (meaning : HostFn → List Node → Except Fault Node) (quiet : Bool)
    (aim : Nat → Reduction Whnf) (base : List Frame) (heap : Heap) :
    EStateM.Result Fault (State σ) Progress → Prop where
  | goes {next : Control} {after : State σ} (pushed : List Frame)
      (stack : after.stack.items = pushed ++ base) (level : quiet = true → pushed = [])
      (same : ∀ depth, aim depth heap = through evaluator.actor meaning depth pushed
        (ofControl evaluator.actor meaning depth next) after.world.heap)
      (stuck : OnlyStuck next after.world.heap) :
      Unfolds evaluator meaning quiet aim base heap (.ok (.continues next) after)
  | fails {fault : Fault} {after : State σ}
      (same : ∀ depth, aim depth heap = some (.error fault after.world.heap)) :
      Unfolds evaluator meaning quiet aim base heap (.error fault after)

theorem Serves.unfolds {quiet : Bool} {aim : Nat → Reduction Whnf} {control : Control} {before ready : State σ}
    {computation : MachineM σ Control} (served : Serves evaluator meaning quiet aim ready (computation ready))
    (free : ¬ Hindered host evaluator control before)
    (uncalled : quiet = false → callsHost control before.stack.items = false)
    (going : iterate host evaluator control before = continuing computation ready) :
    Unfolds evaluator meaning quiet aim ready.stack.items ready.world.heap
      (iterate host evaluator control before) := by
  generalize ended : computation ready = result at served
  cases served with
  | goes pushed stack level same stuck =>
    rw [going, continuing_ok ended]
    exact .goes pushed stack level same stuck
  | fails same =>
    rw [going, continuing_error ended]
    exact .fails same
  | crowded loud =>
    rw [continuing_error ended] at going
    exact absurd (.crowded (uncalled loud) going) free

theorem iterate_eval_unfolds (means : host.Means meaning) {expr : Expr} {env : Env} {state : State σ}
    (free : ¬ Hindered host evaluator (.eval expr env) state) :
    Unfolds evaluator meaning (callsHost (.eval expr env) state.stack.items)
      (fun depth => Recursion.eval evaluator.actor meaning (depth + 1) expr env)
      state.stack.items state.world.heap (iterate host evaluator (.eval expr env) state) := by
  obtain ⟨ready, stack, heap, going⟩ :=
    step_granted (.eval expr env) (continuing (eval host evaluator expr env)) (granted free rfl)
  have served : Serves evaluator meaning (callsHost (.eval expr env) state.stack.items) _ ready _ :=
    eval_serves means expr env state.stack.items ready
  have unfolds := served.unfolds free id going
  rw [stack, heap] at unfolds
  exact unfolds

theorem iterate_force_unfolds {root : Handle} {state : State σ} (sole : state.world.heap.Sole evaluator.actor)
    (free : ¬ Hindered host evaluator (.force root) state) :
    Unfolds evaluator meaning false
      (fun depth => do return .located (← Recursion.force evaluator.actor meaning (depth + 1) root))
      state.stack.items state.world.heap (iterate host evaluator (.force root) state) := by
  obtain ⟨ready, stack, heap, going⟩ :=
    step_granted (.force root) (continuing (demand evaluator root)) (granted free rfl)
  have served : Serves evaluator meaning false _ ready _ := demandFrom_serves (heap.symm ▸ sole) root
  have unfolds := served.unfolds free (fun _ => rfl) going
  rw [stack, heap] at unfolds
  exact unfolds

theorem callsHost_of_loud {frame : Frame} (loud : frame.isQuiet = false) (whnf : Whnf) (rest : List Frame) :
    callsHost (.deliver whnf) (frame :: rest) = false := by
  cases frame with
  | call callee operands =>
    obtain ⟨done, pending, env⟩ := operands
    cases pending with
    | nil => cases loud
    | cons expr pending => cases callee <;> rfl
  | _ => rfl

theorem iterate_deliver_unfolds (means : host.Means meaning) {whnf : Whnf} {frame : Frame} {rest : List Frame}
    {state : State σ} (stack : state.stack.items = frame :: rest)
    (free : ¬ Hindered host evaluator (.deliver whnf) state) :
    Unfolds evaluator meaning frame.isQuiet
      (fun depth => ofFrame evaluator.actor meaning (depth + frame.descent) frame whnf)
      rest state.world.heap (iterate host evaluator (.deliver whnf) state) := by
  obtain ⟨ready, same, heap, going⟩ :=
    step_granted (.deliver whnf) (finish host evaluator whnf) (granted free rfl)
  obtain ⟨below, popped, items⟩ := Stack.pop?_of_items (same.symm ▸ stack)
  rw [finish_pops host evaluator whnf popped] at going
  have served : Serves evaluator meaning frame.isQuiet _ { ready with stack := below } _ :=
    resume_serves means frame whnf { ready with stack := below }
  have unfolds := served.unfolds free (fun loud => stack ▸ callsHost_of_loud loud whnf rest) going
  simp only [items, heap] at unfolds
  exact unfolds

/-! ### Runs above a floor -/

/-- The frames of `floor` lie at the bottom, and the transition does not pop one of them. -/
def Above (floor : List Frame) (control : Control) (state : State σ) : Prop :=
  ∃ pushed, state.stack.items = pushed ++ floor ∧ (pushed = [] → ∀ whnf, control ≠ .deliver whnf)

/-- The loop comes from one action and state to another and leaves the frames of `floor`
alone on the way. -/
inductive Reaches (host : Host σ) (evaluator : Evaluator) (floor : List Frame) :
    Control → State σ → Control → State σ → Prop where
  | here {control : Control} {state : State σ} : Reaches host evaluator floor control state control state
  | step {control next last : Control} {state after reached : State σ} (above : Above floor control state)
      (stepped : iterate host evaluator control state = .ok (.continues next) after)
      (rest : Reaches host evaluator floor next after last reached) :
      Reaches host evaluator floor control state last reached

/-- How the work above the floor ends: a result is to be handed to the floor, or a fault
is raised. -/
inductive Leads (host : Host σ) (evaluator : Evaluator) (floor : List Frame) (control : Control)
    (state : State σ) : EStateM.Result Fault Heap Whnf → Prop where
  | returned {whnf : Whnf} {reached : State σ}
      (reaches : Reaches host evaluator floor control state (.deliver whnf) reached)
      (stack : reached.stack.items = floor) :
      Leads host evaluator floor control state (.ok whnf reached.world.heap)
  | raised {last : Control} {reached after : State σ} {fault : Fault}
      (reaches : Reaches host evaluator floor control state last reached) (above : Above floor last reached)
      (ended : iterate host evaluator last reached = .error fault after) :
      Leads host evaluator floor control state (.error fault after.world.heap)

def UnhinderedAbove (host : Host σ) (evaluator : Evaluator) (floor : List Frame) (control : Control)
    (state : State σ) : Prop :=
  ∀ last reached, Reaches host evaluator floor control state last reached → Above floor last reached →
    ¬ Hindered host evaluator last reached

variable {floor pushed : List Frame} {control next last : Control} {state after reached : State σ}

theorem Above.lower (above : Above (pushed ++ floor) control state) : Above floor control state := by
  obtain ⟨more, stack, idle⟩ := above
  refine ⟨more ++ pushed, by rw [stack, List.append_assoc], fun empty => ?_⟩
  exact idle (List.append_eq_nil_iff.mp empty).1

namespace Reaches

theorem trans {middle : Control} {between : State σ}
    (early : Reaches host evaluator floor control state middle between)
    (late : Reaches host evaluator floor middle between last reached) :
    Reaches host evaluator floor control state last reached := by
  induction early with
  | here => exact late
  | step above stepped _ ih => exact .step above stepped (ih late)

theorem lower (reaches : Reaches host evaluator (pushed ++ floor) control state last reached) :
    Reaches host evaluator floor control state last reached := by
  induction reaches with
  | here => exact .here
  | step above stepped _ ih => exact .step above.lower stepped ih

end Reaches

theorem UnhinderedAbove.later (free : UnhinderedAbove host evaluator floor control state)
    (reaches : Reaches host evaluator floor control state next after) :
    UnhinderedAbove host evaluator floor next after :=
  fun last reached further => free last reached (reaches.trans further)

theorem UnhinderedAbove.raise (free : UnhinderedAbove host evaluator floor control state) :
    UnhinderedAbove host evaluator (pushed ++ floor) control state :=
  fun last reached reaches above => free last reached reaches.lower above.lower

theorem Leads.of_reaches (reaches : Reaches host evaluator floor control state next after)
    {outcome : EStateM.Result Fault Heap Whnf} (leads : Leads host evaluator floor next after outcome) :
    Leads host evaluator floor control state outcome := by
  cases leads with
  | returned further stack => exact .returned (reaches.trans further) stack
  | raised further above ended => exact .raised (reaches.trans further) above ended

/-! ### One actor at work -/

theorem iterate_sole (alone : host.Follows (.sole evaluator.actor)) (sole : state.world.heap.Sole evaluator.actor)
    (stepped : iterate host evaluator control state = .ok (.continues next) after) :
    after.world.heap.Sole evaluator.actor := by
  have moved := iterate_transition alone evaluator control state
  rw [stepped] at moved
  cases moved with
  | worked _ _ works => exact works.heap sole
  | claimed _ _ claims _ => exact sole.rewrites (fun owner held => (SlotState.inProgress.inj held).symm) claims
  | finished _ final _ _ => exact absurd rfl (final next after)
  | resumed _ _ _ works => exact works.heap sole
  | completed _ _ rewrites => exact sole.rewrites (fun owner held => by cases held) rewrites

theorem Reaches.sole (means : host.Means meaning)
    (reaches : Reaches host evaluator floor control state last reached)
    (sole : state.world.heap.Sole evaluator.actor) : reached.world.heap.Sole evaluator.actor := by
  induction reaches with
  | here => exact sole
  | step _ stepped _ ih => exact ih (iterate_sole (means.follows evaluator.actor) sole stepped)

-- The work above the floor may start here.
structure Startable (host : Host σ) (evaluator : Evaluator) (floor : List Frame) (control : Control)
    (state : State σ) : Prop where
  sole : state.world.heap.Sole evaluator.actor
  free : UnhinderedAbove host evaluator floor control state

theorem Startable.later (means : host.Means meaning) (startable : Startable host evaluator floor control state)
    (reaches : Reaches host evaluator floor control state next after) :
    Startable host evaluator floor next after :=
  ⟨reaches.sole means startable.sole, startable.free.later reaches⟩

theorem Startable.raise (startable : Startable host evaluator floor control state) :
    Startable host evaluator (pushed ++ floor) control state :=
  ⟨startable.sole, startable.free.raise⟩

/-! ### Waits that never end -/

theorem followOn_stuck {heap : Heap} {node : Handle} {expr : Expr} {env : Env}
    (live : heap.lookup node = .ok ⟨.evaluated, .thunk expr env⟩) (passed : List Handle) :
    heap.followOn passed node = ⟨passed, .at node ⟨.evaluated, .thunk expr env⟩⟩ := by
  unfold Heap.followOn
  rw [Heap.followFrom_eq, live]
  simp only [List.reverse_reverse]

theorem iterate_stuck {links : List Handle} {node : Handle} (stuck : state.world.heap.Stuck node)
    (free : ¬ Hindered host evaluator (.await links node) state) :
    ∃ after, iterate host evaluator (.await links node) state = .ok (.continues (.await links node)) after ∧
      after.world.heap.Stuck node := by
  obtain ⟨expr, env, live⟩ := stuck
  have running : interruption? evaluator state = none := by
    cases found : interruption? evaluator state with
    | none => rfl
    | some limit => exact absurd (.interrupted found) free
  let ready : State σ :=
    { state with world := { state.world with heap := state.world.heap.endWait evaluator.actor } }
  have live' : ready.world.heap.lookup node = .ok ⟨.evaluated, .thunk expr env⟩ := live
  have chain := followOn_stuck live' links
  have demanded : demandFrom evaluator links node ready = .ok (.await links node) ready := demandFrom_stuck evaluator chain
  have going : iterate host evaluator (.await links node) state = continuing (demandFrom evaluator links node) ready :=
    continuing_congr (resumeWait_over running live rfl)
  exact ⟨ready, going.trans (continuing_ok demanded), expr, env, live'⟩

/-! ### The whole loop -/

def Unhindered (host : Host σ) (evaluator : Evaluator) (control : Control) (state : State σ) : Prop :=
  ∀ count last reached, iterations host evaluator control state count = some (last, reached) →
    ¬ Hindered host evaluator last reached

theorem unhindered_of_run {fuel : Nat} {result : Handle}
    (returned : run host evaluator fuel control state = some (.ok result after)) :
    Unhindered host evaluator control state := by
  intro count last reached standing hindered
  obtain ⟨limit, stopped, ended⟩ := hindered.error
  have raised := run_of_iterations standing (congrArg Progress.outcome? ended)
  cases run_unique returned raised

theorem unhindered_of_failure {fuel : Nat} {fault : Fault} (failed : run host evaluator fuel control state = some (.error fault after))
    (unlimited : ∀ limit, fault ≠ .exhausted limit) : Unhindered host evaluator control state := by
  intro count last reached standing hindered
  obtain ⟨limit, stopped, ended⟩ := hindered.error
  have raised := run_of_iterations standing (congrArg Progress.outcome? ended)
  cases run_unique failed raised
  exact unlimited limit rfl

theorem Reaches.iterations (reaches : Reaches host evaluator floor control state last reached) :
    ∃ count, Machine.iterations host evaluator control state count = some (last, reached) := by
  induction reaches with
  | here => exact ⟨0, rfl⟩
  | step _ stepped _ ih =>
    obtain ⟨count, standing⟩ := ih
    exact ⟨count + 1, (iterations_shift stepped count).trans standing⟩

theorem Unhindered.above (free : Unhindered host evaluator control state) :
    UnhinderedAbove host evaluator floor control state := by
  intro last reached reaches _
  obtain ⟨count, standing⟩ := reaches.iterations
  exact free count last reached standing

-- A transition after which the loop goes on has popped no frame that was not there.
theorem iterate_above (means : host.Means meaning)
    (stepped : iterate host evaluator control state = .ok (.continues next) after) :
    Above [] control state := by
  refine ⟨state.stack.items, by simp, ?_⟩
  rintro empty whnf rfl
  have moved := iterate_transition (means.follows evaluator.actor) evaluator (.deliver whnf) state
  rw [stepped] at moved
  cases moved with
  | worked undelivered _ _ => exact absurd rfl (undelivered whnf)
  | claimed walks _ _ _ => cases walks
  | finished _ final _ _ => exact absurd rfl (final next after)
  | resumed popped _ _ _ =>
    rw [Stack.pop?_eq_some popped] at empty
    cases empty
  | completed popped _ _ =>
    rw [Stack.pop?_eq_some popped] at empty
    cases empty

theorem reaches_of_iterations (means : host.Means meaning) {count : Nat}
    (standing : iterations host evaluator control state count = some (last, reached)) :
    Reaches host evaluator [] control state last reached := by
  induction count generalizing last reached with
  | zero =>
    cases standing
    exact .here
  | succ count ih =>
    obtain ⟨previous, before, earlier, stepped⟩ := iterations_succ standing
    exact (ih earlier).trans (.step (iterate_above means stepped) stepped .here)

theorem iterate_finished (means : host.Means meaning) {result : Handle}
    (ended : iterate host evaluator control state = .ok (.finished result) after) :
    ∃ whnf, control = .deliver whnf ∧ state.stack.items = [] := by
  have moved := iterate_transition (means.follows evaluator.actor) evaluator control state
  rw [ended] at moved
  cases moved with
  | worked _ unfinished _ => exact absurd rfl (unfinished result after)
  | @finished whnf _ empty _ _ _ => exact ⟨whnf, rfl, empty⟩
  | resumed _ _ unfinished _ => exact absurd rfl (unfinished result after)

end LazyGraph.Machine

import LazyGraph.Proofs.Renaming.Lockstep

/-! Runs that leave the frames of a floor alone.

What an evaluator does above some frames does not depend on them: without them it does the
same, and has more room for frames of its own. Nor does it depend on the host, where the code
calls no host function. So a run goes on like its copy without the floor, until it hands a
result to the floor or is stopped. -/

set_option autoImplicit false

namespace LazyGraph.Machine

variable {σ α β : Type} {floor : List Frame} {upper lower : State σ} {evaluator : Evaluator} {host host' : Host σ}
  {known : Handle → Prop} {pairs : Pairing}

/-- The states differ in the frames of the floor, and in what was recorded. -/
structure Over (floor : List Frame) (upper lower : State σ) : Prop where
  stack : upper.stack.items = lower.stack.items ++ floor
  heap : upper.world.heap = lower.world.heap
  gauges : upper.gauges = lower.gauges

/-- What comes to a result over a floor comes to the same without it. -/
def Floats (computation computation' : MachineM σ α) : Prop :=
  ∀ ⦃floor upper lower value after⦄, Over floor upper lower → computation upper = .ok value after →
    ∃ after', computation' lower = .ok value after' ∧ Over floor after after'

namespace Floats

theorem pure (value : α) : Floats (Pure.pure value : MachineM σ α) (Pure.pure value) := by
  intro floor upper lower value after above ended
  cases ended
  exact ⟨lower, rfl, above⟩

theorem throw (fault : Fault) {computation : MachineM σ α} : Floats (MonadExcept.throw fault) computation := by
  intro floor upper lower value after above ended
  cases ended

theorem bind {first first' : MachineM σ β} {next next' : β → MachineM σ α} (early : Floats first first')
    (late : ∀ value, Floats (next value) (next' value)) : Floats (first >>= next) (first' >>= next') := by
  intro floor upper lower value after above ended
  cases begins : first upper with
  | error fault middle =>
    rw [bind_error begins] at ended
    cases ended
  | ok value' middle =>
    rw [bind_ok begins] at ended
    obtain ⟨middle', begins', above'⟩ := early above begins
    rw [bind_ok begins']
    exact late value' above' ended

theorem settle (outcome : Except Fault α) : Floats (settle (σ := σ) outcome) (settle outcome) := by
  cases outcome with
  | ok value => exact .pure value
  | error fault => exact .throw fault

theorem mapM {f f' : β → MachineM σ α} (items : List β) (each : ∀ item, Floats (f item) (f' item)) :
    Floats (items.mapM f) (items.mapM f') := by
  induction items with
  | nil => exact .pure []
  | cons head tail ih =>
    rw [List.mapM_cons, List.mapM_cons]
    exact (each head).bind fun _ => ih.bind fun _ => .pure _

theorem forM {f : β → MachineM σ PUnit} (items : List β) (each : ∀ item, Floats (f item) (f item)) :
    Floats (items.forM f) (items.forM f) := by
  induction items with
  | nil => exact .pure PUnit.unit
  | cons head tail ih => exact (each head).bind fun _ => ih

theorem onHeap (operation : HeapM α) : Floats (onHeap (σ := σ) operation) (onHeap operation) := by
  intro floor upper lower value after above ended
  cases operated : operation upper.world.heap with
  | error fault heap =>
    rw [onHeap_error operated] at ended
    cases ended
  | ok value' heap =>
    rw [onHeap_ok operated] at ended
    cases ended
    rw [above.heap] at operated
    exact ⟨_, onHeap_ok operated, above.stack, rfl, above.gauges⟩

end Floats

/-! ### The parts of a transition -/

theorem getHeap_floats : Floats (getHeap (σ := σ)) getHeap := by
  intro floor upper lower value after above ended
  cases ended
  exact ⟨lower, congrArg (EStateM.Result.ok · lower) above.heap.symm, above⟩

theorem record_floats (event event' : Event) : Floats (record (σ := σ) event) (record event') := by
  intro floor upper lower value after above ended
  cases ended
  exact ⟨_, rfl, above.stack, above.heap, above.gauges⟩

theorem push_floats (evaluator : Evaluator) (frame : Frame) :
    Floats (push (σ := σ) evaluator frame) (push evaluator frame) := by
  intro floor upper lower value after above ended
  have depth : lower.stack.depth ≤ upper.stack.depth := by
    rw [upper.stack.depth_eq, lower.stack.depth_eq, above.stack, List.length_append]
    exact Nat.le_add_right _ _
  unfold push at ended ⊢
  split at ended
  · cases ended
  · rename_i room
    cases ended
    refine ⟨_, if_neg fun full => room (Nat.le_trans full depth), ?_, above.heap, above.gauges⟩
    simp [above.stack]

theorem interruption?_over (above : Over floor upper lower) (evaluator : Evaluator) :
    interruption? evaluator lower = interruption? evaluator upper := by
  have gauges := above.gauges
  simp only [State.gauges, Prod.mk.injEq] at gauges
  obtain ⟨_, deadline, clock, cancellations⟩ := gauges
  have cancelled : lower.world.isCancelled = upper.world.isCancelled := by
    funext token
    rw [World.isCancelled, World.isCancelled, clock, cancellations]
  unfold interruption?
  rw [cancelled, deadline, clock]

theorem stopAt_floats {limit : State σ → Option Limit}
    (same : ∀ {floor upper lower}, Over floor upper lower → limit lower = limit upper) :
    Floats (fun state => stopAt (limit state) state) fun state => stopAt (limit state) state := by
  intro floor upper lower value after above ended
  simp only [same above] at ended ⊢
  generalize limit upper = met at ended ⊢
  cases met with
  | some limit => cases ended
  | none =>
    cases ended
    exact ⟨lower, rfl, above⟩

theorem checkInterruption_floats (evaluator : Evaluator) :
    Floats (checkInterruption (σ := σ) evaluator) (checkInterruption evaluator) :=
  stopAt_floats fun above => interruption?_over above evaluator

theorem Over.begun (above : Over floor upper lower) : Over floor (begun upper) (begun lower) := by
  refine ⟨above.stack, above.heap, ?_⟩
  have gauges := above.gauges
  simp only [State.gauges, Prod.mk.injEq] at gauges ⊢
  obtain ⟨steps, deadline, clock, cancellations⟩ := gauges
  exact ⟨congrArg (· + 1) steps, deadline, congrArg (· + 1) clock, cancellations⟩

theorem tick_floats (evaluator : Evaluator) : Floats (tick (σ := σ) evaluator) (tick evaluator) := by
  intro floor upper lower value after above ended
  rw [tick_refusal] at ended ⊢
  refine stopAt_floats (fun above => ?_) above.begun ended
  have gauges := above.gauges
  simp only [State.gauges, Prod.mk.injEq] at gauges
  rw [refusal?, refusal?, gauges.1, interruption?_over above]

/-! ### Evaluating -/

theorem suspend_floats (env : Env) (expr : Expr) : Floats (suspend (σ := σ) env expr) (suspend env expr) := by
  refine (Floats.settle _).bind fun suspension => ?_
  cases suspension with
  | existing handle => exact .pure handle
  | new node => exact .onHeap _

theorem bindAll_floats (env : Env) (bindings : List Expr) :
    Floats (bindAll (σ := σ) env bindings) (bindAll env bindings) :=
  (Floats.onHeap _).bind fun _ => (Floats.settle _).bind fun _ => .pure _

theorem nextOperand_floats (evaluator : Evaluator) (op : Primitive) (operands : Operands) :
    Floats (nextOperand host evaluator (.primitive op) operands) (nextOperand host' evaluator (.primitive op) operands) := by
  obtain ⟨done, pending, env⟩ := operands
  cases pending with
  | cons expr pending => exact (push_floats evaluator _).bind fun _ => .pure _
  | nil =>
    simp only [nextOperand, callStrict_primitive]
    refine (Floats.settle _).bind fun result => ?_
    unfold answer
    split
    · exact .pure _
    · exact (Floats.onHeap _).bind fun _ => .pure _

theorem eval_floats (evaluator : Evaluator) {expr : Expr} (code : expr.HostFree) (env : Env) :
    Floats (eval host evaluator expr env) (eval host' evaluator expr env) := by
  obtain ⟨label, form⟩ := expr
  unfold eval
  cases form with
  | var slot => exact (Floats.settle _).bind fun _ => .pure _
  | global | char | int | double | text => exact .pure _
  | data ordinal name args => exact (Floats.mapM args (suspend_floats env)).bind fun _ => .pure _
  | lambda => exact (Floats.settle _).bind fun _ => .pure _
  | apply fn args =>
    dsimp only
    split
    · exact .pure _
    · exact (Floats.mapM args (suspend_floats env)).bind fun _ => (push_floats evaluator _).bind fun _ => .pure _
  | primitive op args =>
    dsimp only
    split
    · exact nextOperand_floats evaluator op _
    · exact .throw _
  | host fn args => exact absurd rfl (code _ fn args .whole)
  | choose | seq => exact (push_floats evaluator _).bind fun _ => .pure _
  | letrec bindings body => exact (bindAll_floats env bindings).bind fun _ => .pure _
  | raise => exact .throw _

/-! ### Demanding and delivering -/

theorem redirectAll_floats (links : List Handle) (target : Handle) :
    Floats (redirectAll (σ := σ) links target) (redirectAll links target) :=
  .forM links fun _ => (Floats.onHeap _).bind fun _ => .pure _

theorem enter_floats (evaluator : Evaluator) (links : List Handle) (handle : Handle) (expr : Expr) (env : Env) :
    Floats (enter (σ := σ) evaluator links handle expr env) (enter evaluator links handle expr env) := by
  have marked : Floats (do push (σ := σ) evaluator (.update handle); return Control.eval expr env)
      (do push evaluator (.update handle); return Control.eval expr env) :=
    (push_floats evaluator _).bind fun _ => .pure _
  unfold enter
  split
  · exact marked
  · exact (push_floats evaluator _).bind fun _ => marked

theorem demandFrom_floats (evaluator : Evaluator) (passed : List Handle) (start : Handle) :
    Floats (demandFrom (σ := σ) evaluator passed start) (demandFrom evaluator passed start) := by
  refine getHeap_floats.bind fun heap => ?_
  dsimp only
  split
  · exact .throw _
  · exact .throw _
  · split
    · refine (Floats.onHeap _).bind fun claimed => ?_
      split
      · exact enter_floats evaluator _ _ _ _
      · split
        · split
          · exact .throw _
          · exact (Floats.onHeap _).bind fun _ => (record_floats _ _).bind fun _ => .pure _
        · exact .pure _
    · exact (redirectAll_floats _ _).bind fun _ => .pure _

theorem resumeWait_floats (evaluator : Evaluator) (links : List Handle) (node : Handle) :
    Floats (resumeWait (σ := σ) evaluator links node) (resumeWait evaluator links node) := by
  refine (checkInterruption_floats evaluator).bind fun _ => getHeap_floats.bind fun heap => ?_
  refine (Floats.settle _).bind fun held => ?_
  split
  · refine Floats.bind ?_ fun _ => .pure _
    intro floor upper lower value after above ended
    cases ended
    refine ⟨_, rfl, above.stack, above.heap, ?_⟩
    have gauges := above.gauges
    simp only [State.gauges, Prod.mk.injEq] at gauges ⊢
    exact ⟨gauges.1, gauges.2.1, congrArg (· + _) gauges.2.2.1, gauges.2.2.2⟩
  · refine Floats.bind ?_ fun _ => demandFrom_floats evaluator links node
    intro floor upper lower value after above ended
    cases ended
    exact ⟨_, rfl, above.stack, congrArg (Heap.endWait · evaluator.actor) above.heap, above.gauges⟩

theorem apply_floats (evaluator : Evaluator) (callee : Node) (args : List Handle) :
    Floats (apply (σ := σ) evaluator callee args) (apply evaluator callee args) := by
  unfold apply
  split
  · dsimp only
    split
    · exact .pure _
    · split
      · exact .pure _
      · exact (push_floats evaluator _).bind fun _ => .pure _
  · exact .throw _

theorem resume_floats (evaluator : Evaluator) {frame : Frame} (frames : frame.Alike known pairs frame) (whnf : Whnf) :
    Floats (resume host evaluator frame whnf) (resume host' evaluator frame whnf) := by
  cases frames with
  | update =>
    refine (Floats.onHeap _).bind fun written => ?_
    split
    · exact (record_floats _ _).bind fun _ => .pure _
    · exact .throw _
  | redirect =>
    unfold resume
    cases whnf.handle? with
    | some target => exact (redirectAll_floats _ _).bind fun _ => .pure _
    | none => exact .pure _
  | apply => exact apply_floats evaluator _ _
  | call => exact nextOperand_floats evaluator _ _
  | choose => exact .settle _
  | seq => exact .pure _

theorem continuing_floats {computation computation' : MachineM σ Control} (floats : Floats computation computation') :
    Floats (continuing computation) (continuing computation') :=
  floats.bind fun _ => .pure _

/-- The top frame of the lower stack is the top of the upper one. -/
theorem finish_floats (above : Over floor upper lower) (occupied : lower.stack.items ≠ [])
    (frames : ∀ frame ∈ lower.stack.items, frame.Alike known pairs frame) {whnf : Whnf} {progress : Progress}
    {after : State σ} (ended : finish host evaluator whnf upper = .ok progress after) :
    ∃ after', finish host' evaluator whnf lower = .ok progress after' ∧ Over floor after after' := by
  cases items : lower.stack.items with
  | nil => exact absurd items occupied
  | cons frame rest =>
    obtain ⟨below, popped, remains⟩ := Stack.pop?_of_items items
    have items' : upper.stack.items = frame :: (rest ++ floor) := by rw [above.stack, items, List.cons_append]
    obtain ⟨below', popped', remains'⟩ := Stack.pop?_of_items items'
    have resumed := continuing_floats (@resume_floats σ host host' known pairs evaluator frame
      (frames frame (by rw [items]; exact .head _)) whnf)
    rw [finish_pops host evaluator whnf popped'] at ended
    rw [finish_pops host' evaluator whnf popped]
    have above' : Over floor { upper with stack := below' } { lower with stack := below } :=
      ⟨by rw [remains, remains'], above.heap, above.gauges⟩
    exact resumed above' ended

/-! ### Transitions and runs -/

theorem step_floats {rest rest' : MachineM σ Progress} (control : Control) (above : Over floor upper lower)
    {progress : Progress} {after : State σ}
    (late : ∀ {ready ready'}, Over floor ready ready' → ready'.stack = lower.stack → rest ready = .ok progress after →
      ∃ after', rest' ready' = .ok progress after' ∧ Over floor after after')
    (ended : (do tick evaluator; trace evaluator control; rest) upper = .ok progress after) :
    ∃ after', (do tick evaluator; trace evaluator control; rest') lower = .ok progress after' ∧ Over floor after after' := by
  rcases step_cases evaluator control rest upper with ⟨limit, refused⟩ | ⟨ticked, _⟩
  · cases ended.symm.trans refused
  · obtain ⟨middle, ticked', above'⟩ := tick_floats evaluator above ticked
    have reached := tick_state evaluator lower
    rw [ticked'] at reached
    obtain rfl : middle = begun lower := reached
    obtain ⟨_, traced⟩ := trace_ok evaluator control (begun upper)
    obtain ⟨_, traced'⟩ := trace_ok evaluator control (begun lower)
    rw [bind_ok ticked, bind_ok traced] at ended
    rw [bind_ok ticked', bind_ok traced']
    refine late ?_ rfl ended
    exact ⟨above'.stack, above'.heap, above'.gauges⟩

/-- A transition that hands no result to the floor does the same without it. -/
theorem iterate_floats {control : Control} (above : Over floor upper lower)
    (occupied : ∀ whnf, control = .deliver whnf → lower.stack.items ≠ []) (controls : control.Alike known pairs control)
    (frames : ∀ frame ∈ upper.stack.items, frame.Alike known pairs frame) {progress : Progress} {after : State σ}
    (ended : iterate host evaluator control upper = .ok progress after) :
    ∃ after', iterate host' evaluator control lower = .ok progress after' ∧ Over floor after after' := by
  have lowest : ∀ frame ∈ lower.stack.items, frame.Alike known pairs frame := by
    intro frame member
    exact frames frame (by rw [above.stack]; exact List.mem_append_left _ member)
  cases control with
  | await links node => exact continuing_floats (resumeWait_floats evaluator links node) above ended
  | eval expr env =>
    have code : expr.HostFree := by
      cases controls with
      | eval code _ => exact code.hostFree
    exact step_floats _ above (fun above' _ => continuing_floats (eval_floats evaluator code env) above') ended
  | force handle => exact step_floats _ above (fun above' _ => continuing_floats (demandFrom_floats evaluator [] handle) above') ended
  | deliver whnf =>
    refine step_floats _ above (fun above' stack ended => ?_) ended
    exact finish_floats above' (stack ▸ occupied whnf rfl) (fun frame member => lowest frame (stack ▸ member)) ended

/-! ### Hosts that are not called -/

theorem nextOperand_hostless (evaluator : Evaluator) (op : Primitive) (operands : Operands) :
    nextOperand host evaluator (.primitive op) operands = nextOperand host' evaluator (.primitive op) operands := by
  obtain ⟨done, pending, env⟩ := operands
  cases pending with
  | cons expr pending => rfl
  | nil => simp only [nextOperand, callStrict_primitive]

theorem eval_hostless (evaluator : Evaluator) {expr : Expr} (code : expr.HostFree) (env : Env) :
    eval host evaluator expr env = eval host' evaluator expr env := by
  obtain ⟨label, form⟩ := expr
  cases form with
  | primitive op args => simp only [eval, @nextOperand_hostless σ host host']
  | host fn args => exact absurd rfl (code _ fn args .whole)
  | _ => rfl

theorem resume_hostless (evaluator : Evaluator) {frame : Frame} (frames : frame.Alike known pairs frame) (whnf : Whnf) :
    resume host evaluator frame whnf = resume host' evaluator frame whnf := by
  cases frames with
  | call => exact nextOperand_hostless evaluator _ _
  | _ => rfl

theorem finish_hostless {state : State σ} (frames : ∀ frame ∈ state.stack.items, frame.Alike known pairs frame) (whnf : Whnf) :
    finish host evaluator whnf state = finish host' evaluator whnf state := by
  cases items : state.stack.items with
  | nil =>
    have empty := Stack.pop?_eq_none.mpr items
    have read : (get : MachineM σ (State σ)) state = .ok state state := rfl
    unfold finish
    rw [bind_ok read, bind_ok read, empty]
  | cons frame rest =>
    obtain ⟨below, popped, _⟩ := Stack.pop?_of_items items
    have resumes := @resume_hostless σ host host' known pairs evaluator frame (frames frame (items ▸ .head _)) whnf
    rw [finish_pops host evaluator whnf popped, finish_pops host' evaluator whnf popped, resumes]

/-- Where the code calls no host function, all hosts are the same. -/
theorem iterate_hostless {control : Control} (controls : control.Alike known pairs control)
    (frames : ∀ frame ∈ upper.stack.items, frame.Alike known pairs frame) :
    iterate host evaluator control upper = iterate host' evaluator control upper := by
  cases controls with
  | eval code _ => simp only [iterate, @eval_hostless σ host host' evaluator _ code.hostFree]
  | force | await => rfl
  | @deliver whnf _ _ =>
    have reached := tick_state evaluator upper
    unfold iterate
    dsimp only
    cases ticked : tick evaluator upper with
    | error fault middle => rw [bind_error ticked, bind_error ticked]
    | ok _ middle =>
      rw [ticked] at reached
      obtain rfl : middle = begun upper := reached
      obtain ⟨_, traced⟩ := trace_ok evaluator (.deliver whnf) (begun upper)
      rw [bind_ok ticked, bind_ok ticked, bind_ok traced, bind_ok traced]
      refine @finish_hostless σ evaluator host host' known pairs _ ?_ whnf
      exact frames

/-! ### Runs -/

/-- What the frames, the control and the paired nodes refer to is paired with itself. -/
structure Contained (known : Handle → Prop) (pairs : Pairing) (control : Control) (state : State σ) : Prop where
  abreast : Abreast False known (Heap.Twins Eq known) pairs state state
  action : control.Alike known pairs control
  rooted : control.Rooted state.world.heap

theorem Contained.frames {control : Control} (contained : Contained known pairs control upper) :
    ∀ frame ∈ upper.stack.items, frame.Alike known pairs frame :=
  List.forall₂_same.mp contained.abreast.frames

theorem peers_refl (lax : Prop) (evaluator : Evaluator) : Peers lax Eq evaluator evaluator where
  exactly := by
    rintro actor _ other _ rfl rfl
    exact Iff.rfl
  actors := rfl
  settings := fun _ => rfl
  token := fun _ => rfl

variable {control next last : Control} {state after reached : State σ} {count : Nat}

theorem Contained.step (contained : Contained known pairs control state)
    (stepped : iterate host evaluator control state = .ok (.continues next) after) (fits : after.world.heap.Addressable) :
    ∃ pairs', pairs.Extends pairs' ∧ Contained known pairs' next after := by
  have fits : Fits (iterate host evaluator control state) := by
    rw [stepped]
    exact fits
  have concur := iterate_concur (peers_refl False evaluator) contained.abreast contained.action contained.rooted fits fits
  rw [stepped] at concur
  cases concur with
  | ok wider abreast both =>
    cases both with
    | continues controls => exact ⟨_, wider, abreast, controls, iterate_rooted contained.rooted stepped⟩

theorem Passes.further {step : Control → MachineM σ Progress} {middle : Control} {between : State σ}
    (early : Passes step control state middle between) (stepped : step middle between = .ok (.continues next) after) :
    Passes step control state next after := by
  induction early with
  | here => exact .onward stepped .here
  | onward first _ ih => exact .onward first (ih stepped)

theorem passes_of_iterations (standing : iterations host evaluator control state count = some (last, reached)) :
    Passes (iterate host evaluator) control state last reached := by
  induction count generalizing last reached with
  | zero =>
    cases standing
    exact .here
  | succ count ih =>
    obtain ⟨middle, between, earlier, stepped⟩ := iterations_succ standing
    exact (ih earlier).further stepped

def Housed (host : Host σ) (evaluator : Evaluator) (control : Control) (state : State σ) (count : Nat) : Prop :=
  ∀ early last reached, early ≤ count → iterations host evaluator control state early = some (last, reached) →
    reached.world.heap.Addressable

theorem Housed.sooner {count' : Nat} (housed : Housed host evaluator control state count) (short : count' ≤ count) :
    Housed host evaluator control state count' :=
  fun early last reached short' => housed early last reached (Nat.le_trans short' short)

theorem Contained.iterations (contained : Contained known pairs control state)
    (housed : Housed host evaluator control state count)
    (standing : Machine.iterations host evaluator control state count = some (last, reached)) :
    ∃ pairs', pairs.Extends pairs' ∧ Contained known pairs' last reached := by
  induction count generalizing last reached with
  | zero =>
    cases standing
    exact ⟨pairs, .refl pairs, contained⟩
  | succ count ih =>
    obtain ⟨middle, between, earlier, stepped⟩ := iterations_succ standing
    obtain ⟨pairs', wider, contained'⟩ := ih (housed.sooner (Nat.le_succ count)) earlier
    obtain ⟨pairs'', wider', contained''⟩ := contained'.step stepped (housed _ _ _ (Nat.le_refl _) standing)
    exact ⟨pairs'', wider.trans wider', contained''⟩

theorem Contained.passes (contained : Contained known pairs control state) (roomy : Roomy (iterate host evaluator) control state)
    (passes : Passes (iterate host' evaluator) control state last reached) :
    Passes (iterate host evaluator) control state last reached ∧
      iterate host' evaluator last reached = iterate host evaluator last reached := by
  induction passes generalizing pairs with
  | here => exact ⟨.here, iterate_hostless contained.action contained.frames⟩
  | onward stepped _ ih =>
    rw [@iterate_hostless σ _ evaluator host' host _ _ _ contained.action contained.frames] at stepped
    have fits := roomy _ _ .here
    rw [Fits, stepped] at fits
    obtain ⟨pairs', _, contained'⟩ := contained.step stepped fits
    obtain ⟨rest, same⟩ := ih contained' (roomy.onward stepped)
    exact ⟨.onward stepped rest, same⟩

theorem Contained.roomy (contained : Contained known pairs control state) (roomy : Roomy (iterate host evaluator) control state) :
    Roomy (iterate host' evaluator) control state := by
  intro last reached passes
  obtain ⟨passes', same⟩ := contained.passes roomy passes
  rw [same]
  exact roomy last reached passes'

theorem Contained.unlimited (contained : Contained known pairs control state)
    (unlimited : Unlimited (iterate host evaluator) control state) : Unlimited (iterate host' evaluator) control state := by
  intro last reached passes
  obtain ⟨passes', same⟩ := contained.passes unlimited.roomy passes
  rw [same]
  exact unlimited last reached passes'

theorem Contained.run (contained : Contained known pairs control state) (roomy : Roomy (iterate host evaluator) control state)
    (fuel : Nat) : Machine.run host' evaluator fuel control state = Machine.run host evaluator fuel control state := by
  induction fuel generalizing pairs control state with
  | zero => rfl
  | succ fuel ih =>
    rw [Machine.run, Machine.run, @iterate_hostless σ _ evaluator host' host _ _ _ contained.action contained.frames]
    cases stepped : iterate host evaluator control state with
    | error => rfl
    | ok progress after =>
      cases progress with
      | finished => rfl
      | continues next =>
        have fits := roomy _ _ .here
        rw [Fits, stepped] at fits
        obtain ⟨pairs', _, contained'⟩ := contained.step stepped fits
        exact ih contained' (roomy.onward stepped)

/-- A run goes on like its copy without the floor, until it hands the floor a result. -/
theorem iterations_floats (contained : Contained known pairs control upper)
    (housed : Housed host evaluator control upper count) (above : Over floor upper lower)
    (standing : iterations host evaluator control upper count = some (last, reached)) :
    (∃ early whnf middle middle', early ≤ count ∧
      iterations host evaluator control upper early = some (.deliver whnf, middle) ∧
      iterations host' evaluator control lower early = some (.deliver whnf, middle') ∧
      Over floor middle middle' ∧ middle'.stack.items = []) ∨
    ∃ reached', iterations host' evaluator control lower count = some (last, reached') ∧ Over floor reached reached' := by
  induction count generalizing last reached with
  | zero =>
    cases standing
    exact .inr ⟨lower, rfl, above⟩
  | succ count ih =>
    obtain ⟨middle, between, earlier, stepped⟩ := iterations_succ standing
    have housed' := housed.sooner (Nat.le_succ count)
    rcases ih housed' earlier with ⟨early, whnf, before, before', short, rest⟩ | ⟨between', earlier', above'⟩
    · exact .inl ⟨early, whnf, before, before', Nat.le_succ_of_le short, rest⟩
    · by_cases handing : (∃ whnf, middle = .deliver whnf) ∧ between'.stack.items = []
      · obtain ⟨⟨whnf, rfl⟩, empty⟩ := handing
        exact .inl ⟨count, whnf, between, between', Nat.le_succ count, earlier, earlier', above', empty⟩
      · obtain ⟨pairs', _, contained'⟩ := contained.iterations housed' earlier
        have occupied : ∀ whnf, middle = .deliver whnf → between'.stack.items ≠ [] :=
          fun whnf isDeliver empty => handing ⟨⟨whnf, isDeliver⟩, empty⟩
        obtain ⟨reached', stepped', above''⟩ := @iterate_floats _ _ _ _ _ host host' _ _ _ above' occupied
          contained'.action contained'.frames _ _ stepped
        refine .inr ⟨reached', ?_, above''⟩
        rw [iterations, earlier']
        simp only [stepped']

end LazyGraph.Machine

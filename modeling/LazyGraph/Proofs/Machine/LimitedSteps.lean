import LazyGraph.Proofs.Machine.StepEffects

/-! A transition with and without limits.

The budget for steps is checked when a step begins, and the depth of the stack when a frame
is pushed. Within a step, frames are only pushed after the top one was taken off. So a step
that is within the budget goes as it would without limits, unless that would end with too
deep a stack: then the stack limit stops it. -/

set_option autoImplicit false

namespace LazyGraph

-- No stack holds more frames than a word can count.
def Evaluator.unlimited (evaluator : Evaluator) : Evaluator :=
  { evaluator with settings := { evaluator.settings with maxSteps := none, maxWorkStack := 0xFFFFFFFFFFFFFFFF } }

def Evaluator.limited (evaluator : Evaluator) (steps depth : UInt64) : Evaluator :=
  { evaluator with settings := { evaluator.settings with maxSteps := some steps, maxWorkStack := depth } }

namespace Machine

variable {σ α β : Type} {host : Host σ} {evaluator : Evaluator} {steps depth : UInt64} {control next : Control}
  {state after : State σ} {fuel : Nat}

/-! ### Stopped by the stack limit -/

def Steady (before after : State σ) : Prop :=
  after.stack = before.stack ∧ after.steps = before.steps

instance : Std.Refl (Steady (σ := σ)) := ⟨fun _ => ⟨rfl, rfl⟩⟩

instance : Trans (Steady (σ := σ)) Steady Steady :=
  ⟨fun early late => ⟨late.1.trans early.1, late.2.trans early.2⟩⟩

/-- Where the free outcome keeps within the depth, it is the outcome; where it does not, the
stack limit has stopped the computation. -/
structure Cut (depth : UInt64) (free cut : EStateM.Result Fault (State σ) α) : Prop where
  within : free.state.stack.depth ≤ depth.toNat → cut = free
  beyond : depth.toNat < free.state.stack.depth → ∃ raised, cut = .error (.exhausted (.workStack depth)) raised ∧
    raised.stack.depth ≤ depth.toNat ∧ raised.steps = free.state.steps

/-- The free computation never takes a frame off, and the other one is cut at the depth. -/
structure Curbs (depth : UInt64) (free curbed : MachineM σ α) : Prop where
  climbs : ∀ state, state.stack.depth ≤ (free state).state.stack.depth
  counts : ∀ state, (free state).state.steps = state.steps
  cuts : ∀ {state}, state.stack.depth ≤ depth.toNat → Cut depth (free state) (curbed state)

theorem Cut.same (result : EStateM.Result Fault (State σ) α) (fits : result.state.stack.depth ≤ depth.toNat) :
    Cut depth result result where
  within _ := rfl
  beyond deeper := absurd fits (Nat.not_le.mpr deeper)

namespace Curbs

theorem steady {computation : MachineM σ α} (moves : Moves Steady computation) : Curbs depth computation computation where
  climbs state := Nat.le_of_eq (by rw [(moves state).1])
  counts state := (moves state).2
  cuts := by
    intro state fits
    exact .same _ (by rwa [(moves state).1])

theorem bind {first curbedFirst : MachineM σ β} {rest curbedRest : β → MachineM σ α}
    (early : Curbs depth first curbedFirst) (late : ∀ value, Curbs depth (rest value) (curbedRest value)) :
    Curbs depth (first >>= rest) (curbedFirst >>= curbedRest) where
  climbs state := by
    have climbs := early.climbs state
    cases ended : first state with
    | error fault middle =>
      rw [bind_error ended]
      rwa [ended] at climbs
    | ok value middle =>
      rw [bind_ok ended]
      rw [ended] at climbs
      exact Nat.le_trans climbs ((late value).climbs middle)
  counts state := by
    have counts := early.counts state
    cases ended : first state with
    | error fault middle =>
      rw [bind_error ended]
      rwa [ended] at counts
    | ok value middle =>
      rw [bind_ok ended]
      rw [ended] at counts
      exact ((late value).counts middle).trans counts
  cuts := by
    intro state fits
    have cut := early.cuts fits
    cases ended : first state with
    | error fault middle =>
      rw [ended] at cut
      rw [bind_error ended]
      refine ⟨fun within => ?_, fun deeper => ?_⟩
      · exact bind_error (cut.within within)
      · obtain ⟨raised, stopped, rest⟩ := cut.beyond deeper
        exact ⟨raised, bind_error stopped, rest⟩
    | ok value middle =>
      rw [ended] at cut
      rw [bind_ok ended]
      have climbs := (late value).climbs middle
      by_cases fits' : middle.stack.depth ≤ depth.toNat
      · rw [bind_ok (cut.within fits')]
        exact (late value).cuts fits'
      · have deeper : depth.toNat < middle.stack.depth := Nat.lt_of_not_le fits'
        obtain ⟨raised, stopped, fits'', counts⟩ := cut.beyond deeper
        refine ⟨fun within => absurd (Nat.le_trans climbs within) fits', fun _ => ?_⟩
        exact ⟨raised, bind_error stopped, fits'', counts.trans ((late value).counts middle).symm⟩

theorem pure (value : α) : Curbs depth (Pure.pure value : MachineM σ α) (Pure.pure value) :=
  .steady (Moves.pure value)

theorem throw (fault : Fault) : Curbs depth (MonadExcept.throw fault : MachineM σ α) (MonadExcept.throw fault) :=
  .steady (Moves.throw fault)

-- Who acts is the same with and without limits.
theorem ite {condition : Prop} [Decidable condition] {yes no curbedYes curbedNo : MachineM σ α}
    (early : Curbs depth yes curbedYes) (late : Curbs depth no curbedNo) :
    Curbs depth (if condition then yes else no) (if condition then curbedYes else curbedNo) := by
  split
  · exact early
  · exact late

end Curbs

theorem le_maxWorkStack (evaluator : Evaluator) (depth : UInt64) :
    depth.toNat ≤ evaluator.unlimited.settings.maxWorkStack.toNat := by
  have most : evaluator.unlimited.settings.maxWorkStack.toNat = 2 ^ 64 - 1 := by
    simp [Evaluator.unlimited]
  have below := depth.toNat_lt
  omega

theorem push_curbs (frame : Frame) :
    Curbs (σ := σ) depth (push evaluator.unlimited frame) (push (evaluator.limited steps depth) frame) := by
  have most : depth.toNat ≤ evaluator.unlimited.settings.maxWorkStack.toNat := le_maxWorkStack evaluator depth
  refine ⟨fun state => ?_, fun state => ?_, fun {state} fits => ?_⟩
  · unfold push
    split
    · exact Nat.le_refl _
    · exact Nat.le_succ _
  · unfold push
    split <;> rfl
  · by_cases full : evaluator.unlimited.settings.maxWorkStack.toNat ≤ state.stack.depth
    · have same : evaluator.unlimited.settings.maxWorkStack = depth :=
        UInt64.toNat.inj (Nat.le_antisymm (Nat.le_trans full fits) most)
      have full' : (evaluator.limited steps depth).settings.maxWorkStack.toNat ≤ state.stack.depth := same ▸ full
      rw [push_error full, push_error full', same]
      exact .same _ fits
    · rw [push_ok (Nat.lt_of_not_le full)]
      refine ⟨fun within => ?_, fun deeper => ?_⟩
      · exact push_ok (Nat.lt_of_succ_le within)
      · have full' : (evaluator.limited steps depth).settings.maxWorkStack.toNat ≤ state.stack.depth :=
          Nat.le_of_lt_succ deeper
        exact ⟨state, push_error full', fits, rfl⟩

/-! ### The parts of a transition -/

theorem onWorld_steady (operation : EStateM Fault (World σ) α) : Moves Steady (onWorld operation) := by
  intro state
  unfold onWorld
  cases operation state.world <;> exact ⟨rfl, rfl⟩

theorem onHeap_steady (operation : HeapM α) : Moves (Steady (σ := σ)) (onHeap operation) :=
  onWorld_steady _

theorem settle_steady (outcome : Except Fault α) : Moves (Steady (σ := σ)) (settle outcome) := by
  cases outcome with
  | ok value => exact Moves.pure value
  | error fault => exact Moves.throw fault

theorem suspendAll_steady (env : Env) (exprs : List Expr) : Moves (Steady (σ := σ)) (suspendAll env exprs) := by
  refine Moves.mapM exprs fun expr _ => (settle_steady _).bind fun suspension => ?_
  cases suspension with
  | existing handle => exact Moves.pure handle
  | new node => exact onHeap_steady _

theorem bindAll_steady (env : Env) (bindings : List Expr) : Moves (Steady (σ := σ)) (bindAll env bindings) :=
  (onHeap_steady _).bind fun _ => (settle_steady _).bind fun _ => Moves.pure _

theorem redirectAll_steady (links : List Handle) (target : Handle) : Moves (Steady (σ := σ)) (redirectAll links target) :=
  Moves.forM links fun _ _ => (onHeap_steady _).bind fun _ => Moves.pure _

theorem answer_steady (result : Node) : Moves (Steady (σ := σ)) (answer result) := by
  unfold answer
  split
  · exact Moves.pure _
  · exact (onHeap_steady _).bind fun _ => Moves.pure _

theorem callStrict_steady (host : Host σ) (callee : Callee) (operands : List Node) :
    Moves Steady (callStrict host callee operands) := by
  cases callee with
  | primitive op =>
    rw [callStrict_primitive]
    exact (settle_steady _).bind answer_steady
  | host fn =>
    rw [callStrict_host]
    exact (onWorld_steady _).bind answer_steady

theorem nextOperand_curbs (host : Host σ) (callee : Callee) (operands : Operands) :
    Curbs depth (nextOperand host evaluator.unlimited callee operands)
      (nextOperand host (evaluator.limited steps depth) callee operands) := by
  unfold nextOperand
  split
  · exact (push_curbs _).bind fun _ => .pure _
  · exact .steady (callStrict_steady host callee operands.done)

theorem eval_curbs (host : Host σ) (expr : Expr) (env : Env) :
    Curbs depth (eval host evaluator.unlimited expr env) (eval host (evaluator.limited steps depth) expr env) := by
  unfold eval
  cases expr.form with
  | var slot => exact (Curbs.steady (settle_steady _)).bind fun _ => .pure _
  | global node => exact .pure _
  | char value | int value | double value | text value => exact .pure _
  | data ordinal name args => exact (Curbs.steady (suspendAll_steady env args)).bind fun _ => .pure _
  | lambda code captures => exact (Curbs.steady (settle_steady _)).bind fun _ => .pure _
  | apply fn args =>
    simp only
    split
    · exact .pure _
    · exact (Curbs.steady (suspendAll_steady env args)).bind fun _ => (push_curbs _).bind fun _ => .pure _
  | primitive op args | host fn args =>
    simp only
    split
    · exact nextOperand_curbs host _ _
    · exact .throw _
  | choose scrutinee alternatives otherwise => exact (push_curbs _).bind fun _ => .pure _
  | letrec bindings body => exact (Curbs.steady (bindAll_steady env bindings)).bind fun _ => .pure _
  | seq first second => exact (push_curbs _).bind fun _ => .pure _
  | raise message => exact .throw _

theorem enter_curbs (links : List Handle) (handle : Handle) (expr : Expr) (env : Env) :
    Curbs (σ := σ) depth (enter evaluator.unlimited links handle expr env)
      (enter (evaluator.limited steps depth) links handle expr env) := by
  unfold enter
  split
  · exact (push_curbs _).bind fun _ => .pure _
  · exact (push_curbs _).bind fun _ => (push_curbs _).bind fun _ => .pure _

theorem record_steady (event : Event) : Moves (Steady (σ := σ)) (record event) :=
  fun _ => ⟨rfl, rfl⟩

theorem startWait_steady (evaluator : Evaluator) (links : List Handle) (node : Handle) :
    Moves (Steady (σ := σ)) (startWait evaluator links node) :=
  (onHeap_steady _).bind fun _ => (record_steady _).bind fun _ => Moves.pure _

theorem demandFrom_curbs (passed : List Handle) (start : Handle) :
    Curbs (σ := σ) depth (demandFrom evaluator.unlimited passed start)
      (demandFrom (evaluator.limited steps depth) passed start) := by
  have reads : Moves (Steady (σ := σ)) getHeap := fun _ => ⟨rfl, rfl⟩
  refine (Curbs.steady reads).bind fun heap => ?_
  simp only
  split
  · exact .throw _
  · exact .throw _
  · split
    · refine (Curbs.steady (onHeap_steady _)).bind fun claimed => ?_
      split
      · exact enter_curbs _ _ _ _
      · split
        · exact .ite (.throw _) (.steady (startWait_steady evaluator _ _))
        · exact .pure _
    · exact (Curbs.steady (redirectAll_steady _ _)).bind fun _ => .pure _

theorem modifyWorld_steady (change : World σ → World σ) : Moves Steady (modifyWorld change) :=
  fun _ => ⟨rfl, rfl⟩

theorem resumeWait_curbs (links : List Handle) (node : Handle) :
    Curbs (σ := σ) depth (resumeWait evaluator.unlimited links node)
      (resumeWait (evaluator.limited steps depth) links node) := by
  have checks : Moves (Steady (σ := σ)) (checkInterruption evaluator) := by
    intro state
    rw [checkInterruption_state]
    exact ⟨rfl, rfl⟩
  have reads : Moves (Steady (σ := σ)) getHeap := fun _ => ⟨rfl, rfl⟩
  refine (Curbs.steady checks).bind fun _ => (Curbs.steady reads).bind fun heap => ?_
  refine (Curbs.steady (settle_steady _)).bind fun slotState => ?_
  exact .ite ((Curbs.steady (modifyWorld_steady _)).bind fun _ => .pure _)
    ((Curbs.steady (modifyWorld_steady _)).bind fun _ => demandFrom_curbs links node)

theorem apply_curbs (callee : Node) (args : List Handle) :
    Curbs (σ := σ) depth (apply evaluator.unlimited callee args) (apply (evaluator.limited steps depth) callee args) := by
  unfold apply
  split
  · simp only
    split
    · exact .pure _
    · split
      · exact .pure _
      · exact (push_curbs _).bind fun _ => .pure _
  · exact .throw _

theorem update_steady (evaluator : Evaluator) (node : Handle) (whnf : Whnf) :
    Moves (Steady (σ := σ)) (update evaluator node whnf) := by
  unfold update
  refine (onHeap_steady _).bind fun done => ?_
  split
  · exact (record_steady _).bind fun _ => Moves.pure _
  · exact Moves.throw _

theorem resume_curbs (host : Host σ) (frame : Frame) (whnf : Whnf) :
    Curbs depth (resume host evaluator.unlimited frame whnf) (resume host (evaluator.limited steps depth) frame whnf) := by
  unfold resume
  cases frame with
  | update node => exact .steady (update_steady evaluator node whnf)
  | redirect links =>
    simp only
    split
    · exact (Curbs.steady (redirectAll_steady links _)).bind fun _ => .pure _
    · exact .pure _
  | apply args => exact apply_curbs whnf.node args
  | call callee operands => exact nextOperand_curbs host callee _
  | choose alternatives otherwise env => exact .steady (settle_steady _)
  | seq next env => exact .pure _

/-! ### One transition -/

theorem continuing_curbs {free curbed : MachineM σ Control} (curbs : Curbs depth free curbed) :
    Curbs depth (continuing free) (continuing curbed) :=
  curbs.bind fun _ => .pure _

-- The last transition of a call.
def conclude (whnf : Whnf) : MachineM σ Progress :=
  match whnf.handle? with
  | some handle => return .finished handle
  | none => return .finished (← onHeap (Heap.alloc whnf.node))

theorem conclude_steady (whnf : Whnf) : Moves (Steady (σ := σ)) (conclude whnf) := by
  unfold conclude
  split
  · exact Moves.pure _
  · exact (onHeap_steady _).bind fun _ => Moves.pure _

theorem finish_concludes (host : Host σ) (evaluator : Evaluator) (whnf : Whnf) (empty : state.stack.pop? = none) :
    finish host evaluator whnf state = conclude whnf state := by
  unfold finish
  rw [bind_ok (rfl : (get : MachineM σ (State σ)) state = .ok state state), empty]
  rfl

theorem finish_cuts (whnf : Whnf) (fits : state.stack.depth ≤ depth.toNat) :
    Cut depth (finish host evaluator.unlimited whnf state) (finish host (evaluator.limited steps depth) whnf state) := by
  cases popped : state.stack.pop? with
  | some top =>
    obtain ⟨frame, rest⟩ := top
    rw [finish_pops host _ whnf popped, finish_pops host _ whnf popped]
    have shorter : rest.depth ≤ depth.toNat := by
      have items := congrArg List.length (Stack.pop?_eq_some popped)
      rw [← state.stack.depth_eq, List.length_cons, ← rest.depth_eq] at items
      omega
    exact (continuing_curbs (resume_curbs host frame whnf)).cuts shorter
  | none =>
    rw [finish_concludes host _ whnf popped, finish_concludes host _ whnf popped]
    exact (Curbs.steady (conclude_steady whnf)).cuts fits

theorem iterate_refused (active : ∀ links node, control ≠ .await links node) (spent : steps.toNat ≤ state.steps) :
    iterate host (evaluator.limited steps depth) control state = .error (.exhausted (.steps steps)) (begun state) := by
  have refused : tick (evaluator.limited steps depth) state = .error (.exhausted (.steps steps)) (begun state) := by
    rw [tick_eq]
    exact if_pos (Nat.lt_succ_of_le spent)
  cases control with
  | await links node => exact absurd rfl (active links node)
  | eval expr env => exact bind_error refused
  | force handle => exact bind_error refused
  | deliver whnf => exact bind_error refused

theorem step_cuts (control : Control) {free curbed : MachineM σ Progress} (granted : state.steps < steps.toNat)
    (fits : state.stack.depth ≤ depth.toNat)
    (rest : ∀ {ready : State σ}, ready.stack.depth ≤ depth.toNat → Cut depth (free ready) (curbed ready)) :
    Cut depth ((do tick evaluator.unlimited; trace evaluator.unlimited control; free) state)
      ((do tick (evaluator.limited steps depth); trace (evaluator.limited steps depth) control; curbed) state) := by
  have ticks : tick (evaluator.limited steps depth) state = tick evaluator.unlimited state := by
    rw [tick_eq, tick_eq]
    exact if_neg (Nat.not_lt.mpr granted)
  have reached := tick_state evaluator.unlimited state
  cases ticked : tick evaluator.unlimited state with
  | error fault refused =>
    rw [ticked] at reached
    cases reached
    rw [bind_error ticked, bind_error (ticks.trans ticked)]
    exact .same _ fits
  | ok _ began =>
    rw [ticked] at reached
    cases reached
    obtain ⟨events, traced⟩ := trace_ok evaluator.unlimited control (begun state)
    have traced' : trace (evaluator.limited steps depth) control (begun state) = .ok () _ := traced
    rw [(bind_ok ticked).trans (bind_ok traced), (bind_ok (ticks.trans ticked)).trans (bind_ok traced')]
    exact rest fits

/-- A transition within the budget goes as without limits, or the stack limit cuts it. -/
theorem iterate_cuts (granted : (∀ links node, control ≠ .await links node) → state.steps < steps.toNat)
    (fits : state.stack.depth ≤ depth.toNat) :
    Cut depth (iterate host evaluator.unlimited control state) (iterate host (evaluator.limited steps depth) control state) := by
  cases control with
  | await links node => exact (continuing_curbs (resumeWait_curbs links node)).cuts fits
  | eval expr env =>
    exact step_cuts (.eval expr env) (granted fun _ _ waits => by cases waits) fits (continuing_curbs (eval_curbs host expr env)).cuts
  | force handle =>
    exact step_cuts (.force handle) (granted fun _ _ waits => by cases waits) fits (continuing_curbs (demandFrom_curbs [] handle)).cuts
  | deliver whnf => exact step_cuts (.deliver whnf) (granted fun _ _ waits => by cases waits) fits (finish_cuts whnf)

/-! ### Counting steps -/

theorem finish_counts (host : Host σ) (evaluator : Evaluator) (whnf : Whnf) (state : State σ) :
    (finish host evaluator.unlimited whnf state).state.steps = state.steps := by
  cases popped : state.stack.pop? with
  | some top =>
    rw [finish_pops host _ whnf popped]
    exact (continuing_curbs (@resume_curbs _ evaluator 0 0 host top.1 whnf)).counts _
  | none =>
    rw [finish_concludes host _ whnf popped]
    exact (conclude_steady whnf state).2

theorem step_counts {evaluator : Evaluator} (control : Control) {rest : MachineM σ Progress}
    (counts : ∀ ready, (rest ready).state.steps = ready.steps) :
    ((do tick evaluator; trace evaluator control; rest) state).state.steps = state.steps + 1 := by
  have reached := tick_state evaluator state
  cases ticked : tick evaluator state with
  | error fault refused =>
    rw [ticked] at reached
    cases reached
    rw [bind_error ticked]
    rfl
  | ok _ began =>
    rw [ticked] at reached
    cases reached
    obtain ⟨events, traced⟩ := trace_ok evaluator control (begun state)
    rw [(bind_ok ticked).trans (bind_ok traced)]
    exact counts _

theorem iterate_counts (host : Host σ) (evaluator : Evaluator) (state : State σ)
    (active : ∀ links node, control ≠ .await links node) :
    (iterate host evaluator.unlimited control state).state.steps = state.steps + 1 := by
  cases control with
  | await links node => exact absurd rfl (active links node)
  | eval expr env =>
    exact step_counts (.eval expr env) (continuing_curbs (@eval_curbs _ evaluator 0 0 host expr env)).counts
  | force handle =>
    exact step_counts (.force handle) (continuing_curbs (@demandFrom_curbs _ evaluator 0 0 [] handle)).counts
  | deliver whnf => exact step_counts (.deliver whnf) (finish_counts host evaluator whnf)

theorem await_counts (host : Host σ) (evaluator : Evaluator) (links : List Handle) (node : Handle) (state : State σ) :
    (iterate host evaluator.unlimited (.await links node) state).state.steps = state.steps :=
  (continuing_curbs (@resumeWait_curbs _ evaluator 0 0 links node)).counts state

theorem iterate_fits (host : Host σ) (evaluator : Evaluator) (steps : UInt64) (control : Control)
    (fits : state.stack.depth ≤ depth.toNat) :
    (iterate host (evaluator.limited steps depth) control state).state.stack.depth ≤ depth.toNat := by
  by_cases spent : (∀ links node, control ≠ .await links node) ∧ steps.toNat ≤ state.steps
  · rw [iterate_refused spent.1 spent.2]
    exact fits
  · have cut : Cut depth (iterate host evaluator.unlimited control state)
        (iterate host (evaluator.limited steps depth) control state) :=
      iterate_cuts (fun active => Nat.lt_of_not_le fun least => spent ⟨active, least⟩) fits
    by_cases within : (iterate host evaluator.unlimited control state).state.stack.depth ≤ depth.toNat
    · rwa [cut.within within]
    · obtain ⟨raised, stopped, fits', _⟩ := cut.beyond (Nat.lt_of_not_le within)
      rwa [stopped]

end Machine

end LazyGraph

import LazyGraph.Proofs.Recursion.Runs

/-! The loop of an evaluator computes what the recursion does.

Above the frames it starts over, a run leads to a result or to a fault, and this is the
answer of the recursion at some depth. From run to recursion each transition is undone
in turn; from recursion to run the depth bounds the calls that are still to be made, and
at one depth the frames that are still to be popped. -/

set_option autoImplicit false

namespace LazyGraph.Machine

open Recursion (ofControl ofFrame through)

variable {σ : Type} {host : Host σ} {evaluator : Evaluator} {meaning : HostFn → List Node → Except Fault Node}
  {floor pushed : List Frame} {control next last : Control} {state after reached : State σ}

/-! ### From the run to the recursion -/

-- The action and the pushed frames come to the outcome, at some depth.
def Answers (evaluator : Evaluator) (meaning : HostFn → List Node → Except Fault Node) (floor : List Frame)
    (control : Control) (state : State σ) (outcome : EStateM.Result Fault Heap Whnf) : Prop :=
  ∃ pushed depth, state.stack.items = pushed ++ floor ∧
    through evaluator.actor meaning depth pushed (ofControl evaluator.actor meaning depth control)
      state.world.heap = some outcome

/-- An answer to what a transition unfolds is an answer to what it started from, one call
deeper. -/
theorem iterate_unfolds (means : host.Means meaning) (startable : Startable host evaluator floor control state)
    (above : Above floor control state) (active : control.waits = false) :
    ∃ quiet aim base, Unfolds evaluator meaning quiet aim (base ++ floor) state.world.heap
        (iterate host evaluator control state) ∧
      ∀ depth outcome, through evaluator.actor meaning depth base (aim depth) state.world.heap = some outcome →
        Answers evaluator meaning floor control state outcome := by
  have free := startable.free _ _ .here above
  obtain ⟨pushed, stack, idle⟩ := above
  cases control with
  | eval expr env =>
    refine ⟨_, _, pushed, stack ▸ iterate_eval_unfolds means free, fun depth outcome answered => ?_⟩
    exact ⟨pushed, depth + 1, stack, Recursion.through_below pushed (.refl _) _ _ answered⟩
  | force handle =>
    refine ⟨_, _, pushed, stack ▸ iterate_force_unfolds startable.sole free, fun depth outcome answered => ?_⟩
    exact ⟨pushed, depth + 1, stack, Recursion.through_below pushed (.refl _) _ _ answered⟩
  | deliver whnf =>
    cases pushed with
    | nil => exact absurd rfl (idle rfl whnf)
    | cons frame rest =>
      refine ⟨_, _, rest, iterate_deliver_unfolds means stack free, fun depth outcome answered => ?_⟩
      refine ⟨frame :: rest, depth + 1, stack, Recursion.through_below rest ?_ _ _ answered⟩
      cases frame with
      | apply args => exact .refl _
      | _ => exact Recursion.ofFrame_below depth _ whnf
  | await links node => cases active

theorem iterate_answers (means : host.Means meaning) (startable : Startable host evaluator floor control state)
    (above : Above floor control state) (stuck : OnlyStuck control state.world.heap)
    (stepped : iterate host evaluator control state = .ok (.continues next) after) :
    OnlyStuck next after.world.heap ∧ ∀ outcome, Answers evaluator meaning floor next after outcome →
      Answers evaluator meaning floor control state outcome := by
  cases active : control.waits with
  | true =>
    cases control with
    | await links node =>
      obtain ⟨again, waited, still⟩ := iterate_stuck (stuck links node rfl) (startable.free _ _ .here above)
      rw [stepped] at waited
      cases waited
      refine ⟨fun _ _ same => (Control.await.inj same).2 ▸ still, ?_⟩
      rintro outcome ⟨pushed, depth, _, answered⟩
      rw [Recursion.through_none pushed rfl] at answered
      cases answered
    | _ => cases active
  | false =>
    obtain ⟨quiet, aim, base, unfolds, deeper⟩ := iterate_unfolds means startable above active
    rw [stepped] at unfolds
    cases unfolds with
    | goes pushed items level same stuck' =>
      refine ⟨stuck', ?_⟩
      rintro outcome ⟨pushed', depth, items', answered⟩
      rw [items, ← List.append_assoc] at items'
      obtain rfl := List.append_cancel_right items'
      rw [Recursion.through_append, ← Recursion.through_congr base (same depth)] at answered
      exact deeper depth outcome answered

theorem iterate_error_answers (means : host.Means meaning) (startable : Startable host evaluator floor control state)
    (above : Above floor control state) (stuck : OnlyStuck control state.world.heap) {fault : Fault}
    (ended : iterate host evaluator control state = .error fault after) :
    Answers evaluator meaning floor control state (.error fault after.world.heap) := by
  cases active : control.waits with
  | true =>
    cases control with
    | await links node =>
      obtain ⟨again, waited, _⟩ := iterate_stuck (stuck links node rfl) (startable.free _ _ .here above)
      rw [ended] at waited
      cases waited
    | _ => cases active
  | false =>
    obtain ⟨quiet, aim, base, unfolds, deeper⟩ := iterate_unfolds means startable above active
    rw [ended] at unfolds
    cases unfolds with
    | fails same => exact deeper 0 _ (Recursion.through_error base (same 0))

theorem Reaches.answers (means : host.Means meaning)
    (reaches : Reaches host evaluator floor control state last reached)
    (startable : Startable host evaluator floor control state) (stuck : OnlyStuck control state.world.heap) :
    OnlyStuck last reached.world.heap ∧ ∀ outcome, Answers evaluator meaning floor last reached outcome →
      Answers evaluator meaning floor control state outcome := by
  induction reaches with
  | here => exact ⟨stuck, fun _ answers => answers⟩
  | step above stepped _ ih =>
    obtain ⟨stuck', back⟩ := iterate_answers means startable above stuck stepped
    obtain ⟨stuck'', back'⟩ := ih (startable.later means (.step above stepped .here)) stuck'
    exact ⟨stuck'', fun outcome answers => back outcome (back' outcome answers)⟩

theorem Leads.answers (means : host.Means meaning) {outcome : EStateM.Result Fault Heap Whnf}
    (leads : Leads host evaluator floor control state outcome)
    (startable : Startable host evaluator floor control state) (stuck : OnlyStuck control state.world.heap) :
    Answers evaluator meaning floor control state outcome := by
  cases leads with
  | returned reaches stack =>
    obtain ⟨_, back⟩ := reaches.answers means startable stuck
    exact back _ ⟨[], 0, stack, rfl⟩
  | raised reaches above ended =>
    obtain ⟨stuck', back⟩ := reaches.answers means startable stuck
    exact back _ (iterate_error_answers means (startable.later means reaches) above stuck' ended)

/-! ### From the recursion to the run -/

/-- What is known of the frames above the floor carries over to work above those frames. -/
theorem Leads.handed (means : host.Means meaning) {depth : Nat} {computation : Reduction Whnf}
    {answer outcome : EStateM.Result Fault Heap Whnf} (startable : Startable host evaluator floor control state)
    (first : Leads host evaluator (pushed ++ floor) control state answer)
    (computed : computation state.world.heap = some answer)
    (whole : through evaluator.actor meaning depth pushed computation state.world.heap = some outcome)
    (rest : ∀ whnf reached, reached.stack.items = pushed ++ floor →
      Startable host evaluator floor (.deliver whnf) reached →
      through evaluator.actor meaning depth pushed (pure whnf) reached.world.heap = some outcome →
      Leads host evaluator floor (.deliver whnf) reached outcome) :
    Leads host evaluator floor control state outcome := by
  cases first with
  | raised reaches above ended =>
    rw [Recursion.through_error pushed computed] at whole
    cases whole
    exact .raised reaches.lower above.lower ended
  | @returned whnf reached reaches stack =>
    have answered : computation state.world.heap = (pure whnf : Reduction Whnf) reached.world.heap := computed
    rw [Recursion.through_congr pushed answered] at whole
    exact .of_reaches reaches.lower (rest whnf reached stack (startable.later means reaches.lower) whole)

/-- Whatever the recursion answers at this depth, the run leads to. -/
def Attains (host : Host σ) (evaluator : Evaluator) (meaning : HostFn → List Node → Except Fault Node)
    (depth : Nat) : Prop :=
  ∀ {floor pushed control} {state : State σ} {outcome}, state.stack.items = pushed ++ floor →
    Startable host evaluator floor control state →
    through evaluator.actor meaning depth pushed (ofControl evaluator.actor meaning depth control)
      state.world.heap = some outcome →
    Leads host evaluator floor control state outcome

theorem Unfolds.leads {quiet : Bool} {aim : Nat → Reduction Whnf} {depth : Nat}
    {outcome : EStateM.Result Fault Heap Whnf} (means : host.Means meaning)
    (startable : Startable host evaluator floor control state) (above : Above floor control state)
    (unfolds : Unfolds evaluator meaning quiet aim floor state.world.heap (iterate host evaluator control state))
    (answered : aim depth state.world.heap = some outcome)
    (rest : ∀ {pushed next} {after : State σ}, (quiet = true → pushed = []) →
      after.stack.items = pushed ++ floor → Startable host evaluator floor next after →
      through evaluator.actor meaning depth pushed (ofControl evaluator.actor meaning depth next)
        after.world.heap = some outcome →
      Leads host evaluator floor next after outcome) :
    Leads host evaluator floor control state outcome := by
  generalize stepped : iterate host evaluator control state = result at unfolds
  cases unfolds with
  | goes pushed stack level same stuck =>
    have reaches : Reaches host evaluator floor control state _ _ := .step above stepped .here
    rw [same] at answered
    exact .of_reaches reaches (rest level stack (startable.later means reaches) answered)
  | fails same =>
    rw [same] at answered
    cases answered
    exact .raised .here above stepped

theorem control_leads (means : host.Means meaning) {depth : Nat}
    (shallower : ∀ less, depth = less + 1 → Attains host evaluator meaning less)
    (startable : Startable host evaluator floor control state) (stack : state.stack.items = floor)
    {outcome : EStateM.Result Fault Heap Whnf}
    (answered : ofControl evaluator.actor meaning depth control state.world.heap = some outcome) :
    Leads host evaluator floor control state outcome := by
  have above : (∀ whnf, control ≠ .deliver whnf) → Above floor control state :=
    fun idle => ⟨[], stack, fun _ => idle⟩
  cases control with
  | deliver whnf =>
    cases answered
    exact .returned .here stack
  | await links node => cases answered
  | eval expr env =>
    cases depth with
    | zero => cases answered
    | succ depth =>
      have above := above fun whnf => nofun
      have unfolds := iterate_eval_unfolds means (startable.free _ _ .here above)
      rw [stack] at unfolds
      exact unfolds.leads means startable above answered fun _ => shallower depth rfl
  | force root =>
    cases depth with
    | zero => cases answered
    | succ depth =>
      have above := above fun whnf => nofun
      have unfolds : Unfolds evaluator meaning false _ state.stack.items _ _ :=
        iterate_force_unfolds startable.sole (startable.free _ _ .here above)
      rw [stack] at unfolds
      exact unfolds.leads means startable above answered fun _ => shallower depth rfl

theorem iterate_call_cons {whnf : Whnf} {callee : Callee} {done : List Node} {expr : Expr} {pending : List Expr}
    {env : Env} {rest : List Frame}
    (stack : state.stack.items = .call callee ⟨done, expr :: pending, env⟩ :: rest)
    (free : ¬ Hindered host evaluator (.deliver whnf) state) :
    ∃ after, iterate host evaluator (.deliver whnf) state = .ok (.continues (.eval expr env)) after ∧
      after.stack.items = .call callee ⟨done ++ [whnf.node], pending, env⟩ :: rest ∧
      after.world.heap = state.world.heap := by
  obtain ⟨ready, same, heap, going⟩ :=
    step_granted (.deliver whnf) (finish host evaluator whnf) (granted free rfl)
  obtain ⟨below, popped, items⟩ := Stack.pop?_of_items (same.symm ▸ stack)
  rw [finish_pops host evaluator whnf popped] at going
  by_cases room : below.depth < evaluator.settings.maxWorkStack.toNat
  · refine ⟨_, going.trans (continuing_ok (bind_ok (push_ok room))), ?_, heap⟩
    simp only [Stack.items_push, items]
  · have full := going.trans (continuing_error (bind_error (push_error (Nat.le_of_not_lt room))))
    have uncalled : callsHost (.deliver whnf) state.stack.items = false := by
      rw [stack]
      exact callsHost_of_loud rfl whnf rest
    exact absurd (.crowded uncalled full) free

theorem call_leads (means : host.Means meaning) {depth : Nat}
    (shallower : ∀ less, depth = less + 1 → Attains host evaluator meaning less)
    {whnf : Whnf} {callee : Callee} {done : List Node} {pending : List Expr} {env : Env}
    (startable : Startable host evaluator floor (.deliver whnf) state)
    (stack : state.stack.items = .call callee ⟨done, pending, env⟩ :: floor)
    {outcome : EStateM.Result Fault Heap Whnf}
    (answered : ofFrame evaluator.actor meaning depth (.call callee ⟨done, pending, env⟩) whnf
      state.world.heap = some outcome) :
    Leads host evaluator floor (.deliver whnf) state outcome := by
  -- The operands still to come are evaluated one by one.
  induction pending generalizing whnf done state with
  | nil =>
    have above : Above floor (.deliver whnf) state := ⟨[_], stack, nofun⟩
    have unfolds := iterate_deliver_unfolds means stack (startable.free _ _ .here above)
    refine unfolds.leads means startable above answered fun level items startable answered => ?_
    rw [level rfl] at items answered
    exact control_leads means shallower startable items answered
  | cons expr pending ih =>
    have above : Above floor (.deliver whnf) state := ⟨[_], stack, nofun⟩
    obtain ⟨after, stepped, items, heap⟩ := iterate_call_cons stack (startable.free _ _ .here above)
    have reaches : Reaches host evaluator floor (.deliver whnf) state (.eval expr env) after :=
      .step above stepped .here
    have started := startable.later means reaches
    let waiting : Frame := .call callee ⟨done ++ [whnf.node], pending, env⟩
    have whole : through evaluator.actor meaning depth [waiting]
        (Recursion.eval evaluator.actor meaning depth expr env) after.world.heap = some outcome := by
      rw [Recursion.ofFrame_call_cons] at answered
      rw [heap]
      exact answered
    obtain ⟨answer, computed⟩ := Recursion.through_some [waiting] whole
    have first : Leads host evaluator ([waiting] ++ floor) (.eval expr env) after answer :=
      control_leads means shallower started.raise items computed
    refine .of_reaches reaches (first.handed means started computed whole ?_)
    intro whnf' reached stack' startable' whole'
    exact ih startable' stack' whole'

theorem frame_leads (means : host.Means meaning) {depth : Nat}
    (shallower : ∀ less, depth = less + 1 → Attains host evaluator meaning less) {whnf : Whnf} {frame : Frame}
    (startable : Startable host evaluator floor (.deliver whnf) state)
    (stack : state.stack.items = frame :: floor) {outcome : EStateM.Result Fault Heap Whnf}
    (answered : ofFrame evaluator.actor meaning depth frame whnf state.world.heap = some outcome) :
    Leads host evaluator floor (.deliver whnf) state outcome := by
  have above : Above floor (.deliver whnf) state := ⟨[frame], stack, nofun⟩
  have unfolds := iterate_deliver_unfolds means stack (startable.free _ _ .here above)
  cases frame with
  | call callee operands => exact call_leads means shallower startable stack answered
  | apply args =>
    cases depth with
    | zero => cases answered
    | succ depth => exact unfolds.leads means startable above answered fun _ => shallower depth rfl
  | _ =>
    refine unfolds.leads means startable above answered fun level items startable answered => ?_
    rw [level rfl] at items answered
    exact control_leads means shallower startable items answered

theorem frames_lead (means : host.Means meaning) {depth : Nat}
    (shallower : ∀ less, depth = less + 1 → Attains host evaluator meaning less) {whnf : Whnf}
    (startable : Startable host evaluator floor (.deliver whnf) state)
    (stack : state.stack.items = pushed ++ floor) {outcome : EStateM.Result Fault Heap Whnf}
    (answered : through evaluator.actor meaning depth pushed (pure whnf) state.world.heap = some outcome) :
    Leads host evaluator floor (.deliver whnf) state outcome := by
  induction pushed generalizing whnf state with
  | nil =>
    cases answered
    exact .returned .here stack
  | cons frame pushed ih =>
    obtain ⟨answer, computed⟩ := Recursion.through_some pushed answered
    have first : Leads host evaluator (pushed ++ floor) (.deliver whnf) state answer :=
      frame_leads means shallower startable.raise stack computed
    refine first.handed means startable computed answered ?_
    intro whnf' reached stack' startable' answered'
    exact ih startable' stack' answered'

theorem attains_of_shallower (means : host.Means meaning) {depth : Nat}
    (shallower : ∀ less, depth = less + 1 → Attains host evaluator meaning less) :
    Attains host evaluator meaning depth := by
  intro floor pushed control state outcome stack startable answered
  obtain ⟨answer, computed⟩ := Recursion.through_some pushed answered
  have first : Leads host evaluator (pushed ++ floor) control state answer :=
    control_leads means shallower startable.raise stack computed
  refine first.handed means startable computed answered ?_
  intro whnf reached stack' startable' answered'
  exact frames_lead means shallower startable' stack' answered'

theorem attains (means : host.Means meaning) (depth : Nat) : Attains host evaluator meaning depth := by
  induction depth with
  | zero => exact attains_of_shallower means fun less same => absurd same (Nat.zero_ne_add_one less)
  | succ depth ih => exact attains_of_shallower means fun less same => Nat.succ.inj same ▸ ih

theorem leads_iff (means : host.Means meaning) (startable : Startable host evaluator state.stack.items control state)
    (active : control.waits = false) (outcome : EStateM.Result Fault Heap Whnf) :
    Leads host evaluator state.stack.items control state outcome ↔
      ∃ depth, ofControl evaluator.actor meaning depth control state.world.heap = some outcome := by
  constructor
  · intro leads
    obtain ⟨pushed, depth, stack, answered⟩ := leads.answers means startable (onlyStuck_of_active active _)
    obtain rfl : pushed = [] := List.self_eq_append_left.mp stack
    exact ⟨depth, answered⟩
  · rintro ⟨depth, answered⟩
    have none : state.stack.items = [] ++ state.stack.items := rfl
    exact attains means depth none startable answered

/-! ### Whole calls -/

theorem iterate_stored {result : Handle} {node : Node} (empty : state.stack.items = [])
    (free : ¬ Hindered host evaluator (.deliver (.stored result node)) state) :
    ∃ after, iterate host evaluator (.deliver (.stored result node)) state = .ok (.finished result) after ∧
      after.world.heap = state.world.heap := by
  obtain ⟨ready, same, heap, going⟩ :=
    step_granted (.deliver (.stored result node)) (finish host evaluator (.stored result node)) (granted free rfl)
  have none := Stack.pop?_eq_none.mpr empty
  have finished : finish host evaluator (.stored result node) ready = .ok (.finished result) ready := by
    unfold finish
    rw [bind_ok (rfl : (get : MachineM σ (State σ)) ready = .ok ready ready), same, none]
    rfl
  exact ⟨ready, going.trans finished, heap⟩

section

variable {root result : Handle} (means : host.Means meaning) (idle : state.stack.items = [])
  (sole : state.world.heap.Sole evaluator.actor)
  (free : Unhindered host evaluator (.force root) (begin evaluator state))

include means idle sole free

theorem force_leads_iff (outcome : EStateM.Result Fault Heap Whnf) :
    Leads host evaluator [] (.force root) (begin evaluator state) outcome ↔
      ∃ depth, ofControl evaluator.actor meaning depth (.force root) state.world.heap = some outcome := by
  have startable : Startable host evaluator (begin evaluator state).stack.items (.force root)
      (begin evaluator state) := ⟨sole, free.above⟩
  have empty : (begin evaluator state).stack.items = [] := idle
  exact empty ▸ leads_iff means startable rfl outcome

theorem delivered_stored {whnf : Whnf} {count : Nat}
    (standing : iterations host evaluator (.force root) (begin evaluator state) count =
      some (.deliver whnf, reached)) (empty : reached.stack.items = []) :
    ∃ depth node result, whnf = .stored result node ∧
      Recursion.force evaluator.actor meaning depth root state.world.heap =
        some (.ok (result, node) reached.world.heap) ∧
      ∃ after, iterate host evaluator (.deliver whnf) reached = .ok (.finished result) after ∧
        after.world.heap = reached.world.heap := by
  have leads : Leads host evaluator [] (.force root) (begin evaluator state) (.ok whnf reached.world.heap) :=
    .returned (reaches_of_iterations means standing) empty
  obtain ⟨depth, answered⟩ := (force_leads_iff means idle sole free _).mp leads
  obtain ⟨result, node, rfl, forced⟩ := Recursion.ofControl_force_ok answered
  exact ⟨depth, node, result, rfl, forced, iterate_stored empty (free count _ _ standing)⟩

theorem force_ok_iff (heap : Heap) :
    (∃ fuel after, force host evaluator fuel root state = some (.ok result, after) ∧ after.world.heap = heap) ↔
      ∃ depth node, Recursion.force evaluator.actor meaning depth root state.world.heap =
        some (.ok (result, node) heap) := by
  constructor
  · rintro ⟨fuel, after, returned, rfl⟩
    obtain ⟨count, last, reached, standing, ends⟩ := iterations_of_run (force_eq_ok.mp returned)
    have ended := Progress.outcome?_eq_ok ends
    obtain ⟨whnf, rfl, empty⟩ := iterate_finished means ended
    obtain ⟨depth, node, result', rfl, forced, after', ended', heap⟩ :=
      delivered_stored means idle sole free standing empty
    rw [ended'] at ended
    cases ended
    exact ⟨depth, node, heap ▸ forced⟩
  · rintro ⟨depth, node, forced⟩
    have answered : ofControl evaluator.actor meaning depth (.force root) state.world.heap =
        some (.ok (.stored result node) heap) := Reduction.bind_some_ok forced
    have leads := (force_leads_iff means idle sole free _).mpr ⟨depth, answered⟩
    cases leads with
    | returned reaches empty =>
      obtain ⟨count, standing⟩ := reaches.iterations
      obtain ⟨after, ended, heap⟩ := iterate_stored empty (free count _ _ standing)
      have ran := run_of_iterations standing (congrArg Progress.outcome? ended)
      exact ⟨count + 1, after, force_eq_ok.mpr ran, heap⟩

theorem force_error_iff (fault : Fault) :
    (∃ fuel after, force host evaluator fuel root state = some (.error fault, after)) ↔
      ∃ depth heap, Recursion.force evaluator.actor meaning depth root state.world.heap =
        some (.error fault heap) := by
  constructor
  · rintro ⟨fuel, after, raised⟩
    obtain ⟨_, ran, _⟩ := force_eq_error.mp raised
    obtain ⟨count, last, reached, standing, ends⟩ := iterations_of_run ran
    have ended := Progress.outcome?_eq_error ends
    by_cases delivers : ∃ whnf, last = .deliver whnf ∧ reached.stack.items = []
    · obtain ⟨whnf, rfl, empty⟩ := delivers
      obtain ⟨_, _, _, _, _, _, finished, _⟩ := delivered_stored means idle sole free standing empty
      rw [finished] at ended
      cases ended
    · have above : Above [] last reached :=
        ⟨reached.stack.items, by simp, fun empty whnf same => delivers ⟨whnf, same, empty⟩⟩
      have leads : Leads host evaluator [] (.force root) (begin evaluator state) _ :=
        .raised (reaches_of_iterations means standing) above ended
      obtain ⟨depth, answered⟩ := (force_leads_iff means idle sole free _).mp leads
      exact ⟨depth, _, Recursion.ofControl_force_error answered⟩
  · rintro ⟨depth, heap, forced⟩
    have answered : ofControl evaluator.actor meaning depth (.force root) state.world.heap =
        some (.error fault heap) := Reduction.bind_some_error forced
    have leads := (force_leads_iff means idle sole free _).mpr ⟨depth, answered⟩
    cases leads with
    | @raised _ _ after _ reaches above ended =>
      obtain ⟨count, standing⟩ := reaches.iterations
      have ran := run_of_iterations standing (congrArg Progress.outcome? ended)
      exact ⟨count + 1, unwind evaluator fault after, force_eq_error.mpr ⟨after, ran, rfl⟩⟩

end

/-- The machine computes what the recursion does. A call returns a result and leaves a heap
exactly if the recursion does, and fails with a fault exactly if the recursion does. And
over any frames an expression is worked down to a result or to a fault, those frames left
alone, exactly as the recursion says. -/
theorem refines_recursion (means : host.Means meaning) (evaluator : Evaluator) :
    (∀ root (state : State σ), state.stack.items = [] → state.world.heap.Sole evaluator.actor →
      Unhindered host evaluator (.force root) (begin evaluator state) →
      (∀ result heap,
        (∃ fuel after, force host evaluator fuel root state = some (.ok result, after) ∧
          after.world.heap = heap) ↔
        ∃ depth node, Recursion.force evaluator.actor meaning depth root state.world.heap =
          some (.ok (result, node) heap)) ∧
      ∀ fault,
        (∃ fuel after, force host evaluator fuel root state = some (.error fault, after)) ↔
        ∃ depth heap, Recursion.force evaluator.actor meaning depth root state.world.heap =
          some (.error fault heap)) ∧
    ∀ expr env (state : State σ), state.world.heap.Sole evaluator.actor →
      UnhinderedAbove host evaluator state.stack.items (.eval expr env) state →
      ∀ outcome, Leads host evaluator state.stack.items (.eval expr env) state outcome ↔
        ∃ depth, Recursion.eval evaluator.actor meaning depth expr env state.world.heap = some outcome := by
  constructor
  · intro root state idle sole free
    exact ⟨fun result heap => force_ok_iff means idle sole free heap, force_error_iff means idle sole free⟩
  · intro expr env state sole free
    exact leads_iff means ⟨sole, free⟩ rfl

/-! ### A call that asks the host -/

-- Every function of this host answers three.
def answeringHost : Host Unit := ⟨fun _ _ => pure (.int 3)⟩

theorem answeringHost_means : answeringHost.Means fun _ _ => .ok (.int 3) :=
  fun _ _ world => ⟨world, rfl, rfl⟩

-- Two and what the host answers.
def sumExpr : Expr := ⟨0, .primitive .intAdd [⟨1, .int 2⟩, ⟨2, .host ⟨"three", 0, 0⟩ []⟩]⟩

-- A thunk of the sum and an indirection to it.
def sumHeap : Heap :=
  let thunk := Heap.alloc (.thunk sumExpr []) (.ofSettings {})
  (Heap.alloc (.indirection ⟨0, 0⟩) thunk.state).state

def sumCall : Evaluator × State Unit :=
  start ⟨sumHeap, 0, [], #[], ()⟩ {} none

-- The same with a frame on the stack.
def sumOver : State Unit :=
  { sumCall.2 with stack := Stack.empty.push (.seq ⟨3, .int 1⟩ []) }

theorem sumCall_sole : sumCall.2.world.heap.Sole sumCall.1.actor := by
  have none : (Heap.ofSettings {}).Sole sumCall.1.actor := by
    intro index slot found
    simp [Heap.slotAt?, Heap.ofSettings] at found
  have one := (HeapMotion.sole sumCall.1.actor).alloc (.thunk sumExpr []) _ none
  have two := (HeapMotion.sole sumCall.1.actor).alloc (.indirection ⟨0, 0⟩) _ one
  exact two.of_entries rfl

-- The result of a run that returned one.
def returned? : EStateM.Result Fault (State Unit) Handle → Option Handle
  | .ok result _ => some result
  | .error .. => none

theorem run_of_returned {control : Control} {state : State Unit} {fuel : Nat} {result : Handle}
    (returned : (run answeringHost sumCall.1 fuel control state).bind returned? = some result) :
    ∃ after, run answeringHost sumCall.1 fuel control state = some (.ok result after) := by
  obtain ⟨outcome, ran, same⟩ := Option.bind_eq_some_iff.mp returned
  cases outcome with
  | ok _ after =>
    cases same
    exact ⟨after, ran⟩
  | error => cases same

theorem sumCall_runs : ∃ after, run answeringHost sumCall.1 12 (.force ⟨1, 0⟩) (begin sumCall.1 sumCall.2) =
    some (.ok ⟨0, 0⟩ after) := by
  apply run_of_returned
  decide +kernel

theorem sumOver_runs : ∃ after, run answeringHost sumCall.1 12 (.eval sumExpr []) sumOver =
    some (.ok ⟨2, 0⟩ after) := by
  apply run_of_returned
  decide +kernel

theorem refines_recursion_sum :
    (∃ depth node heap, Recursion.force sumCall.1.actor (fun _ _ => .ok (.int 3)) depth ⟨1, 0⟩
      sumCall.2.world.heap = some (.ok (⟨0, 0⟩, node) heap)) ∧
    Leads answeringHost sumCall.1 sumOver.stack.items (.eval sumExpr []) sumOver
      (.ok (.fresh (.int 5)) sumOver.world.heap) := by
  have refines := refines_recursion answeringHost_means sumCall.1
  obtain ⟨after, ran⟩ := sumCall_runs
  obtain ⟨_, ran'⟩ := sumOver_runs
  constructor
  · have whole := refines.1 ⟨1, 0⟩ sumCall.2 rfl sumCall_sole (unhindered_of_run ran)
    obtain ⟨depth, node, forced⟩ := (whole.1 ⟨0, 0⟩ after.world.heap).mp ⟨12, after, force_eq_ok.mpr ran, rfl⟩
    exact ⟨depth, node, _, forced⟩
  · have above := refines.2 sumExpr [] sumOver sumCall_sole (unhindered_of_run ran').above
    exact (above _).mpr ⟨2, rfl⟩

end LazyGraph.Machine

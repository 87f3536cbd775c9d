import LazyGraph.Proofs.Machine.Iterations
import LazyGraph.Proofs.Renaming.Twins
import LazyGraph.Proofs.Sharing.Runs

/-! Machines in lockstep.

Two evaluators with twin heaps take the same transitions: they tick together, walk the same
chains, claim and complete paired thunks, wait for each other's partners and stop with faults
of one kind. So their calls end together, and leave twin heaps. -/

set_option autoImplicit false

namespace LazyGraph

def Control.Rooted (heap : Heap) : Control → Prop
  | .await links _ => ∀ link ∈ links, heap.Live link
  | _ => True

inductive Progress.Alike (known : Handle → Prop) (pairs : Pairing) : Progress → Progress → Prop where
  | continues {control control' : Control} (alike : control.Alike known pairs control') :
      Alike known pairs (.continues control) (.continues control')
  | finished {handle handle' : Handle} (both : pairs handle handle') : Alike known pairs (.finished handle) (.finished handle')

namespace Machine

variable {σ α : Type} {lax : Prop} {known : Handle → Prop} {tied : Pairing → Heap → Heap → Prop}
  {peers : Actor → Actor → Prop} {pairs : Pairing} {left right : State σ} {evaluator evaluator' : Evaluator}
  {host host' : Host σ}

/-! ### Limits -/

-- Stops where a limit is met.
def stopAt (limit : Option Limit) : MachineM σ Unit := fun state =>
  match limit with
  | some limit => .error (.exhausted limit) state
  | none => .ok () state

theorem stopAt_concur {limit limit' : Option Limit} (abreast : Abreast lax known tied pairs left right)
    (same : ¬ lax → limit = limit') :
    Concur lax known tied pairs (fun _ _ _ => True) (stopAt limit left) (stopAt limit' right) := by
  by_cases excuse : lax
  · cases limit with
    | some => exact .leftSpent excuse
    | none =>
      cases limit' with
      | some => exact .rightSpent excuse
      | none => exact .pure abreast trivial
  · rw [← same excuse]
    cases limit with
    | some => exact .throw abreast rfl
    | none => exact .pure abreast trivial

theorem interruption?_eq (alike : Peers lax peers evaluator evaluator') (abreast : Abreast lax known tied pairs left right)
    (strict : ¬ lax) : interruption? evaluator left = interruption? evaluator' right := by
  have gauges := abreast.gauges strict
  simp only [State.gauges, Prod.mk.injEq] at gauges
  obtain ⟨_, deadline, clock, cancellations⟩ := gauges
  have cancelled : ∀ token, left.world.isCancelled token = right.world.isCancelled token := by
    intro token
    rw [World.isCancelled, World.isCancelled, clock, cancellations]
  unfold interruption?
  rw [alike.token strict, deadline, clock, funext cancelled]

theorem checkInterruption_concur (alike : Peers lax peers evaluator evaluator')
    (abreast : Abreast lax known tied pairs left right) :
    Concur lax known tied pairs (fun _ _ _ => True) (checkInterruption evaluator left)
      (checkInterruption evaluator' right) :=
  stopAt_concur abreast (interruption?_eq alike abreast)

-- Why a step is refused.
def refusal? (evaluator : Evaluator) (state : State σ) : Option Limit :=
  match evaluator.settings.maxSteps with
  | some limit => if limit.toNat < state.steps then some (.steps limit) else interruption? evaluator state
  | none => interruption? evaluator state

theorem tick_refusal (evaluator : Evaluator) (state : State σ) :
    tick evaluator state = stopAt (refusal? evaluator (begun state)) (begun state) := by
  rw [tick_eq, refusal?]
  cases evaluator.settings.maxSteps with
  | none => rfl
  | some limit =>
    by_cases spent : limit.toNat < (begun state).steps
    · simp only [if_pos spent]
      exact if_pos spent
    · simp only [if_neg spent]
      exact if_neg spent

theorem Abreast.begun (abreast : Abreast lax known tied pairs left right) :
    Abreast lax known tied pairs (begun left) (begun right) := by
  refine ⟨abreast.heaps, abreast.frames, fun strict => ?_⟩
  have gauges := abreast.gauges strict
  simp only [State.gauges, Prod.mk.injEq] at gauges ⊢
  obtain ⟨steps, deadline, clock, cancellations⟩ := gauges
  exact ⟨congrArg (· + 1) steps, deadline, congrArg (· + 1) clock, cancellations⟩

theorem tick_concur (alike : Peers lax peers evaluator evaluator') (abreast : Abreast lax known tied pairs left right) :
    Concur lax known tied pairs (fun _ _ _ => True) (tick evaluator left) (tick evaluator' right) := by
  rw [tick_refusal, tick_refusal]
  refine stopAt_concur abreast.begun fun strict => ?_
  have gauges := abreast.begun.gauges strict
  simp only [State.gauges, Prod.mk.injEq] at gauges
  unfold refusal?
  rw [alike.settings strict, gauges.1, interruption?_eq alike abreast.begun strict]

theorem trace_concur (abreast : Abreast lax known tied pairs left right) (control control' : Control) :
    Concur lax known tied pairs (fun _ _ _ => True) (trace evaluator control left) (trace evaluator' control' right) := by
  obtain ⟨_, traced⟩ := trace_ok evaluator control left
  obtain ⟨_, traced'⟩ := trace_ok evaluator' control' right
  rw [traced, traced']
  exact .pure ⟨abreast.heaps, abreast.frames, abreast.gauges⟩ trivial

theorem stepping_concur {related : Pairing → α → α → Prop} {next next' : MachineM σ α}
    (alike : Peers lax peers evaluator evaluator') (abreast : Abreast lax known tied pairs left right)
    (control control' : Control)
    (late : ∀ {pairs' ready ready'}, pairs.Extends pairs' → Abreast lax known tied pairs' ready ready' →
      Fits (next ready) → Fits (next' ready') → Concur lax known tied pairs' related (next ready) (next' ready'))
    (fits : Fits ((do tick evaluator; trace evaluator control; next) left))
    (fits' : Fits ((do tick evaluator'; trace evaluator' control'; next') right)) :
    Concur lax known tied pairs related ((do tick evaluator; trace evaluator control; next) left)
      ((do tick evaluator'; trace evaluator' control'; next') right) := by
  refine (tick_concur alike abreast).andThen fun ticked ticked' wider abreast' _ => ?_
  rw [Fits, bind_ok ticked] at fits
  rw [Fits, bind_ok ticked'] at fits'
  refine (trace_concur abreast' control control').andThen fun traced traced' wider' abreast'' _ => ?_
  rw [bind_ok traced] at fits
  rw [bind_ok traced'] at fits'
  exact late (wider.trans wider') abreast'' fits fits'

theorem Concur.continuing {computation computation' : MachineM σ Control}
    (concur : Concur lax known tied pairs (Control.Alike known) (computation left) (computation' right)) :
    Concur lax known tied pairs (Progress.Alike known) (continuing computation left) (continuing computation' right) :=
  concur.andThen fun _ _ _ abreast controls => .pure abreast (.continues controls)

theorem Fits.of_continuing {computation : MachineM σ Control} (fits : Fits (Machine.continuing computation left)) :
    Fits (computation left) := by
  rwa [Fits, continuing_state] at fits

/-! ### Demanding a node -/

section

variable {links links' : List Handle} {handle handle' : Handle}

theorem onHeap_concur {operation operation' : HeapM α} {related : α → α → Prop}
    (abreast : Abreast lax known (Heap.Twins peers known) pairs left right)
    (twined : Heap.Twined peers known pairs related (operation left.world.heap) (operation' right.world.heap)) :
    Concur lax known (Heap.Twins peers known) pairs (fun _ => related) (onHeap operation left) (onHeap operation' right) := by
  generalize ended : operation left.world.heap = result at twined
  generalize ended' : operation' right.world.heap = result' at twined
  cases twined with
  | ok twins both =>
    rw [onHeap_ok ended, onHeap_ok ended']
    exact .pure ⟨twins, abreast.frames, abreast.gauges⟩ both
  | error twins kind =>
    rw [onHeap_error ended, onHeap_error ended']
    exact .throw ⟨twins, abreast.frames, abreast.gauges⟩ kind

theorem redirectAll_concur (abreast : Abreast lax known (Heap.Twins peers known) pairs left right)
    (each : List.Forall₂ pairs links links') (both : pairs handle handle') :
    Concur lax known (Heap.Twins peers known) pairs (fun _ _ _ => True) (redirectAll links handle left)
      (redirectAll links' handle' right) := by
  induction links generalizing links' pairs left right with
  | nil =>
    cases each
    exact .pure abreast trivial
  | cons link links ih =>
    cases each with
    | @cons _ link' _ links' first rest =>
      have unfolds : ∀ (link : Handle) (links : List Handle) (target : Handle), redirectAll (σ := σ) (link :: links) target =
          ((do let _ ← onHeap (Heap.redirect link target)) >>= fun _ => redirectAll links target) := fun _ _ _ => rfl
      have pointed : Concur lax known (Heap.Twins peers known) pairs (fun _ _ _ => True)
          ((do let _ ← onHeap (Heap.redirect link handle)) left) ((do let _ ← onHeap (Heap.redirect link' handle')) right) :=
        (onHeap_concur abreast (abreast.heaps.redirect first both)).andThen fun _ _ _ abreast' _ => .pure abreast' trivial
      rw [unfolds, unfolds]
      exact pointed.andThen fun _ _ wider abreast' _ => ih abreast' (rest.imp wider) (wider _ _ both)

variable (alike : Peers lax peers evaluator evaluator')
  (abreast : Abreast lax known (Heap.Twins peers known) pairs left right)

include alike abreast

theorem enter_concur {expr : Expr} {env env' : Env} (each : List.Forall₂ pairs links links') (both : pairs handle handle')
    (code : expr.Sealed known) (bound : List.Forall₂ pairs env env') :
    Concur lax known (Heap.Twins peers known) pairs (Control.Alike known) (enter evaluator links handle expr env left)
      (enter evaluator' links' handle' expr env' right) := by
  unfold enter
  rw [Forall₂.isEmpty_eq each]
  cases links'.isEmpty with
  | true => exact pushing_concur alike abreast (.update both) (.eval code bound)
  | false =>
    refine (push_concur alike abreast (.redirect each)).andThen fun _ _ wider abreast' _ => ?_
    exact pushing_concur alike abreast' (.update (wider _ _ both)) (.eval code (bound.imp wider))

theorem startWait_concur (each : List.Forall₂ pairs links links') (both : pairs handle handle') :
    Concur lax known (Heap.Twins peers known) pairs (Control.Alike known) (startWait evaluator links handle left)
      (startWait evaluator' links' handle' right) := by
  refine (onHeap_concur abreast (abreast.heaps.beginWait alike.exactly alike.actors both)).andThen ?_
  intro pairs' _ _ middle middle' _ _ wider abreast' _
  exact .pure ⟨abreast'.heaps, abreast'.frames, abreast'.gauges⟩ (.await (each.imp wider) (wider _ _ both))

/-- The walks take the same turns, so one thunk is claimed if its partner is. -/
theorem demandFrom_concur (each : List.Forall₂ pairs links links') (live : ∀ link ∈ links, left.world.heap.Live link)
    (both : pairs handle handle') :
    Concur lax known (Heap.Twins peers known) pairs (Control.Alike known) (demandFrom evaluator links handle left)
      (demandFrom evaluator' links' handle' right) := by
  obtain ⟨passed, landing⟩ := abreast.heaps.followOn each live both
  unfold demandFrom
  rw [bind_ok (rfl : getHeap left = .ok left.world.heap left), bind_ok (rfl : getHeap right = .ok right.world.heap right)]
  generalize left.world.heap.followOn links handle = chain at passed landing ⊢
  generalize right.world.heap.followOn links' handle' = chain' at passed landing ⊢
  obtain ⟨links, landing⟩ := chain
  obtain ⟨links', landing'⟩ := chain'
  dsimp only at passed landing ⊢
  cases landing with
  | broken kind => exact .throw abreast kind
  | loop _ => exact .throw abreast rfl
  | @«at» handle handle' slot slot' both slots =>
    obtain ⟨state, node⟩ := slot
    obtain ⟨state', node'⟩ := slot'
    obtain ⟨states, nodes⟩ := slots
    have stored : Concur lax known (Heap.Twins peers known) pairs (Control.Alike known)
        ((do redirectAll links handle; return Control.deliver (.stored handle node)) left)
        ((do redirectAll links' handle'; return Control.deliver (.stored handle' node')) right) :=
      (redirectAll_concur abreast passed both).andThen fun _ _ wider abreast' _ =>
        .pure abreast' (.deliver (.stored (wider _ _ both) (nodes.mono wider)))
    cases nodes with
    | thunk code bound =>
      refine (onHeap_concur abreast (abreast.heaps.claim both alike.actors)).andThen ?_
      rintro pairs' claimed _ middle middle' _ _ wider abreast' rfl
      have passed := passed.imp wider
      have both := wider _ _ both
      cases claimed with
      | true => exact enter_concur alike abreast' passed both code (bound.imp wider)
      | false =>
        simp only [Bool.false_eq_true, if_false]
        cases states with
        | unevaluated | evaluated => exact .pure abreast' (.await passed both)
        | @inProgress owner owner' owners =>
          have same := alike.exactly owners alike.actors
          dsimp only
          by_cases own : owner = evaluator.actor
          · rw [if_pos own, if_pos (same.mp own)]
            exact .throw abreast' rfl
          · rw [if_neg own, if_neg (mt same.mpr own)]
            exact startWait_concur alike abreast' passed both
    | _ => exact stored

theorem resumeWait_concur (each : List.Forall₂ pairs links links') (live : ∀ link ∈ links, left.world.heap.Live link)
    (both : pairs handle handle') :
    Concur lax known (Heap.Twins peers known) pairs (Control.Alike known) (resumeWait evaluator links handle left)
      (resumeWait evaluator' links' handle' right) := by
  have granted : ∀ {evaluator : Evaluator} {before after : State σ}, checkInterruption evaluator before = .ok () after →
      before = after := by
    intro evaluator before after ended
    have same := checkInterruption_state evaluator before
    rw [ended] at same
    exact same.symm
  refine (checkInterruption_concur alike abreast).andThen fun ended ended' wider abreast' _ => ?_
  obtain rfl := granted ended
  obtain rfl := granted ended'
  rw [bind_ok (rfl : getHeap left = .ok _ _), bind_ok (rfl : getHeap right = .ok _ _)]
  have both := wider _ _ both
  have each := each.imp wider
  have states := abreast'.heaps.state both
  generalize left.world.heap.state handle = outcome at states ⊢
  generalize right.world.heap.state handle' = outcome' at states ⊢
  cases outcome <;> cases outcome'
  · exact .throw abreast' states
  · cases states
  · cases states
  · rename_i state state'
    rw [bind_ok (rfl : settle (.ok state) left = .ok state left), bind_ok (rfl : settle (.ok state') right = .ok state' right),
      ← SlotState.Alike.heldByOther states alike.exactly alike.actors]
    cases state.heldByOther evaluator.actor with
    | true =>
      refine .pure ⟨abreast'.heaps, abreast'.frames, fun strict => ?_⟩ (.await each both)
      have gauges := abreast'.gauges strict
      simp only [State.gauges, Prod.mk.injEq] at gauges ⊢
      rw [alike.settings strict]
      exact ⟨gauges.1, gauges.2.1, congrArg (· + _) gauges.2.2.1, gauges.2.2.2⟩
    | false =>
      have woken : Abreast lax known (Heap.Twins peers known) _
          { left with world := { left.world with heap := left.world.heap.endWait evaluator.actor } }
          { right with world := { right.world with heap := right.world.heap.endWait evaluator'.actor } } :=
        ⟨abreast'.heaps.endWait alike.exactly alike.actors, abreast'.frames, abreast'.gauges⟩
      exact demandFrom_concur alike woken each live both

/-! ### Delivering a value -/

omit alike abreast in
theorem updatePayload_alike (exactly : OneToOne pairs) {node node' : Handle} {whnf whnf' : Whnf} (both : pairs node node')
    (values : whnf.Alike known pairs whnf') :
    (updatePayload node whnf).1.Alike known pairs (updatePayload node' whnf').1 ∧
      pairs (updatePayload node whnf).2 (updatePayload node' whnf').2 := by
  cases values with
  | fresh nodes => exact ⟨nodes, both⟩
  | @stored existing existing' content content' both' nodes =>
    have apart : existing ≠ node ↔ existing' ≠ node' := not_congr (exactly both' both)
    simp only [updatePayload, Whnf.stored, nodes.tag, apart]
    split
    · exact ⟨.indirection both', both'⟩
    · exact ⟨nodes, both⟩

theorem update_concur {node node' : Handle} {whnf whnf' : Whnf} (both : pairs node node')
    (values : whnf.Alike known pairs whnf') :
    Concur lax known (Heap.Twins peers known) pairs (Control.Alike known) (update evaluator node whnf left)
      (update evaluator' node' whnf' right) := by
  obtain ⟨payloads, results⟩ := updatePayload_alike abreast.heaps.exactly both values
  have nodes : whnf.node.Alike known pairs whnf'.node := by cases values <;> assumption
  refine (onHeap_concur abreast (abreast.heaps.complete both alike.exactly alike.actors payloads)).andThen ?_
  rintro pairs' written _ middle middle' _ _ wider abreast' rfl
  cases written with
  | true =>
    exact .pure ⟨abreast'.heaps, abreast'.frames, abreast'.gauges⟩
      (.deliver (.stored (wider _ _ results) (nodes.mono wider)))
  | false => exact .throw abreast' rfl

theorem resumeAny_concur {frame frame' : Frame} {whnf whnf' : Whnf} (frames : frame.Alike known pairs frame')
    (values : whnf.Alike known pairs whnf') :
    Concur lax known (Heap.Twins peers known) pairs (Control.Alike known) (resume host evaluator frame whnf left)
      (resume host' evaluator' frame' whnf' right) := by
  cases frames with
  | update both => exact update_concur alike abreast both values
  | @redirect links links' each =>
    unfold resume
    cases values with
    | fresh nodes => exact .pure abreast (.deliver (.fresh nodes))
    | stored both nodes =>
      refine (redirectAll_concur abreast each both).andThen fun _ _ wider abreast' _ => ?_
      exact .pure abreast' (.deliver (.stored (wider _ _ both) (nodes.mono wider)))
  | apply each => exact resume_concur alike abreast (.apply each) rfl values
  | call evaluated code each => exact resume_concur alike abreast (.call evaluated code each) rfl values
  | choose code default each => exact resume_concur alike abreast (.choose code default each) rfl values
  | seq code each => exact resume_concur alike abreast (.seq code each) rfl values

theorem finish_concur {whnf whnf' : Whnf} (values : whnf.Alike known pairs whnf')
    (fits : Fits (finish host evaluator whnf left)) (fits' : Fits (finish host' evaluator' whnf' right)) :
    Concur lax known (Heap.Twins peers known) pairs (Progress.Alike known) (finish host evaluator whnf left)
      (finish host' evaluator' whnf' right) := by
  have frames := abreast.frames
  cases popped : left.stack.pop? with
  | some top =>
    obtain ⟨frame, rest⟩ := top
    rw [Stack.pop?_eq_some popped] at frames
    obtain ⟨frame', items', here, below, same⟩ := List.forall₂_cons_left_iff.mp frames
    obtain ⟨rest', popped', rfl⟩ := Stack.pop?_of_items same
    rw [finish_pops host evaluator whnf popped, finish_pops host' evaluator' whnf' popped']
    have abreast' : Abreast lax known (Heap.Twins peers known) pairs { left with stack := rest }
        { right with stack := rest' } := ⟨abreast.heaps, below, abreast.gauges⟩
    exact (resumeAny_concur alike abreast' here values).continuing
  | none =>
    rw [Stack.pop?_eq_none.mp popped] at frames
    have popped' : right.stack.pop? = none := Stack.pop?_eq_none.mpr (List.forall₂_nil_left_iff.mp frames)
    unfold finish at fits fits' ⊢
    rw [bind_ok (rfl : (get : MachineM σ (State σ)) left = .ok left left), popped] at fits ⊢
    rw [bind_ok (rfl : (get : MachineM σ (State σ)) right = .ok right right), popped'] at fits' ⊢
    cases values with
    | stored both _ => exact .pure abreast (.finished both)
    | fresh nodes =>
      refine Concur.bind (alloc_concur abreast nodes) (fun _ => Moves.pure _) (fun _ => Moves.pure _) ?_ fits fits'
      exact fun _ abreast' both _ _ => .pure abreast' (.finished both)

/-! ### Transitions -/

theorem iterate_concur {control control' : Control} (controls : control.Alike known pairs control')
    (rooted : control.Rooted left.world.heap) (fits : Fits (iterate host evaluator control left))
    (fits' : Fits (iterate host' evaluator' control' right)) :
    Concur lax known (Heap.Twins peers known) pairs (Progress.Alike known) (iterate host evaluator control left)
      (iterate host' evaluator' control' right) := by
  cases controls with
  | await each both => exact (resumeWait_concur alike abreast each rooted both).continuing
  | eval code each =>
    refine stepping_concur alike abreast _ _ (fun wider abreast' fits fits' => ?_) fits fits'
    exact (eval_concur alike abreast' code (each.imp wider) (.of_continuing fits) (.of_continuing fits')).continuing
  | force both =>
    refine stepping_concur alike abreast _ _ (fun wider abreast' _ _ => ?_) fits fits'
    exact (demandFrom_concur alike abreast' .nil nofun (wider _ _ both)).continuing
  | deliver values =>
    refine stepping_concur alike abreast _ _ (fun wider abreast' fits fits' => ?_) fits fits'
    exact finish_concur alike abreast' (values.mono wider) fits fits'

end

/-! ### Waits -/

theorem demandFrom_rooted {passed : List Handle} {start : Handle} {next : Control} {state after : State σ}
    (live : ∀ link ∈ passed, state.world.heap.Live link)
    (ended : demandFrom evaluator passed start state = .ok next after) : next.Rooted after.world.heap := by
  have linksLive := Heap.followOn_live live start
  have demands := demandFrom_cases evaluator passed start state
  rw [ended] at demands
  generalize result : EStateM.Result.ok next after = answer at demands
  cases demands with
  | broken | loop | own => cases result
  | @claims links node expr env heap =>
    rcases enter_cases evaluator links node expr env { state with world := { state.world with heap := heap } } with
      ⟨_, _, enters, _⟩ | ⟨_, _, _, refused, _⟩
    · cases result.trans enters
      trivial
    · cases result.trans refused
  | @waits links node _ _ _ chain _ =>
    rcases startWait_cases evaluator links node state with ⟨_, refused⟩ | ⟨_, granted, _, entries, _⟩
    · cases result.trans refused
    · cases result.trans granted
      rw [chain] at linksLive
      exact fun link member => (linksLive link member).imp fun slot found => (Heap.lookup_congr entries link).trans found
  | stuck chain =>
    cases result
    rw [chain] at linksLive
    exact linksLive
  | value =>
    have delivers : ∀ links target node, Yields (fun next => ∀ heap, Control.Rooted heap next)
        (do redirectAll (σ := σ) links target; return Control.deliver (.stored target node)) := fun _ _ _ =>
      Yields.after_any fun _ => Yields.pure fun _ => trivial
    exact delivers _ _ _ _ _ _ result.symm _

theorem rooted_of_active {control : Control} (active : control.waits = false) (heap : Heap) : control.Rooted heap := by
  cases control with
  | await links node => cases active
  | _ => trivial

theorem iterate_rooted {control next : Control} {state after : State σ} (rooted : control.Rooted state.world.heap)
    (stepped : iterate host evaluator control state = .ok (.continues next) after) : next.Rooted after.world.heap := by
  cases control with
  | await links node =>
    have ended : resumeWait evaluator links node state = .ok next after := continuing_inv stepped
    by_cases walks : Walks evaluator state (.await links node) links node
    · cases walks with
      | await granted live unheld =>
        rw [resumeWait_over granted live unheld] at ended
        refine demandFrom_rooted ?_ ended
        exact rooted
    · obtain ⟨_, heap, waits, _⟩ := resumeWait_still walks
      rw [ended] at heap
      obtain rfl := waits next after ended
      rw [show after.world.heap = state.world.heap from heap]
      exact rooted
  | eval expr env =>
    obtain ⟨ready, _, _, going⟩ := step_ok stepped
    exact rooted_of_active (eval_fresh host evaluator expr env _ _ _ (continuing_inv going)).active _
  | force handle =>
    obtain ⟨ready, _, _, going⟩ := step_ok stepped
    exact demandFrom_rooted (List.forall_mem_nil _) (continuing_inv going)
  | deliver whnf =>
    obtain ⟨ready, _, _, going⟩ := step_ok stepped
    obtain ⟨frame, rest, _, ended⟩ := finish_continues going
    exact rooted_of_active (resume_active host evaluator frame whnf _ _ _ ended) _

/-! ### Runs and calls -/

/-- No heap in the course of the run outgrows what handles can address. -/
def Roomy (step : Control → MachineM σ Progress) (control : Control) (state : State σ) : Prop :=
  ∀ last reached, Passes step control state last reached → Fits (step last reached)

theorem Roomy.onward {step : Control → MachineM σ Progress} {control next : Control} {state after : State σ}
    (roomy : Roomy step control state) (stepped : step control state = .ok (.continues next) after) :
    Roomy step next after :=
  fun last reached reaches => roomy last reached (.onward stepped reaches)

theorem Unlimited.roomy {step : Control → MachineM σ Progress} {control : Control} {state : State σ}
    (unlimited : Unlimited step control state) : Roomy step control state :=
  fun last reached reaches => (unlimited last reached reaches).1

/-- Runs from twin heaps end together, or not at all. A lax comparison is for runs that meet no limit. -/
theorem run_concur (alike : Peers lax peers evaluator evaluator') {control control' : Control}
    (abreast : Abreast lax known (Heap.Twins peers known) pairs left right) (controls : control.Alike known pairs control')
    (rooted : control.Rooted left.world.heap) (roomy : Roomy (iterate host evaluator) control left)
    (roomy' : Roomy (iterate host' evaluator') control' right)
    (unlimited : lax → Unlimited (iterate host evaluator) control left ∧ Unlimited (iterate host' evaluator') control' right)
    (fuel : Nat) :
    Option.Rel (Concur lax known (Heap.Twins peers known) pairs id) (run host evaluator fuel control left)
      (run host' evaluator' fuel control' right) := by
  induction fuel generalizing pairs control control' left right with
  | zero => exact .none
  | succ fuel ih =>
    have concur := iterate_concur alike abreast controls rooted (roomy _ _ .here) (roomy' _ _ .here)
    unfold run
    generalize stepped : iterate host evaluator control left = result at concur
    generalize stepped' : iterate host' evaluator' control' right = result' at concur
    cases concur with
    | error wider abreast kind => exact .some (.error wider abreast kind)
    | leftSpent excuse => exact absurd stepped (((unlimited excuse).1 _ _ .here).2 _ _)
    | rightSpent excuse => exact absurd stepped' (((unlimited excuse).2 _ _ .here).2 _ _)
    | ok wider abreast both =>
      cases both with
      | finished both => exact .some (.ok wider abreast both)
      | continues controls =>
        have rest := ih abreast controls (iterate_rooted rooted stepped) (roomy.onward stepped) (roomy'.onward stepped')
          fun excuse => ⟨(unlimited excuse).1.onward stepped, (unlimited excuse).2.onward stepped'⟩
        dsimp only
        generalize run host evaluator fuel _ _ = outcome at rest ⊢
        generalize run host' evaluator' fuel _ _ = outcome' at rest ⊢
        cases rest with
        | none => exact .none
        | some concur => exact .some (concur.earlier wider)

theorem releaseAll_twins (exactly : OneToOne peers) {actor actor' : Actor} (actors : peers actor actor')
    {frames frames' : List Frame} (each : List.Forall₂ (Frame.Alike known pairs) frames frames') {heap heap' : Heap}
    (twins : heap.Twins peers known pairs heap') (released released' : Nat) :
    (releaseAll actor frames released heap).2.Twins peers known pairs (releaseAll actor' frames' released' heap').2 := by
  induction each generalizing heap heap' released released' with
  | nil => exact twins
  | cons first _ ih =>
    cases first with
    | @update node node' both =>
      have twined := twins.release both exactly actors
      unfold releaseAll
      generalize Heap.release node actor heap = result at twined ⊢
      generalize Heap.release node' actor' heap' = result' at twined ⊢
      cases twined with
      | error twins _ => exact ih twins _ _
      | @ok done _ _ _ twins same =>
        cases same
        cases done with
        | true => exact ih twins _ _
        | false => exact ih twins _ _
    | _ => exact ih twins _ _

theorem begin_abreast (alike : Peers lax peers evaluator evaluator') (abreast : Abreast lax known tied pairs left right) :
    Abreast lax known tied pairs (begin evaluator left) (begin evaluator' right) := by
  refine ⟨abreast.heaps, abreast.frames, fun strict => ?_⟩
  have gauges := abreast.gauges strict
  simp only [State.gauges, Prod.mk.injEq] at gauges
  obtain ⟨_, _, clock, cancellations⟩ := gauges
  simp only [State.gauges, begin, alike.settings strict, clock, cancellations]

theorem unwind_abreast (alike : Peers lax peers evaluator evaluator')
    (abreast : Abreast lax known (Heap.Twins peers known) pairs left right) (fault fault' : Fault) :
    Abreast lax known (Heap.Twins peers known) pairs (unwind evaluator fault left) (unwind evaluator' fault' right) where
  heaps := (releaseAll_twins alike.exactly alike.actors abreast.frames abreast.heaps 0 0).endWait alike.exactly alike.actors
  frames := .nil
  gauges := abreast.gauges

/-- Calls from twin heaps end together, or not at all, and leave twin heaps. -/
theorem force_concur {peers : Actor → Actor → Prop} (alike : Peers False peers evaluator evaluator') {root root' : Handle}
    (abreast : Abreast False known (Heap.Twins peers known) pairs left right) (both : pairs root root')
    (roomy : Roomy (iterate host evaluator) (.force root) (begin evaluator left))
    (roomy' : Roomy (iterate host' evaluator') (.force root') (begin evaluator' right)) (fuel : Nat) :
    Option.Rel (fun ended ended' => ∃ pairs', pairs.Extends pairs' ∧
        Abreast False known (Heap.Twins peers known) pairs' ended.2 ended'.2 ∧ Coincide pairs' ended.1 ended'.1)
      (force host evaluator fuel root left) (force host' evaluator' fuel root' right) := by
  have runs := run_concur alike (begin_abreast alike abreast) (.force both) trivial roomy roomy' False.elim fuel
  unfold force
  generalize run host evaluator fuel (.force root) (begin evaluator left) = outcome at runs ⊢
  generalize run host' evaluator' fuel (.force root') (begin evaluator' right) = outcome' at runs ⊢
  cases runs with
  | none => exact .none
  | some concur =>
    cases concur with
    | ok wider abreast' both => exact .some ⟨_, wider, abreast', both⟩
    | error wider abreast' kind => exact .some ⟨_, wider, unwind_abreast alike abreast' _ _, kind⟩
    | leftSpent excuse => exact excuse.elim
    | rightSpent excuse => exact excuse.elim

end Machine

end LazyGraph

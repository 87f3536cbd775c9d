import LazyGraph.Proofs.Lapses.Turns
import LazyGraph.Proofs.Machine.LimitedSteps
import LazyGraph.Proofs.Parallel.Undisturbed

/-! Scripts of an evaluator that nobody disturbs.

With nothing between its actions a script does what the machine does on the frames of its
records: it answers the same, stops with the same fault, and leaves the same state. -/

set_option autoImplicit false

namespace LazyGraph

namespace Parallel

open Machine

variable {σ α β : Type}

/-- No action of the plan touches the frames or counts a step. -/
def Plan.Steady : Plan σ α → Prop
  | .ended _ => True
  | .act action next => Moves Machine.Steady action ∧ ∀ value, (next value).Steady

namespace Plan.Steady

theorem once {action : MachineM σ α} (steady : Moves Machine.Steady action) : (Plan.once action).Steady :=
  ⟨steady, fun _ => trivial⟩

theorem bind {first : Plan σ β} {next : β → Plan σ α} (early : first.Steady) (late : ∀ value, (next value).Steady) :
    (first >>= next).Steady := by
  induction first with
  | ended value => exact late value
  | act action following ih => exact ⟨early.1, fun value => ih value (early.2 value)⟩

theorem mapM {f : β → Plan σ α} (items : List β) (each : ∀ item, (f item).Steady) : (items.mapM f).Steady := by
  induction items with
  | nil => exact trivial
  | cons head tail ih =>
    rw [List.mapM_cons]
    exact (each head).bind fun _ => ih.bind fun _ => trivial

theorem forM {f : β → Plan σ PUnit} (items : List β) (each : ∀ item, (f item).Steady) : (items.forM f).Steady := by
  induction items with
  | nil => exact trivial
  | cons head tail ih => exact (each head).bind fun _ => ih

theorem onHeap (operation : HeapM α) : (Plan.once (onHeap operation) : Plan σ α).Steady :=
  once (onHeap_steady operation)

theorem settle (outcome : Except Fault α) : (Plan.once (settle outcome) : Plan σ α).Steady :=
  once (settle_steady outcome)

theorem modifyWorld (change : World σ → World σ) : (Plan.once (modifyWorld change)).Steady :=
  once fun _ => ⟨rfl, rfl⟩

theorem looks (look : Heap → Except Fault α) : (Plan.once do Machine.settle (look (← getHeap)) : Plan σ α).Steady :=
  once fun state => settle_steady (look state.world.heap) state

theorem suspendAll (env : Env) (exprs : List Expr) : (suspendAll env exprs : Plan σ (List Handle)).Steady := by
  refine mapM exprs fun expr => (settle (env.suspend expr)).bind fun suspension => ?_
  cases suspension with
  | existing handle => exact trivial
  | new node => exact onHeap (Heap.alloc node)

theorem redirectAll (links : List Handle) (target : Handle) : (redirectAll links target : Plan σ Unit).Steady :=
  forM links fun link => once ((onHeap_steady (Heap.redirect link target)).bind fun _ => Moves.pure _)

theorem bindAll (env : Env) (bindings : List Expr) : (bindAll env bindings : Plan σ Env).Steady := by
  refine bind ?_ fun handles => (settle _).bind fun _ => trivial
  unfold allocGroup
  split
  · exact trivial
  · exact (onHeap _).bind fun handles => (onHeap _).bind fun _ => trivial

theorem complete (node : Handle) (actor : Actor) (payload : Node) : (complete node actor payload : Plan σ Bool).Steady := by
  refine (looks (Heap.state · node)).bind fun state => ?_
  split
  · exact (onHeap _).bind fun _ => (onHeap _).bind fun _ => trivial
  · exact (onHeap _).bind fun _ => trivial

theorem leadsBack (actor : Actor) (hops : Nat) (current : Handle) : (leadsBack actor hops current : Plan σ Bool).Steady := by
  induction hops generalizing current with
  | zero => exact trivial
  | succ hops ih =>
    have reads : Moves Machine.Steady (holder current : MachineM σ _) := by
      intro state
      unfold holder
      rw [bind_ok (rfl : getHeap state = .ok state.world.heap state)]
      cases state.world.heap.state current with
      | error fault => exact ⟨rfl, rfl⟩
      | ok held => cases held <;> exact ⟨rfl, rfl⟩
    refine (once reads).bind fun found => ?_
    match found with
    | none => exact trivial
    | some (owner, next?) =>
      show (if owner = actor then _ else _ : Plan σ Bool).Steady
      split
      · exact trivial
      · cases next? with
        | none => exact trivial
        | some next => exact ih next

theorem startWait (evaluator : Evaluator) (links : List Handle) (node : Handle) :
    (startWait evaluator links node : Plan σ Control).Steady := by
  refine bind (once fun _ => ⟨rfl, rfl⟩) fun entries => (leadsBack _ _ _).bind fun back => ?_
  cases back with
  | true => exact settle (.error _)
  | false => exact (modifyWorld _).bind fun _ => (modifyWorld _).bind fun _ => trivial

theorem resumeWait (evaluator : Evaluator) (links : List Handle) (node : Handle) :
    (resumeWait evaluator links node : Plan σ Pace).Steady := by
  have checks : Moves Machine.Steady (checkInterruption evaluator : MachineM σ Unit) := by
    intro state
    rw [checkInterruption_state]
    exact ⟨rfl, rfl⟩
  refine (once checks).bind fun _ => (looks (Heap.state · node)).bind fun state => ?_
  split
  · exact (modifyWorld _).bind fun _ => trivial
  · exact (modifyWorld _).bind fun _ => trivial

end Plan.Steady

end Parallel

namespace Lapses

open Machine Parallel

variable {σ α β : Type} {host : Host σ} {evaluator : Evaluator} {desk : Desk σ}

def Desk.Legible (desk : Desk σ) : Prop :=
  ∀ record ∈ desk.records, record.frame?.isSome

/-- The actions taken one after the other from this desk, with the host's functions called in
their places, come to this result. -/
def ComesTo (host : Host σ) : Script σ α → Desk σ → EStateM.Result Fault (State σ) α → Prop
  | .ended value, desk, result => result = .ok value desk.state ∧ desk.Legible
  | .act action next, desk, result =>
    match action desk with
    | .ok value after => ComesTo host (next value) after result
    | .error fault after => result = .error fault after.state
  | .ask fn operands next, desk, result =>
    match host.call fn operands desk.world with
    | .ok node world => ComesTo host (next node) { desk with world := world } result
    | .error fault world => result = .error fault { desk.state with world := world }
  | .lapse _, _, _ => False

namespace Desk

theorem refresh_state {after : State σ} (level : after.stack = desk.state.stack) : (desk.refresh after).state = after := by
  obtain ⟨stack, steps, deadline, world⟩ := after
  cases level
  rfl

theorem Legible.refresh (legible : desk.Legible) (after : State σ) : (desk.refresh after).Legible :=
  legible

theorem Legible.depth (legible : desk.Legible) : desk.state.stack.depth = desk.records.length :=
  List.filterMap_length_eq_length.mpr legible

theorem Legible.sole {node : Handle} (legible : desk.Legible)
    (items : desk.state.stack.items = [.update node]) : desk.records = [.update node] := by
  have count : desk.records.length = 1 := legible.depth.symm.trans (desk.state.stack.depth_eq.trans (congrArg List.length items))
  obtain ⟨record, sole⟩ := List.length_eq_one_iff.mp count
  obtain ⟨frame, framed⟩ := Option.isSome_iff_exists.mp (legible record (sole ▸ List.mem_singleton_self record))
  have same : desk.records.filterMap Record.frame? = [.update node] := items
  rw [sole, List.filterMap_cons_some framed] at same
  cases same
  rw [sole, Record.of_update framed]

theorem state_push {record : Record} {frame : Frame} (framed : record.frame? = some frame) :
    { desk with records := record :: desk.records }.state = { desk.state with stack := desk.state.stack.push frame } := by
  have items : (record :: desk.records).filterMap Record.frame? = frame :: desk.records.filterMap Record.frame? :=
    List.filterMap_cons_some framed
  have pushed : { desk with records := record :: desk.records }.state.stack = desk.state.stack.push frame :=
    Stack.ext items
  exact congrArg (fun stack => { desk.state with stack := stack }) pushed

theorem Legible.push {record : Record} {frame : Frame} (legible : desk.Legible) (framed : record.frame? = some frame) :
    { desk with records := record :: desk.records }.Legible :=
  List.forall_mem_cons.mpr ⟨by simp [framed], legible⟩

end Desk

namespace ComesTo

theorem bind {first : Script σ β} {next : β → Script σ α} {action : MachineM σ β} {rest : β → MachineM σ α}
    (early : ComesTo host first desk (action desk.state))
    (late : ∀ value after, action desk.state = .ok value after.state → after.Legible →
      ComesTo host (next value) after (rest value after.state)) :
    ComesTo host (first >>= next) desk ((action >>= rest) desk.state) := by
  have joined : ∀ (script : Script σ β) (now : Desk σ), ComesTo host script now (action desk.state) →
      ComesTo host (script >>= next) now ((action >>= rest) desk.state) := by
    intro script
    induction script with
    | ended value =>
      rintro now ⟨ended, legible⟩
      rw [bind_ok ended]
      exact late value now ended legible
    | act act following ih =>
      intro now comes
      simp only [ComesTo] at comes
      show ComesTo host (.act act fun value => (following value).bind next) now _
      simp only [ComesTo]
      split
      · rename_i acted
        rw [acted] at comes
        exact ih _ _ comes
      · rename_i acted
        rw [acted] at comes
        exact bind_error comes
    | ask fn operands following ih =>
      intro now comes
      simp only [ComesTo] at comes
      show ComesTo host (.ask fn operands fun node => (following node).bind next) now _
      simp only [ComesTo]
      split
      · rename_i answered
        rw [answered] at comes
        exact ih _ _ comes
      · rename_i answered
        rw [answered] at comes
        exact bind_error comes
    | lapse branch => exact fun _ comes => comes.elim
  exact joined first desk early

theorem once {action : MachineM σ α} (legible : desk.Legible)
    (level : (action desk.state).state.stack = desk.state.stack) :
    ComesTo host (Script.once action) desk (action desk.state) := by
  simp only [Script.once, ComesTo, beside]
  cases acted : action desk.state with
  | ok value after =>
    rw [acted] at level
    exact ⟨congrArg _ (Desk.refresh_state level).symm, legible⟩
  | error fault after =>
    rw [acted] at level
    exact congrArg _ (Desk.refresh_state level).symm

theorem push {record : Record} {frame : Frame} (framed : record.frame? = some frame) (legible : desk.Legible) :
    ComesTo host (Script.push evaluator record) desk (Machine.push evaluator frame desk.state) := by
  simp only [Script.push, ComesTo, Desk.push, Machine.push, legible.depth]
  split
  · rename_i acted
    split at acted <;> cases acted
    rename_i room
    rw [if_neg room]
    exact ⟨by rw [Desk.state_push framed], legible.push framed⟩
  · rename_i acted
    split at acted <;> cases acted
    rename_i full
    rw [if_pos full]

theorem settle (outcome : Except Fault α) (legible : desk.Legible) :
    ComesTo host (Script.once (settle outcome)) desk (settle outcome desk.state) :=
  once legible (by cases outcome <;> rfl)

theorem onHeap (operation : HeapM α) (legible : desk.Legible) :
    ComesTo host (Script.once (Machine.onHeap operation)) desk (Machine.onHeap operation desk.state) := by
  refine once legible ?_
  cases ended : operation desk.state.world.heap with
  | ok value heap => rw [onHeap_ok ended]; rfl
  | error fault heap => rw [onHeap_error ended]; rfl

theorem modifyWorld (change : World σ → World σ) (legible : desk.Legible) :
    ComesTo host (Script.once (Machine.modifyWorld change)) desk (Machine.modifyWorld change desk.state) :=
  once legible rfl

/-! ### Plans -/

theorem ofPlan {plan : Plan σ α} (steady : plan.Steady) (legible : desk.Legible) :
    ComesTo host (Script.ofPlan plan) desk (plan.alone desk.state) := by
  induction plan generalizing desk with
  | ended value => exact ⟨rfl, legible⟩
  | act action next ih =>
    obtain ⟨steady, following⟩ := steady
    have level := (steady desk.state).1
    simp only [Script.ofPlan, ComesTo, beside, Plan.alone]
    cases acted : action desk.state with
    | ok value after =>
      rw [acted] at level
      rw [bind_ok acted]
      have level : (desk.refresh after).state = after := Desk.refresh_state level
      have comes := ih value (following value) (legible.refresh after)
      rw [level] at comes
      exact comes
    | error fault after =>
      rw [acted] at level
      rw [bind_error acted]
      exact congrArg _ (Desk.refresh_state level).symm

theorem suspendAll (env : Env) (exprs : List Expr) (legible : desk.Legible) :
    ComesTo host (Script.ofPlan (Parallel.suspendAll env exprs)) desk (Machine.suspendAll env exprs desk.state) :=
  alone_suspendAll env exprs ▸ ofPlan (.suspendAll env exprs) legible

theorem redirectAll (links : List Handle) (target : Handle) (legible : desk.Legible) :
    ComesTo host (Script.ofPlan (Parallel.redirectAll links target)) desk (Machine.redirectAll links target desk.state) :=
  alone_redirectAll links target ▸ ofPlan (.redirectAll links target) legible

theorem bindAll (env : Env) (bindings : List Expr) (legible : desk.Legible) :
    ComesTo host (Script.ofPlan (Parallel.bindAll env bindings)) desk (Machine.bindAll env bindings desk.state) :=
  alone_bindAll env bindings ▸ ofPlan (.bindAll env bindings) legible

theorem complete {node : Handle} {actor : Actor} (payload : Node) (legible : desk.Legible) :
    ComesTo host (Script.ofPlan (Parallel.complete node actor payload)) desk
      (Machine.onHeap (Heap.complete node actor payload) desk.state) :=
  alone_complete node actor payload ▸ ofPlan (.complete node actor payload) legible

theorem startWait (links : List Handle) (node : Handle) (legible : desk.Legible) :
    ComesTo host (Script.ofPlan (Parallel.startWait evaluator links node)) desk
      (Machine.startWait evaluator links node desk.state) :=
  alone_startWait evaluator links node ▸ ofPlan (.startWait evaluator links node) legible

theorem acted {action : MachineM σ β} {next : β → Script σ α} {value : β} {after : State σ}
    {result : EStateM.Result Fault (State σ) α} (ended : action desk.state = .ok value after)
    (rest : ComesTo host (next value) (desk.refresh after) result) :
    ComesTo host (.act (beside action) next) desk result := by
  simp only [ComesTo, beside, ended]
  exact rest

theorem looked {action : MachineM σ β} {next : β → Script σ α} {value : β} {result : EStateM.Result Fault (State σ) α}
    (seen : action desk.state = .ok value desk.state) (rest : ComesTo host (next value) desk result) :
    ComesTo host (.act (beside action) next) desk result :=
  acted seen rest

theorem refused {action : MachineM σ β} {next : β → Script σ α} {fault : Fault}
    (failed : action desk.state = .error fault desk.state) :
    ComesTo host (.act (beside action) next) desk (.error fault desk.state) := by
  simp only [ComesTo, beside, failed]
  rfl

/-! ### Calls -/

theorem ask (fn : HostFn) (operands : List Node) (legible : desk.Legible) :
    ComesTo host (.ask fn operands .ended) desk (onWorld (host.call fn operands) desk.state) := by
  simp only [ComesTo]
  have same : desk.state.world = desk.world := rfl
  split
  · rename_i answered
    simp only [onWorld, same, answered]
    exact ⟨rfl, legible⟩
  · rename_i refused
    simp only [onWorld, same, refused]

theorem answer (result : Node) (legible : desk.Legible) :
    ComesTo host (if result.tag.isWhnf then pure (.deliver (.fresh result))
      else Script.once (Machine.onHeap (Heap.alloc result)) >>= fun handle => pure (.force handle) : Script σ Control) desk
      (Machine.answer result desk.state) := by
  unfold Machine.answer
  split
  · exact ⟨rfl, legible⟩
  · exact (onHeap (Heap.alloc result) legible).bind fun handle after _ legible => ⟨rfl, legible⟩

theorem callStrict {record : Record} {callee : Callee} {operands : Operands}
    (framed : record.frame? = some (.call callee operands)) (counted : record.Counted) (whole : operands.pending = [])
    (legible : desk.Legible) :
    ComesTo host (Lapses.callStrict record) desk (Machine.callStrict host callee operands.done desk.state) := by
  cases record with
  | primitive op _ =>
    cases framed
    rw [callStrict_primitive]
    refine bind ?_ fun result after _ legible => answer result legible
    simp only [Record.Counted, whole, List.length_nil, Nat.add_zero] at counted
    simp only [call]
    split
    · rename_i refused
      exact (Primitive.execute_counted counted refused).elim
    · exact settle _ legible
  | host fn _ =>
    cases framed
    rw [callStrict_host]
    exact (ask fn operands.done legible).bind fun result after _ legible => answer result legible
  | choose case env =>
    simp only [Record.frame?] at framed
    split at framed <;> cases framed
  | _ => cases framed

theorem nextOperand {record : Record} {callee : Callee} {operands : Operands}
    (framed : record.frame? = some (.call callee operands)) (counted : record.Counted) (legible : desk.Legible) :
    ComesTo host (Lapses.nextOperand evaluator record) desk (Machine.nextOperand host evaluator callee operands desk.state) := by
  have known : record.operands? = some operands ∧
      ∀ operands', (record.withOperands operands').frame? = some (.call callee operands') := by
    cases record with
    | primitive op _ | host fn _ =>
      cases framed
      exact ⟨rfl, fun _ => rfl⟩
    | _ => exact counted.elim
  simp only [Lapses.nextOperand, Machine.nextOperand, known.1]
  cases pending : operands.pending with
  | cons expr rest => exact (push (known.2 _) legible).bind fun _ after _ legible => ⟨rfl, legible⟩
  | nil => exact callStrict framed counted pending legible

theorem apply (callee : Node) (args : List Handle) (legible : desk.Legible) :
    ComesTo host (Lapses.apply evaluator callee args) desk (Machine.apply evaluator callee args desk.state) := by
  cases callee with
  | function code bound =>
    simp only [Lapses.apply, Machine.apply]
    split
    · exact ⟨rfl, legible⟩
    · split
      · exact ⟨rfl, legible⟩
      · exact (push rfl legible).bind fun _ after _ legible => ⟨rfl, legible⟩
  | _ => exact settle (.error _) legible

/-! ### Evaluating and resuming -/

theorem eval (expr : Expr) (env : Env) (legible : desk.Legible) :
    ComesTo host (Lapses.eval evaluator expr env) desk (Machine.eval host evaluator expr env desk.state) := by
  unfold Lapses.eval Machine.eval
  cases form : expr.form with
  | var slot => exact (settle _ legible).bind fun _ after _ legible => ⟨rfl, legible⟩
  | data ordinal name args => exact (suspendAll env args legible).bind fun _ after _ legible => ⟨rfl, legible⟩
  | lambda code captures => exact (settle _ legible).bind fun _ after _ legible => ⟨rfl, legible⟩
  | apply fn args =>
    simp only
    split
    · exact ⟨rfl, legible⟩
    · refine (suspendAll env args legible).bind fun handles middle _ legible => ?_
      exact (push rfl legible).bind fun _ after _ legible => ⟨rfl, legible⟩
  | primitive op args =>
    simp only
    split
    · rename_i counted
      exact nextOperand rfl ((Nat.zero_add _).trans counted) legible
    · exact settle (.error _) legible
  | host fn args =>
    simp only
    split
    · exact nextOperand rfl trivial legible
    · exact settle (.error _) legible
  | choose scrutinee alternatives otherwise =>
    have framed : (Record.choose expr env).frame? = some (.choose alternatives otherwise env) := by
      simp only [Record.frame?, form]
    exact (push framed legible).bind fun _ after _ legible => ⟨rfl, legible⟩
  | letrec bindings body => exact (bindAll env bindings legible).bind fun _ after _ legible => ⟨rfl, legible⟩
  | seq first second => exact (push rfl legible).bind fun _ after _ legible => ⟨rfl, legible⟩
  | raise message => exact settle (.error _) legible
  | _ => exact ⟨rfl, legible⟩

theorem update {node : Handle} (whnf : Whnf) (held : desk.world.heap.state node = .ok (.inProgress evaluator.actor))
    (legible : desk.Legible) :
    ComesTo host (Lapses.update evaluator node whnf) desk (Machine.update evaluator node whnf desk.state) := by
  obtain ⟨⟨_, content⟩, found, rfl⟩ := Heap.lookup_of_state held
  obtain ⟨heap, written, _⟩ := complete_held (updatePayload node whnf).1 found
  have went : Machine.onHeap (Heap.complete node evaluator.actor (updatePayload node whnf).1) desk.state =
      .ok true { desk.state with world := { desk.state.world with heap := heap } } := onHeap_ok written
  refine (complete (updatePayload node whnf).1 legible).bind fun done middle answered legible => ?_
  rw [went] at answered
  obtain ⟨rfl, _⟩ := EStateM.Result.ok.inj answered
  exact (modifyWorld _ legible).bind fun _ last _ legible => ⟨rfl, legible⟩

theorem resume {record : Record} {frame : Frame} {whnf : Whnf} {spot : Spot}
    (fits : Fits evaluator.actor (.deliver whnf) { spot with records := record :: spot.records })
    (heap : spot.heap = desk.world.heap) (framed : record.frame? = some frame) (legible : desk.Legible) :
    ComesTo host (Lapses.resume evaluator record whnf) desk (Machine.resume host evaluator frame whnf desk.state) := by
  have ready := fits.landing
  rcases ready.shape.cases with ⟨node, rfl, _⟩ | ⟨links, rfl, _⟩ | ⟨plain, _⟩
  · cases framed
    have held : spot.heap.state node = .ok (.inProgress evaluator.actor) := ready.held node (List.mem_cons_self ..)
    exact update whnf (heap ▸ held) legible
  · cases framed
    match whnf, fits with
    | ⟨none, node⟩, ⟨_, ready⟩ => exact ready.shape.not_redirect.elim
    | ⟨some target, node⟩, _ => exact (redirectAll links target legible).bind fun _ after _ legible => ⟨rfl, legible⟩
  · cases record with
    | update node => exact plain.elim
    | redirect links => exact plain.elim
    | apply args =>
      cases framed
      exact apply whnf.node args legible
    | primitive op operands =>
      cases framed
      have counted : (Record.primitive op { operands with done := operands.done ++ [whnf.node] }).Counted := by
        simp only [Record.Counted, List.length_append, List.length_singleton]
        exact plain
      exact nextOperand rfl counted legible
    | host fn operands =>
      cases framed
      have counted : (Record.host fn { operands with done := operands.done ++ [whnf.node] }).Counted := trivial
      exact nextOperand rfl counted legible
    | choose case env =>
      obtain ⟨_, alternatives, otherwise, form⟩ := plain
      simp only [Record.frame?, form] at framed
      cases framed
      simp only [Lapses.resume, Lapses.select, form]
      exact settle _ legible
    | seq next env =>
      cases framed
      exact ⟨rfl, legible⟩

/-! ### Demanding -/

theorem enter (links : List Handle) (node : Handle) (expr : Expr) (env : Env) (legible : desk.Legible) :
    ComesTo host (Lapses.enter evaluator links node expr env) desk
      (Machine.enter evaluator links node expr env desk.state) := by
  cases links with
  | nil => exact (push rfl legible).bind fun _ after _ legible => ⟨rfl, legible⟩
  | cons link links =>
    refine (push rfl legible).bind fun _ middle _ legible => ?_
    exact (push rfl legible).bind fun _ after _ legible => ⟨rfl, legible⟩

/-! ### The end of a chain -/

variable {passed : List Handle} {current : Handle} {slot : Slot}

theorem walk_solid (found : desk.world.heap.lookup current = .ok slot) (solid : ∀ target, slot.node ≠ .indirection target)
    (proper : slot.Proper) (legible : desk.Legible) :
    ComesTo host (walk evaluator passed current) desk
      ((do return .turn (← demandAt evaluator ⟨passed.reverse, .at current slot⟩) : MachineM σ Pace) desk.state) := by
  obtain ⟨state, node⟩ := slot
  have seen : (do Machine.settle ((← getHeap).node current) : MachineM σ Node) desk.state = .ok node desk.state := by
    have present : desk.world.heap.node current = .ok node := by simp [Heap.node, found, Except.map]
    exact congrArg (Machine.settle · desk.state) present
  refine looked seen ?_
  cases node with
  | indirection target => exact absurd rfl (solid target)
  | thunk expr env =>
    simp only [demandAt, bind_assoc]
    rcases tryClaim_cases found evaluator.actor with ⟨_, tried⟩ | ⟨taken, tried⟩
    · have claims : Machine.onHeap (tryClaim current evaluator.actor) desk.state = _ := onHeap_ok tried
      have claimed : Machine.onHeap (Heap.claim current evaluator.actor) desk.state = _ := onHeap_ok (tryClaim_answer tried)
      rw [bind_ok claimed]
      refine acted claims ?_
      exact (enter passed.reverse current expr env (legible.refresh _)).bind fun _ after _ legible => ⟨rfl, legible⟩
    · have refuses : Machine.onHeap (tryClaim current evaluator.actor) desk.state = .ok (some state) desk.state :=
        onHeap_ok tried
      have refused : Machine.onHeap (Heap.claim current evaluator.actor) desk.state = .ok false desk.state :=
        onHeap_ok (tryClaim_answer tried)
      rw [bind_ok refused]
      refine looked refuses ?_
      cases state with
      | unevaluated => exact absurd rfl taken
      | evaluated => exact absurd rfl (proper.mp rfl)
      | inProgress owner =>
        show ComesTo host (if owner = evaluator.actor then _ else _) desk _
        simp only [Bool.false_eq_true, if_false]
        split
        · exact settle (.error _) legible
        · exact (startWait passed.reverse current legible).bind fun _ after _ legible => ⟨rfl, legible⟩
  | _ =>
    simp only [demandAt, bind_assoc, pure_bind]
    exact (redirectAll passed.reverse current legible).bind fun _ after _ legible => ⟨rfl, legible⟩

end ComesTo

end Lapses

end LazyGraph

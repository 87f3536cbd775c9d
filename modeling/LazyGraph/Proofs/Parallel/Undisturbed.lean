import LazyGraph.Proofs.Heap.Assignment
import LazyGraph.Proofs.Heap.Contention
import LazyGraph.Proofs.Parallel.Plans

/-! Plans that nobody disturbs.

When nothing comes between its actions, a plan is the computation of the machine that it was
cut from. A chain takes several plans, one for each node: its links are passed one by one, and
at its end the evaluator does what the machine does with the chain as a whole. -/

set_option autoImplicit false

namespace LazyGraph.Parallel

open Machine

variable {σ α β : Type} {evaluator : Evaluator}

/-! ### Plans -/

namespace Plan

@[simp] theorem alone_pure (value : α) : (pure value : Plan σ α).alone = pure value :=
  rfl

@[simp] theorem alone_once (action : MachineM σ α) : (once action).alone = action :=
  bind_pure action

@[simp] theorem alone_bind (plan : Plan σ β) (next : β → Plan σ α) :
    (plan >>= next).alone = plan.alone >>= fun value => (next value).alone := by
  induction plan with
  | ended value => rfl
  | act action following ih =>
    have later : (fun value => (following value >>= next).alone) =
        fun value => (following value).alone >>= fun value => (next value).alone := funext ih
    show (action >>= fun value => (following value >>= next).alone) = _
    rw [later]
    exact (LawfulMonad.bind_assoc ..).symm

@[simp] theorem alone_map (f : β → α) (plan : Plan σ β) : (f <$> plan).alone = f <$> plan.alone := by
  rw [map_eq_pure_bind, alone_bind, map_eq_pure_bind]
  rfl

@[simp] theorem alone_ite (condition : Prop) [Decidable condition] (yes no : Plan σ α) :
    (if condition then yes else no).alone = if condition then yes.alone else no.alone :=
  apply_ite alone condition yes no

@[simp] theorem alone_mapM (f : β → Plan σ α) (items : List β) :
    (items.mapM f).alone = items.mapM fun item => (f item).alone := by
  induction items with
  | nil => rfl
  | cons head tail ih => simp only [List.mapM_cons, alone_bind, alone_pure, ih]

@[simp] theorem alone_forM (f : β → Plan σ PUnit) (items : List β) :
    (items.forM f).alone = items.forM fun item => (f item).alone := by
  induction items with
  | nil => rfl
  | cons head tail ih => exact (alone_bind _ _).trans (congrArg _ (funext fun _ => ih))

end Plan

open Plan hiding bind_assoc

/-! ### Evaluating and resuming -/

@[simp] theorem alone_suspend (env : Env) (expr : Expr) :
    (suspend env expr : Plan σ Handle).alone = Machine.suspend env expr := by
  simp only [suspend, alone_bind, alone_once, Machine.suspend]
  congr 1
  funext suspension
  cases suspension with
  | existing handle => rfl
  | new node => exact alone_once _

@[simp] theorem alone_suspendAll (env : Env) (exprs : List Expr) :
    (suspendAll env exprs : Plan σ (List Handle)).alone = Machine.suspendAll env exprs := by
  simp only [suspendAll, alone_mapM, alone_suspend, Machine.suspendAll]

@[simp] theorem alone_redirectAll (links : List Handle) (target : Handle) :
    (redirectAll links target : Plan σ Unit).alone = Machine.redirectAll links target := by
  simp only [redirectAll, alone_forM, alone_once, Machine.redirectAll]

@[simp] theorem alone_allocGroup (count : UInt64) (build : List Handle → List Node) :
    (allocGroup count build : Plan σ (List Handle)).alone =
      onHeap (Heap.allocGroup count fun handles heap => (build handles, heap)) := by
  unfold allocGroup Heap.allocGroup
  split
  · rfl
  · simp only [alone_bind, alone_once, alone_pure, onHeap_bind, onHeap_pure]
    rfl

@[simp] theorem alone_bindAll (env : Env) (bindings : List Expr) :
    (bindAll env bindings : Plan σ Env).alone = Machine.bindAll env bindings := by
  simp only [bindAll, alone_bind, alone_allocGroup, alone_once, alone_pure]
  rfl

@[simp] theorem alone_complete (node : Handle) (actor : Actor) (payload : Node) :
    (complete node actor payload : Plan σ Bool).alone = onHeap (Heap.complete node actor payload) := by
  funext state
  simp only [complete, alone_bind, alone_once, alone_pure, alone_ite]
  show (settle (state.world.heap.state node) >>= fun _ => _) state = _
  cases found : state.world.heap.lookup node with
  | error fault =>
    have refused : Heap.transition node (Slot.complete actor payload) state.world.heap = .error fault state.world.heap := by
      simp [Heap.transition, found]
    have missing : state.world.heap.state node = .error fault := by simp [Heap.state, found, Except.map]
    rw [missing]
    exact (onHeap_error (bind_error refused)).symm
  | ok slot =>
    obtain ⟨held, content⟩ := slot
    have known : state.world.heap.state node = .ok held := by simp [Heap.state, found, Except.map]
    rw [known, bind_ok (rfl : settle (.ok held) state = .ok held state)]
    split
    · rename_i owned
      subst owned
      have written : Heap.transition node (Slot.complete actor payload) state.world.heap =
          .ok true (state.world.heap.put node.index.toNat ⟨.evaluated, payload⟩) := by
        simp [Heap.transition, found, Slot.complete]
      have completed : Heap.complete node actor payload state.world.heap =
          .ok true (state.world.heap.put node.index.toNat ⟨.evaluated, payload⟩).notify := bind_ok written
      have marked := mark_ok (((Shared.write_rewrites found payload).lookup node).trans (if_pos rfl))
      rw [Shared.put_put] at marked
      rw [bind_ok (onHeap_ok (write_ok found payload)), bind_ok (onHeap_ok marked), onHeap_ok completed]
      rfl
    · rename_i another
      have refused : Heap.transition node (Slot.complete actor payload) state.world.heap = .ok false state.world.heap := by
        simp [Heap.transition, found, Slot.complete, another]
      have disowned : Heap.complete node actor payload state.world.heap = .ok false state.world.heap.notify :=
        bind_ok refused
      rw [onHeap_ok disowned]
      rfl

@[simp] theorem alone_eval (host : Host σ) (evaluator : Evaluator) (expr : Expr) (env : Env) :
    (eval host evaluator expr env).alone = Machine.eval host evaluator expr env := by
  unfold eval
  split
  · rename_i form
    simp only [alone_bind, alone_suspendAll, alone_pure, Machine.eval, form]
    rfl
  · rename_i form
    simp only [Machine.eval, form]
    split <;> simp
  · rename_i form
    simp only [alone_bind, alone_bindAll, alone_pure, Machine.eval, form]
  · exact alone_once _

@[simp] theorem alone_update (evaluator : Evaluator) (node : Handle) (whnf : Whnf) :
    (update evaluator node whnf : Plan σ Control).alone = Machine.update evaluator node whnf := by
  simp only [update, Machine.update, alone_bind, alone_complete, alone_ite, alone_once, alone_pure]

@[simp] theorem alone_resume (host : Host σ) (evaluator : Evaluator) (frame : Frame) (whnf : Whnf) :
    (resume host evaluator frame whnf).alone = Machine.resume host evaluator frame whnf := by
  cases frame with
  | update node => exact alone_update evaluator node whnf
  | redirect links =>
    simp only [resume, Machine.resume]
    cases whnf.handle? with
    | none => rfl
    | some target => simp
  | _ => exact alone_once _

/-- What a transition has led to, as the pace that an evaluator goes on at. -/
def shown : Progress → Pace ⊕ Handle
  | .continues control => .inl (.turn control)
  | .finished handle => .inr handle

theorem alone_finish (host : Host σ) (evaluator : Evaluator) (whnf : Whnf) :
    (finish host evaluator whnf).alone = shown <$> Machine.finish host evaluator whnf := by
  funext state
  simp only [finish, alone_bind, alone_once]
  cases popped : state.stack.pop? with
  | some top =>
    obtain ⟨frame, below⟩ := top
    have pops : pop state = .ok (some frame) { state with stack := below } := by simp only [pop, popped]
    have finishes : (shown <$> Machine.finish host evaluator whnf) state =
        (shown <$> continuing (Machine.resume host evaluator frame whnf)) { state with stack := below } := by
      simp only [Functor.map, EStateM.map, finish_pops host evaluator whnf popped]
    rw [bind_ok pops, finishes]
    simp only [receive, alone_bind, alone_resume, alone_pure, continuing, map_bind, map_pure, shown]
  | none =>
    have pops : pop state = .ok none state := by simp only [pop, popped]
    rw [bind_ok pops]
    simp only [receive, Machine.finish, map_bind]
    rw [bind_ok (rfl : (get : MachineM σ (State σ)) state = .ok state state), popped]
    cases whnf.handle? with
    | some handle => rfl
    | none => simp only [alone_bind, alone_once, alone_pure, map_bind, map_pure, shown]

/-! ### Waiting -/

@[simp] theorem alone_leadsBack (actor : Actor) (hops : Nat) (current : Handle) :
    (leadsBack actor hops current : Plan σ Bool).alone =
      (do settle ((← getHeap).leadsBack actor hops current) : MachineM σ Bool) := by
  induction hops generalizing current with
  | zero => rfl
  | succ hops ih =>
    funext state
    simp only [leadsBack, alone_bind, alone_once]
    show _ = settle (state.world.heap.leadsBack actor (hops + 1) current) state
    simp only [Heap.leadsBack]
    have reads : getHeap state = .ok state.world.heap state := rfl
    cases known : state.world.heap.state current with
    | error fault =>
      have fails : holder current state = .error fault state := by
        rw [holder, bind_ok reads, known]
        rfl
      exact bind_error fails
    | ok held =>
      cases held with
      | unevaluated | evaluated =>
        have unheld : holder current state = .ok none state := by
          rw [holder, bind_ok reads, known]
          rfl
        exact bind_ok unheld
      | inProgress owner =>
        have looked : holder current state = .ok (some (owner, state.world.heap.waits.lookup owner)) state := by
          rw [holder, bind_ok reads, known]
          rfl
        rw [bind_ok looked]
        dsimp only
        split
        · rfl
        · cases state.world.heap.waits.lookup owner with
          | none => rfl
          | some next => exact congrFun (ih next) state

@[simp] theorem alone_startWait (evaluator : Evaluator) (links : List Handle) (node : Handle) :
    (startWait evaluator links node : Plan σ Control).alone = Machine.startWait evaluator links node := by
  funext state
  simp only [startWait, alone_bind, alone_once, alone_pure, alone_ite, alone_leadsBack]
  show (settle (state.world.heap.leadsBack evaluator.actor (state.world.heap.waits.length + 1) node) >>= fun _ => _) state = _
  unfold Machine.startWait
  cases back : state.world.heap.leadsBack evaluator.actor (state.world.heap.waits.length + 1) node with
  | error fault =>
    have fails : Heap.beginWait evaluator.actor node state.world.heap = .error fault state.world.heap := by
      simp only [Heap.beginWait, back]
    exact (bind_error (onHeap_error fails)).symm
  | ok back' =>
    cases back' with
    | true =>
      have refused : Heap.beginWait evaluator.actor node state.world.heap =
          .error (.nonTermination node) state.world.heap := by
        simp only [Heap.beginWait, back]
      exact (bind_error (onHeap_error refused)).symm
    | false =>
      have entered : Heap.beginWait evaluator.actor node state.world.heap =
          .ok () { state.world.heap with waits := Heap.insertWait evaluator.actor node state.world.heap.waits } := by
        simp only [Heap.beginWait, back]
      rw [bind_ok (onHeap_ok entered)]
      rfl

/-- An evaluator that looks again is stopped, goes on waiting, or follows the chain of what it waited for. -/
theorem resumeWait_cases (evaluator : Evaluator) (links : List Handle) (node : Handle) (state : State σ) :
    (∃ fault, (resumeWait evaluator links node).alone state = .error fault state ∧
      Machine.resumeWait evaluator links node state = .error fault state) ∨
    (∃ after, (resumeWait evaluator links node).alone state = .ok (.turn (.await links node)) after ∧
      Machine.resumeWait evaluator links node state = .ok (.await links node) after) ∨
    ∃ after, (resumeWait evaluator links node).alone state = .ok (.walk links.reverse node) after ∧
      Machine.resumeWait evaluator links node state = demandFrom evaluator links node after ∧
      after.world.heap.entries = state.world.heap.entries := by
  unfold Machine.resumeWait
  cases interrupted : interruption? evaluator state with
  | some limit =>
    have checked : checkInterruption evaluator state = .error (.exhausted limit) state := by
      simp only [checkInterruption, interrupted]
    exact .inl ⟨_, bind_error checked, bind_error checked⟩
  | none =>
    have checked : checkInterruption evaluator state = .ok () state := by
      simp only [checkInterruption, interrupted]
    rw [bind_ok checked, bind_ok (rfl : getHeap state = .ok state.world.heap state)]
    cases known : state.world.heap.state node with
    | error fault =>
      have settled : settle (state.world.heap.state node) state = .error fault state := congrArg (settle · state) known
      exact .inl ⟨fault, (bind_ok checked).trans (bind_error settled), rfl⟩
    | ok held =>
      have settled : settle (state.world.heap.state node) state = .ok held state := congrArg (settle · state) known
      have looked : (resumeWait evaluator links node).alone state = Plan.alone (
          if held.heldByOther evaluator.actor then do
            once (modifyWorld (·.pass evaluator.settings.pollInterval.toNat))
            return .turn (.await links node)
          else do
            once (modifyWorld fun world => { world with heap := world.heap.endWait evaluator.actor })
            return .walk links.reverse node) state := (bind_ok checked).trans (bind_ok settled)
      rw [looked, bind_ok (rfl : settle (.ok held) state = .ok held state)]
      cases held.heldByOther evaluator.actor with
      | true => exact .inr (.inl ⟨_, rfl, rfl⟩)
      | false => exact .inr (.inr ⟨_, rfl, rfl, rfl⟩)

/-! ### Chains -/

def demandAt (evaluator : Evaluator) (chain : Chain) : MachineM σ Control :=
  match chain.landing with
  | .broken fault => throw fault
  | .loop handle => throw (.nonTermination handle)
  | .at handle slot =>
    match slot.node with
    | .thunk expr env => do
      if ← onHeap (Heap.claim handle evaluator.actor) then
        Machine.enter evaluator chain.links handle expr env
      else match slot.state with
        | .inProgress owner =>
          if owner = evaluator.actor then throw (.nonTermination handle)
          else Machine.startWait evaluator chain.links handle
        | _ => return .await chain.links handle
    | node => do
      Machine.redirectAll chain.links handle
      return .deliver (.stored handle node)

theorem demandFrom_eq (passed : List Handle) (start : Handle) (state : State σ) :
    demandFrom evaluator passed start state = demandAt evaluator (state.world.heap.followOn passed start) state :=
  rfl

/-- The chain that goes on from a handle after the indirections passed, last first. -/
inductive Unrolls (heap : Heap) : List Handle → Handle → Chain → Prop where
  | broken {passed : List Handle} {current : Handle} {fault : Fault} (missing : heap.lookup current = .error fault) :
      Unrolls heap passed current ⟨passed.reverse, .broken fault⟩
  | loop {passed : List Handle} {current target : Handle} {state : SlotState}
      (found : heap.lookup current = .ok ⟨state, .indirection target⟩) (met : current ∈ passed) :
      Unrolls heap passed current ⟨passed.reverse, .loop current⟩
  | link {passed : List Handle} {current target : Handle} {state : SlotState} {chain : Chain}
      (found : heap.lookup current = .ok ⟨state, .indirection target⟩) (unmet : current ∉ passed)
      (rest : Unrolls heap (current :: passed) target chain) : Unrolls heap passed current chain
  | lands {passed : List Handle} {current : Handle} {slot : Slot} (found : heap.lookup current = .ok slot)
      (solid : ∀ target, slot.node ≠ .indirection target) : Unrolls heap passed current ⟨passed.reverse, .at current slot⟩

/-- The marks tell which live handles have been passed. -/
def Tells (heap : Heap) (marks : Marks) (passed : List Handle) : Prop :=
  ∀ handle slot, heap.lookup handle = .ok slot → (marks.contains handle.index.toNat = true ↔ handle ∈ passed)

theorem Tells.insert {heap : Heap} {marks : Marks} {passed : List Handle} {current : Handle} {slot : Slot}
    (tells : Tells heap marks passed) (found : heap.lookup current = .ok slot) :
    Tells heap (marks.insert current.index.toNat) (current :: passed) := by
  intro handle other live
  rw [Marks.contains_insert, Bool.or_eq_true, beq_iff_eq, tells handle other live, List.mem_cons]
  exact or_congr_left ⟨fun same => (Heap.eq_of_lookup found live same).symm, fun same => same ▸ rfl⟩

theorem Tells.passed {heap : Heap} {passed : List Handle} (live : ∀ link ∈ passed, heap.Live link) :
    Tells heap (passed.foldl (fun marks link => marks.insert link.index.toNat) .empty) passed.reverse := by
  intro handle slot found
  rw [Heap.contains_passed, List.mem_reverse]
  constructor
  · rintro (none | ⟨link, member, index⟩)
    · simp at none
    · obtain ⟨slot', found'⟩ := live link member
      exact Heap.eq_of_lookup found' found index ▸ member
  · exact fun member => .inr ⟨handle, member, rfl⟩

theorem Tells.unrolls {heap : Heap} {marks : Marks} {passed : List Handle} (tells : Tells heap marks passed)
    (current : Handle) : Unrolls heap passed current (heap.followFrom marks passed current) := by
  fun_induction Heap.followFrom heap marks passed current with
  | case1 marks passed current fault found => exact .broken found
  | case2 marks passed current slot found target isLink met =>
    obtain ⟨state, node⟩ := slot
    cases isLink
    exact .loop found ((tells current _ found).mp met)
  | case3 marks passed current slot found target isLink unmet ih =>
    obtain ⟨state, node⟩ := slot
    cases isLink
    exact .link found (fun member => unmet ((tells current _ found).mpr member)) (ih (tells.insert found))
  | case4 marks passed current slot found solid => exact .lands found fun target link => solid target link

theorem unrolls_followOn {heap : Heap} {passed : List Handle} (live : ∀ link ∈ passed, heap.Live link) (start : Handle) :
    Unrolls heap passed.reverse start (heap.followOn passed start) :=
  (Tells.passed live).unrolls start

section

variable {passed : List Handle} {current target : Handle} {slot : Slot} {state : State σ}

theorem walk_broken {fault : Fault} (evaluator : Evaluator) (passed : List Handle)
    (missing : state.world.heap.lookup current = .error fault) :
    (walk evaluator passed current).alone state = .error fault state := by
  have stops : (do settle ((← getHeap).node current) : MachineM σ Node) state = .error fault state := by
    have absent : state.world.heap.node current = .error fault := by simp [Heap.node, missing, Except.map]
    exact congrArg (settle · state) absent
  exact bind_error stops

theorem walk_reads (evaluator : Evaluator) (passed : List Handle) (found : state.world.heap.lookup current = .ok slot) :
    (walk evaluator passed current).alone state = Plan.alone (match slot.node with
      | .indirection target =>
        if current ∈ passed then once (throw (.nonTermination current))
        else return .walk (current :: passed) target
      | .thunk expr env => do
        match ← once (onHeap (tryClaim current evaluator.actor)) with
        | none => return .turn (← once (enter evaluator passed.reverse current expr env))
        | some (.inProgress owner) =>
          if owner = evaluator.actor then once (throw (.nonTermination current))
          else return .turn (← startWait evaluator passed.reverse current)
        | some _ => return .walk passed current
      | node => do
        redirectAll passed.reverse current
        return .turn (.deliver (.stored current node))) state := by
  have reads : (do settle ((← getHeap).node current) : MachineM σ Node) state = .ok slot.node state := by
    have present : state.world.heap.node current = .ok slot.node := by simp [Heap.node, found, Except.map]
    exact congrArg (settle · state) present
  exact bind_ok reads

theorem walk_loop {held : SlotState} (evaluator : Evaluator)
    (found : state.world.heap.lookup current = .ok ⟨held, .indirection target⟩)
    (met : current ∈ passed) : (walk evaluator passed current).alone state = .error (.nonTermination current) state := by
  rw [walk_reads evaluator passed found]
  simp only [if_pos met]
  rfl

theorem walk_link {held : SlotState} (evaluator : Evaluator)
    (found : state.world.heap.lookup current = .ok ⟨held, .indirection target⟩)
    (unmet : current ∉ passed) :
    (walk evaluator passed current).alone state = .ok (.walk (current :: passed) target) state := by
  rw [walk_reads evaluator passed found]
  simp only [if_neg unmet]
  rfl

/-- At the end of the chain the evaluator does what the machine does. -/
theorem walk_lands (evaluator : Evaluator) (passed : List Handle)
    (found : state.world.heap.lookup current = .ok slot) (solid : ∀ target, slot.node ≠ .indirection target)
    (proper : slot.Proper) :
    (walk evaluator passed current).alone state =
      (Pace.turn <$> demandAt evaluator ⟨passed.reverse, .at current slot⟩) state := by
  rw [walk_reads evaluator passed found]
  obtain ⟨held, node⟩ := slot
  cases node with
  | indirection target => exact absurd rfl (solid target)
  | thunk expr env =>
    simp only [demandAt, map_bind, alone_bind, alone_once]
    rcases tryClaim_cases found evaluator.actor with ⟨_, tried⟩ | ⟨taken, tried⟩
    · rw [bind_ok (onHeap_ok tried), bind_ok (onHeap_ok (tryClaim_answer tried))]
      simp only [Option.isNone_none, if_true, alone_bind, alone_once, alone_pure, map_eq_pure_bind]
    · rw [bind_ok (onHeap_ok tried), bind_ok (onHeap_ok (tryClaim_answer tried))]
      simp only [Option.isNone_some, Bool.false_eq_true, if_false]
      cases held with
      | unevaluated => exact absurd rfl taken
      | evaluated => exact absurd rfl (proper.mp rfl)
      | inProgress owner =>
        simp only [alone_ite]
        split
        · rfl
        · simp only [alone_bind, alone_startWait, alone_pure, map_eq_pure_bind]
  | _ => simp only [demandAt, map_bind, map_pure, alone_bind, alone_pure, alone_redirectAll]

end

end LazyGraph.Parallel

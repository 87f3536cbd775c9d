import LazyGraph.Proofs.Heap.WellFormed
import LazyGraph.Proofs.Machine.Markers

/-! What evaluation asks of the live handles, and what it gives in return.

A condition on the live handles is kept when more handles come alive, so it lasts from
one part of a computation to the next. A computation meets a contract when, wherever its
condition holds of a well-formed heap, it leaves such a heap whatever happens, gives what
it promises, and finds no fault in the graph. -/

set_option autoImplicit false

namespace LazyGraph

/-! ### Conditions -/

structure Condition where
  holds : (live : Handle → Prop) → Prop
  mono : ∀ {live wider : Handle → Prop}, (∀ handle, live handle → wider handle) → holds live → holds wider

namespace Condition

def fact (statement : Prop) : Condition where
  holds _ := statement
  mono _ := id

def live (handle : Handle) : Condition where
  holds live := live handle
  mono widens := widens handle

def inScope (expr : Expr) (size : Nat) : Condition where
  holds live := expr.Scoped live size
  mono widens held := held.mono widens (Nat.le_refl _)

def node (node : Node) : Condition where
  holds live := node.WellFormed live
  mono widens held := held.mono widens

def and (left right : Condition) : Condition where
  holds live := left.holds live ∧ right.holds live
  mono widens both := ⟨left.mono widens both.1, right.mono widens both.2⟩

def each {α : Type} (items : List α) (condition : α → Condition) : Condition where
  holds live := ∀ item ∈ items, (condition item).holds live
  mono widens every item member := (condition item).mono widens (every item member)

def closure (expr : Expr) (env : Env) : Condition :=
  (each env live).and (inScope expr env.length)

end Condition

def Suspension.sound : Suspension → Condition
  | .existing handle => .live handle
  | .new node => .node node

/-- Operands that are evaluated are well-formed, and those to come can be evaluated. -/
def Operands.sound (operands : Operands) : Condition :=
  (Condition.each operands.done .node).and <|
    (Condition.each operands.env .live).and (.each operands.pending (.inScope · operands.env.length))

def Callee.arity : Callee → Nat
  | .primitive op => op.arity
  | .host fn => fn.arity.toNat

/-- An alternative sees the fields that it binds after the environment. -/
def Frame.sound : Frame → Condition
  | .update _ => .fact True
  | .redirect links => .each links .live
  | .apply args => .each args .live
  -- one more operand is being evaluated
  | .call callee operands =>
    operands.sound.and (.fact (operands.done.length + 1 + operands.pending.length = callee.arity))
  | .choose alternatives otherwise env =>
    (Condition.each env .live).and <|
      (Condition.each alternatives fun alternative =>
        .inScope alternative.body (env.length + alternative.binds.toNat)).and
      (.each otherwise.toList (.inScope · env.length))
  | .seq next env => .closure next env

def Control.sound : Control → Condition
  | .eval expr env => .closure expr env
  | .force handle => .live handle
  | .deliver whnf => (Condition.node whnf.node).and (.each whnf.handle?.toList .live)
  | .await links node => (Condition.each links .live).and (.live node)

/-- The fault does not lie in the graph, unless an alternative binds another number of
fields than its value has. -/
def Fault.Acceptable (fault : Fault) : Prop :=
  ∀ defect, fault = .malformed defect →
    ∃ ordinal binds fields, defect = .fieldCount ordinal binds fields ∧ binds.toNat ≠ fields

theorem Fault.acceptable_of_ne {fault : Fault} (elsewhere : ∀ defect, fault ≠ .malformed defect) :
    fault.Acceptable :=
  fun defect same => absurd same (elsewhere defect)

theorem Fault.exhausted_acceptable (limit : Limit) : (Fault.exhausted limit).Acceptable :=
  acceptable_of_ne nofun

theorem Fault.nonTermination_acceptable (node : Handle) : (Fault.nonTermination node).Acceptable :=
  acceptable_of_ne nofun

/-- Host functions keep a heap well-formed, return well-formed nodes and find no fault in
the graph. -/
structure Host.Behaves {σ : Type} (host : Host σ) : Prop where
  returns : ∀ {fn operands world node after}, host.call fn operands world = .ok node after →
    after.heap.Addressable → world.heap.WellFormed → operands.length = fn.arity.toNat →
    (∀ operand ∈ operands, operand.WellFormed world.heap.Live) →
    after.heap.WellFormed ∧ node.WellFormed after.heap.Live
  fails : ∀ {fn operands world fault after}, host.call fn operands world = .error fault after →
    after.heap.Addressable → world.heap.WellFormed → operands.length = fn.arity.toNat →
    (∀ operand ∈ operands, operand.WellFormed world.heap.Live) →
    after.heap.WellFormed ∧ ∀ defect, fault ≠ .malformed defect

theorem Heap.Kept.widens {law : SlotLaw} {before after : Heap} (kept : Kept law before after) (handle : Handle)
    (live : before.Live handle) : after.Live handle := by
  obtain ⟨slot, found⟩ := live
  obtain ⟨slot', found', _⟩ := kept.live found
  exact ⟨slot', found'⟩

namespace Machine

variable {σ α β : Type}

/-! ### Contracts -/

structure Formed (state : State σ) : Prop where
  heap : state.world.heap.WellFormed
  frames : ∀ frame ∈ state.stack.items, frame.sound.holds state.world.heap.Live

-- How a computation may end.
def Lands (gives : α → Condition) : EStateM.Result Fault (State σ) α → Prop
  | .ok value after => Formed after ∧ (gives value).holds after.world.heap.Live
  | .error fault after => after.world.heap.WellFormed ∧ fault.Acceptable

/-- Where `needs` holds of a well-formed heap, the computation gives what `gives` says or
faults acceptably, and it leaves the claims of the actor alone. -/
structure Meets (actor : Actor) (needs : Condition) (computation : MachineM σ α) (gives : α → Condition) : Prop where
  works : Moves (Works (SlotLaw.sparing actor).motion.along) computation
  lands : ∀ {state}, Formed state → needs.holds state.world.heap.Live →
    (computation state).state.world.heap.Addressable → Lands gives (computation state)

variable {actor : Actor} {needs needs' : Condition} {gives : α → Condition} {between : β → Condition}
  {state after : State σ}

theorem Formed.moved (formed : Formed state) (stack : after.stack = state.stack)
    (widens : ∀ handle, state.world.heap.Live handle → after.world.heap.Live handle)
    (heap : after.world.heap.WellFormed) : Formed after where
  heap := heap
  frames := by
    rw [stack]
    exact fun frame member => frame.sound.mono widens (formed.frames frame member)

namespace Meets

theorem pure {value : α} (held : ∀ live, needs.holds live → (gives value).holds live) :
    Meets actor needs (Pure.pure value : MachineM σ α) gives where
  works := Moves.pure value
  lands := fun formed needed _ => ⟨formed, held _ needed⟩

theorem throw {fault : Fault} (acceptable : ∀ live, needs.holds live → fault.Acceptable) :
    Meets actor needs (MonadExcept.throw fault : MachineM σ α) gives where
  works := Moves.throw fault
  lands := fun formed needed _ => ⟨formed.heap, acceptable _ needed⟩

theorem settle {outcome : Except Fault α}
    (settled : ∀ live, needs.holds live → match outcome with
      | .ok value => (gives value).holds live
      | .error fault => fault.Acceptable) :
    Meets actor needs (Machine.settle (σ := σ) outcome) gives := by
  cases outcome with
  | ok value => exact .pure settled
  | error fault => exact .throw settled

theorem weaken {computation : MachineM σ α} (meets : Meets actor needs computation gives)
    (implies : ∀ live, needs'.holds live → needs.holds live) : Meets actor needs' computation gives where
  works := meets.works
  lands := fun formed needed => meets.lands formed (implies _ needed)

theorem also {computation : MachineM σ α} (meets : Meets actor needs computation gives) (extra : Condition) :
    Meets actor (extra.and needs) computation gives :=
  meets.weaken fun _ both => both.2

theorem bind {first : MachineM σ β} {next : β → MachineM σ α} (firstMeets : Meets actor needs first between)
    (nextMeets : ∀ value, Meets actor ((between value).and needs) (next value) gives) :
    Meets actor needs (first >>= next) gives where
  works := firstMeets.works.bind fun value => (nextMeets value).works
  lands := by
    intro state formed needed fits
    have moved := firstMeets.works state
    cases ended : first state with
    | error fault middle =>
      rw [bind_error ended] at fits ⊢
      have early := firstMeets.lands formed needed (ended ▸ fits)
      rw [ended] at early
      exact early
    | ok value middle =>
      rw [bind_ok ended] at fits ⊢
      have grows := Heap.Drift.grows ((nextMeets value).works middle).heap
      have fits' := fits.mono grows
      have early := firstMeets.lands formed needed (ended ▸ fits')
      rw [ended] at early moved
      have kept := Heap.Drift.kept moved.heap fits' formed.heap.free
      exact (nextMeets value).lands early.1 ⟨early.2, needs.mono kept.widens needed⟩ fits

theorem mapM {f : β → MachineM σ α} (items : List β) (eachMeets : ∀ item ∈ items, Meets actor needs (f item) gives) :
    Meets actor needs (items.mapM f) fun values => .each values gives := by
  induction items with
  | nil => exact .pure fun _ _ => nofun
  | cons head tail ih =>
    rw [List.mapM_cons]
    have rest := ih fun item member => eachMeets item (.tail _ member)
    refine (eachMeets head (.head _)).bind fun first => (rest.also _).bind fun values => .pure ?_
    rintro live ⟨every, here, _⟩
    exact List.forall_mem_cons.mpr ⟨here, every⟩

theorem forM {f : β → MachineM σ PUnit} (items : List β)
    (eachMeets : ∀ item ∈ items, Meets actor needs (f item) fun _ => .fact True) :
    Meets actor needs (items.forM f) fun _ => .fact True := by
  induction items with
  | nil => exact .pure fun _ _ => trivial
  | cons head tail ih =>
    have rest := ih fun item member => eachMeets item (.tail _ member)
    exact (eachMeets head (.head _)).bind fun _ => rest.also _

end Meets

/-! ### Frames and nodes -/

theorem push_meets (evaluator : Evaluator) {frame : Frame} (plain : frame.isPlain) :
    Meets actor frame.sound (push (σ := σ) evaluator frame) fun _ => .fact True where
  works := push_works evaluator plain
  lands := by
    intro state formed sound _
    unfold push
    split
    · exact ⟨formed.heap, Fault.exhausted_acceptable _⟩
    · exact ⟨⟨formed.heap, List.forall_mem_cons.mpr ⟨sound, formed.frames⟩⟩, trivial⟩

theorem alloc_meets (node : Node) :
    Meets actor (.node node) (onHeap (σ := σ) (Heap.alloc node)) Condition.live where
  works := onHeap_works (Course.alloc node)
  lands := by
    intro state formed sound fits
    rcases Heap.alloc_cases node state.world.heap with ⟨handle, heap, ended, enlarges⟩ | ⟨limit, refused⟩
    · rw [onHeap_ok ended] at fits ⊢
      obtain ⟨_, gains⟩ := enlarges.result fits formed.heap.free
      have formed' := formed.heap.alloc sound
      rw [ended] at formed'
      exact ⟨formed.moved rfl gains.widens (formed' fits), _, gains.filled (.head _)⟩
    · rw [onHeap_error refused]
      exact ⟨formed.heap, Fault.exhausted_acceptable _⟩

theorem redirect_meets (link target : Handle) :
    Meets actor ((Condition.live link).and (.live target)) (onHeap (σ := σ) (Heap.redirect link target))
      fun _ => .fact True where
  works := onHeap_works ((SlotLaw.sparing actor).motion.redirect link target)
  lands := by
    rintro state formed ⟨linkLive, targetLive⟩ fits
    have drift : Heap.Drift (.sparing actor) state.world.heap _ := Heap.redirect_drifts link target state.world.heap
    obtain ⟨done, heap, redirected, formed'⟩ := formed.heap.redirect linkLive targetLive
    rw [onHeap_ok redirected] at fits ⊢
    rw [redirected] at drift
    exact ⟨formed.moved rfl (drift.kept fits formed.heap.free).widens formed', trivial⟩

theorem redirectAll_meets (links : List Handle) (target : Handle) :
    Meets actor ((Condition.each links .live).and (.live target)) (redirectAll (σ := σ) links target)
      fun _ => .fact True := by
  refine .forM links fun link member => ?_
  refine Meets.bind ((redirect_meets link target).weaken ?_) fun _ => .pure fun _ _ => trivial
  exact fun live both => ⟨both.1 link member, both.2⟩

/-! ### Suspending and binding -/

theorem suspend_meets (env : Env) (expr : Expr) :
    Meets actor (.closure expr env) (suspend (σ := σ) env expr) Condition.live := by
  have suspended : Meets actor (.closure expr env) (settle (σ := σ) (env.suspend expr)) Suspension.sound := by
    refine .settle fun live needed => ?_
    rcases Env.suspend_scoped needed.1 needed.2 with ⟨handle, same, named⟩ | ⟨node, same, formed⟩
    · rw [same]
      exact named
    · rw [same]
      exact formed
  refine suspended.bind fun suspension => ?_
  cases suspension with
  | existing handle => exact .pure fun live needed => needed.1
  | new node => exact (alloc_meets node).weaken fun live needed => needed.1

theorem suspendAll_meets (env : Env) (exprs : List Expr) :
    Meets actor ((Condition.each env .live).and (.each exprs (.inScope · env.length)))
      (suspendAll (σ := σ) env exprs) fun handles => .each handles .live :=
  .mapM exprs fun expr member => (suspend_meets env expr).weaken fun _ needed => ⟨needed.1, needed.2 expr member⟩

-- The nodes of recursive bindings, once their handles are known.
def bindingNodes (env : Env) (bindings : List Expr) (handles : List Handle) : List Node :=
  bindings.map fun binding => ((env ++ handles).binding binding).toOption.getD .invalid

theorem bindingNodes_formed {env : Env} {bindings : List Expr} {handles : List Handle} {live : Handle → Prop}
    (scopeLive : ∀ handle ∈ env ++ handles, live handle)
    (each : ∀ binding ∈ bindings, binding.Scoped live (env ++ handles).length) :
    ∀ node ∈ bindingNodes env bindings handles, node.WellFormed live := by
  intro node member
  obtain ⟨binding, listed, rfl⟩ := List.mem_map.mp member
  obtain ⟨node, built, formed⟩ := Env.binding_scoped scopeLive (each binding listed)
  rw [built]
  exact formed

theorem allocGroup_meets {env : Env} {bindings : List Expr} (short : bindings.length < UInt64.size) :
    Meets actor ((Condition.each env .live).and (.each bindings (.inScope · (env.length + bindings.length))))
      (onHeap (σ := σ) (Heap.allocGroup (UInt64.ofNat bindings.length) fun handles heap =>
        (bindingNodes env bindings handles, heap)))
      fun handles => (Condition.each handles .live).and (.fact (handles.length = bindings.length)) where
  works := onHeap_works (Course.allocGroup _ _ fun _ _ => rfl)
  lands := by
    have counted : (UInt64.ofNat bindings.length).toNat = bindings.length := UInt64.toNat_ofNat_of_lt' short
    have exactly : ∀ handles, (bindingNodes env bindings handles).length = (UInt64.ofNat bindings.length).toNat := by
      simp [bindingNodes, counted]
    rintro state formed ⟨envLive, each⟩ fits
    rcases Heap.allocGroup_built exactly state.world.heap with ⟨handles, heap, length, ended, enlarges⟩ | ⟨limit, refused⟩
    · rw [onHeap_ok ended] at fits ⊢
      rw [counted] at length
      obtain ⟨_, gains⟩ := enlarges.result fits formed.heap.free
      have handlesLive : ∀ handle ∈ handles, heap.Live handle := by
        intro handle member
        have paired : (handles.zip (bindingNodes env bindings handles)).map Prod.fst = handles :=
          List.map_fst_zip (by simp [bindingNodes, length])
        rw [← paired] at member
        obtain ⟨⟨_, node⟩, added, rfl⟩ := List.mem_map.mp member
        exact ⟨_, gains.filled added⟩
      have scopeLive : ∀ handle ∈ env ++ handles, heap.Live handle :=
        List.forall_mem_append.mpr ⟨fun handle member => gains.widens handle (envLive handle member), handlesLive⟩
      have formed' : heap.WellFormed := by
        refine formed.heap.enlarges enlarges fits fun added => ?_
        refine bindingNodes_formed scopeLive (fun binding member => ?_) _ (List.of_mem_zip added).2
        exact (each binding member).mono gains.widens (by simp [length])
      exact ⟨formed.moved rfl gains.widens formed', handlesLive, length⟩
    · rw [onHeap_error refused]
      exact ⟨formed.heap, Fault.exhausted_acceptable _⟩

theorem bindAll_meets {env : Env} {bindings : List Expr} (short : bindings.length < UInt64.size) :
    Meets actor ((Condition.each env .live).and (.each bindings (.inScope · (env.length + bindings.length))))
      (bindAll (σ := σ) env bindings)
      fun scope => (Condition.each scope .live).and (.fact (scope.length = env.length + bindings.length)) := by
  refine (allocGroup_meets short).bind fun handles => ?_
  have sound : ∀ live, (((Condition.each handles .live).and (.fact (handles.length = bindings.length))).and
      ((Condition.each env .live).and (.each bindings (.inScope · (env.length + bindings.length))))).holds live →
      (∀ handle ∈ env ++ handles, live handle) ∧ (env ++ handles).length = env.length + bindings.length := by
    rintro live ⟨⟨handlesLive, length⟩, envLive, _⟩
    exact ⟨List.forall_mem_append.mpr ⟨envLive, handlesLive⟩, List.length_append.trans (congrArg (env.length + ·) length)⟩
  refine Meets.bind (.settle fun live needed => ?_ : Meets _ _ _ fun _ => .fact True) fun _ => .pure fun live needed => ?_
  · obtain ⟨scopeLive, length⟩ := sound live needed
    obtain ⟨nodes, built, _⟩ := mapM_ok bindings fun binding member =>
      Env.binding_scoped scopeLive (length ▸ needed.2.2 binding member)
    rw [built]
    trivial
  · exact sound live needed.2

/-! ### Calls -/

theorem deliver_meets {node : Node} (formed : ∀ live, needs.holds live → node.WellFormed live) :
    Meets actor needs (deliver (σ := σ) node) Control.sound :=
  .pure fun live needed => ⟨formed live needed, nofun⟩

theorem answer_meets (result : Node) : Meets actor (.node result) (answer (σ := σ) result) Control.sound := by
  unfold answer
  split
  · exact deliver_meets fun live formed => formed
  · exact (alloc_meets result).bind fun handle => .pure fun live needed => needed.1

variable {host : Host σ} (lawful : host.Follows (SlotLaw.sparing actor).motion) (behaves : host.Behaves)

include lawful behaves

theorem hostCall_meets (fn : HostFn) (operands : List Node) :
    Meets actor ((Condition.each operands .node).and (.fact (operands.length = fn.arity.toNat)))
      (onWorld (host.call fn operands)) Condition.node where
  works := onWorld_works (lawful fn operands)
  lands := by
    rintro state formed ⟨each, counted⟩ fits
    have drift : Heap.Drift (.sparing actor) state.world.heap _ := lawful fn operands state.world
    unfold onWorld at fits ⊢
    cases called : host.call fn operands state.world with
    | ok node world =>
      rw [called] at drift fits
      obtain ⟨formed', sound⟩ := behaves.returns called fits formed.heap counted each
      exact ⟨formed.moved rfl (drift.kept fits formed.heap.free).widens formed', sound⟩
    | error fault world =>
      rw [called] at fits
      obtain ⟨formed', elsewhere⟩ := behaves.fails called fits formed.heap counted each
      exact ⟨formed', Fault.acceptable_of_ne elsewhere⟩

theorem callStrict_meets (callee : Callee) (operands : List Node) :
    Meets actor ((Condition.each operands .node).and (.fact (operands.length = callee.arity)))
      (callStrict host callee operands) Control.sound := by
  cases callee with
  | primitive op =>
    rw [callStrict_primitive]
    refine Meets.bind (.settle fun live needed => ?_ : Meets _ _ _ Condition.node) fun result => ?_
    · rcases Primitive.execute_cases needed.2 with ⟨node, executed, formed⟩ | ⟨fault, failed, elsewhere⟩
      · rw [executed]
        exact formed
      · rw [failed]
        exact Fault.acceptable_of_ne elsewhere
    · exact (answer_meets result).weaken fun live needed => needed.1
  | host fn =>
    rw [callStrict_host]
    refine (hostCall_meets lawful behaves fn operands).bind fun result => ?_
    exact (answer_meets result).weaken fun live needed => needed.1

theorem nextOperand_meets (evaluator : Evaluator) (callee : Callee) (operands : Operands) :
    Meets actor (operands.sound.and (.fact (operands.done.length + operands.pending.length = callee.arity)))
      (nextOperand host evaluator callee operands) Control.sound := by
  obtain ⟨done, pending, env⟩ := operands
  cases pending with
  | cons expr pending =>
    refine Meets.bind ((push_meets evaluator rfl).weaken ?_) fun _ => .pure ?_
    · rintro live ⟨⟨nodes, envLive, each⟩, counted⟩
      have counted' : done.length + (pending.length + 1) = callee.arity := counted
      exact ⟨⟨nodes, envLive, fun other member => each other (.tail _ member)⟩,
        (by omega : done.length + 1 + pending.length = callee.arity)⟩
    · rintro live ⟨_, ⟨_, envLive, each⟩, _⟩
      exact ⟨envLive, each expr (.head _)⟩
  | nil => exact (callStrict_meets lawful behaves callee done).weaken fun live needed => ⟨needed.1.1, needed.2⟩

/-! ### Evaluating -/

/-- A strict call in scope has the operands it asks for, and begins with the first of them. -/
theorem operands_meets (evaluator : Evaluator) (callee : Callee) {args : List Expr} {expr : Expr} {env : Env} {fault : Fault}
    (inScope : ∀ live, (Condition.closure expr env).holds live →
      args.length = callee.arity ∧ (∀ handle ∈ env, live handle) ∧ ∀ arg ∈ args, arg.Scoped live env.length) :
    Meets actor (.closure expr env)
      (if args.length = callee.arity then nextOperand host evaluator callee ⟨[], args, env⟩ else throw fault) Control.sound := by
  split
  · rename_i counted
    refine (nextOperand_meets lawful behaves evaluator callee ⟨[], args, env⟩).weaken fun live needed => ?_
    obtain ⟨_, envLive, each⟩ := inScope live needed
    exact ⟨⟨nofun, envLive, each⟩, (Nat.zero_add _).trans counted⟩
  · rename_i miscounted
    exact .throw fun live needed => absurd (inScope live needed).1 miscounted

theorem eval_meets (evaluator : Evaluator) (expr : Expr) (env : Env) :
    Meets actor (.closure expr env) (eval host evaluator expr env) Control.sound := by
  obtain ⟨label, form⟩ := expr
  unfold eval
  cases form with
  | var slot =>
    refine Meets.bind (.settle ?_ : Meets _ _ _ Condition.live) fun handle => .pure fun live needed => needed.1
    rintro live ⟨envLive, inScope⟩
    cases inScope with
    | var bound =>
      obtain ⟨handle, found, named⟩ := Env.lookup_scoped envLive bound
      rw [found]
      exact named
  | global node =>
    refine .pure ?_
    rintro live ⟨_, inScope⟩
    cases inScope with
    | global named => exact named
  | char value | int value | double value | text value => exact deliver_meets fun _ _ => ⟨nofun, trivial⟩
  | data ordinal name args =>
    refine Meets.bind ((suspendAll_meets env args).weaken ?_) fun fields => ?_
    · rintro live ⟨envLive, inScope⟩
      cases inScope with
      | data _ _ each => exact ⟨envLive, each⟩
    · exact deliver_meets fun live needed => .data needed.1
  | lambda code captures =>
    refine Meets.bind (.settle ?_ : Meets _ _ _ Condition.node) fun node => deliver_meets fun live needed => needed.1
    rintro live ⟨envLive, inScope⟩
    obtain ⟨node, closed, formed⟩ := Env.close_scoped envLive inScope
    rw [closed]
    exact formed
  | apply fn args =>
    simp only
    have head : ∀ live, (Condition.closure ⟨label, .apply fn args⟩ env).holds live →
        (Condition.closure fn env).holds live ∧ ∀ arg ∈ args, arg.Scoped live env.length := by
      rintro live ⟨envLive, inScope⟩
      cases inScope with
      | apply head each => exact ⟨⟨envLive, head⟩, each⟩
    split
    · exact .pure fun live needed => (head live needed).1
    · refine Meets.bind ((suspendAll_meets env args).weaken ?_) fun handles => ?_
      · exact fun live needed => ⟨needed.1, (head live needed).2⟩
      · refine Meets.bind ((push_meets evaluator rfl).weaken fun live needed => needed.1) fun _ => .pure ?_
        exact fun live needed => (head live needed.2.2).1
  | primitive op args =>
    refine operands_meets lawful behaves evaluator (.primitive op) ?_
    rintro live ⟨envLive, inScope⟩
    cases inScope with
    | primitive counted each => exact ⟨counted, envLive, each⟩
  | host fn args =>
    refine operands_meets lawful behaves evaluator (.host fn) ?_
    rintro live ⟨envLive, inScope⟩
    cases inScope with
    | host counted each => exact ⟨counted, envLive, each⟩
  | choose scrutinee alternatives otherwise =>
    refine Meets.bind ((push_meets evaluator rfl).weaken ?_) fun _ => .pure ?_
    · rintro live ⟨envLive, inScope⟩
      cases inScope with
      | choose _ each default =>
        exact ⟨envLive, each, fun body member => default body (Option.mem_toList.mp member)⟩
    · rintro live ⟨_, envLive, inScope⟩
      cases inScope with
      | choose subject _ _ => exact ⟨envLive, subject⟩
  | letrec bindings body =>
    by_cases short : bindings.length < UInt64.size
    · refine Meets.bind ((bindAll_meets short).weaken ?_) fun scope => .pure ?_
      · rintro live ⟨envLive, inScope⟩
        cases inScope with
        | letrec _ each _ => exact ⟨envLive, each⟩
      · rintro live ⟨⟨scopeLive, length⟩, _, inScope⟩
        cases inScope with
        | letrec _ _ inner => exact ⟨scopeLive, inner.mono (fun _ => id) (Nat.le_of_eq length.symm)⟩
    · refine ⟨(bindAll_works env bindings).bind fun _ => Moves.pure _, ?_⟩
      rintro state _ ⟨_, inScope⟩
      cases inScope with
      | letrec short' _ _ => exact absurd short' short
  | seq first second =>
    refine Meets.bind ((push_meets evaluator rfl).weaken ?_) fun _ => .pure ?_
    · rintro live ⟨envLive, inScope⟩
      cases inScope with
      | seq _ next => exact ⟨envLive, next⟩
    · rintro live ⟨_, envLive, inScope⟩
      cases inScope with
      | seq head _ => exact ⟨envLive, head⟩
  | raise message => exact .throw fun _ _ => Fault.acceptable_of_ne nofun

/-! ### Resuming a frame -/

omit lawful behaves in
/-- Too few arguments, enough, or more: the body never runs with less than it asks for. -/
theorem apply_meets (evaluator : Evaluator) (callee : Node) (args : List Handle) :
    Meets actor ((Condition.node callee).and (.each args .live)) (apply (σ := σ) evaluator callee args)
      Control.sound := by
  unfold apply
  cases callee with
  | function code bound =>
    simp only
    have bodyRuns : ∀ live, ((Condition.node (.function code bound)).and (.each args .live)).holds live →
        code.remaining bound ≤ args.length →
        (Condition.closure code.body (bound ++ args.take (code.remaining bound))).holds live := by
      rintro live ⟨⟨boundLive, inScope⟩, argsLive⟩ enough
      have inScope : code.Scoped live := inScope
      refine ⟨List.forall_mem_append.mpr ⟨boundLive, fun arg member => argsLive arg (List.mem_of_mem_take member)⟩, ?_⟩
      refine inScope.body.mono (fun _ => id) ?_
      rw [List.length_append, List.length_take_of_le enough, ← inScope.envSize, Lambda.remaining]
      omega
    split
    · refine deliver_meets ?_
      rintro live ⟨⟨boundLive, inScope⟩, argsLive⟩
      exact ⟨List.forall_mem_append.mpr ⟨boundLive, argsLive⟩, inScope⟩
    · rename_i unsaturated
      have enough := Nat.le_of_not_lt unsaturated
      split
      · exact .pure fun live needed => bodyRuns live needed enough
      · refine Meets.bind ((push_meets evaluator rfl).weaken ?_) fun _ => .pure ?_
        · exact fun live needed arg member => needed.2 arg (List.mem_of_mem_drop member)
        · exact fun live needed => bodyRuns live needed.2 enough
  | _ => exact .throw fun _ _ => Fault.acceptable_of_ne nofun

omit lawful behaves in
theorem scrutineeFields_live {live : Handle → Prop} {node : Node} (formed : node.WellFormed live) :
    ∀ field ∈ scrutineeFields node, live field := by
  cases node with
  | data ordinal name fields => exact formed.references
  | _ => exact nofun

omit lawful behaves in
theorem ordinal_error {node : Node} {fault : Fault} (failed : node.ordinal = .error fault) (defect : Defect) :
    fault ≠ .malformed defect := by
  cases node <;> cases failed <;> exact nofun

omit lawful behaves in
/-- An alternative is chosen only when it binds as many fields as there are. -/
theorem select_meets (alternatives : List (Alternative Expr)) (otherwise : Option Expr) (env : Env)
    (scrutinee : Node) :
    Meets actor ((Frame.choose alternatives otherwise env).sound.and (.node scrutinee))
      (settle (σ := σ) (select alternatives otherwise env scrutinee)) Control.sound := by
  refine .settle ?_
  rintro live ⟨⟨envLive, each, default⟩, formed⟩
  generalize selected : select alternatives otherwise env scrutinee = outcome
  unfold select at selected
  split at selected
  · cases selected
    exact ⟨envLive, default _ (.head _)⟩
  · simp only [bind, Except.bind] at selected
    split at selected
    · rename_i failed
      cases selected
      exact Fault.acceptable_of_ne (ordinal_error failed)
    · split at selected
      · rename_i alternative found _
        have inScope := each alternative (List.mem_of_find?_eq_some found)
        split at selected
        · rename_i counted
          cases selected
          refine ⟨List.forall_mem_append.mpr ⟨envLive, scrutineeFields_live formed⟩, inScope.mono (fun _ => id) ?_⟩
          exact Nat.le_of_eq (by rw [List.length_append, counted])
        · rename_i miscounted
          cases selected
          rintro defect ⟨⟩
          exact ⟨_, _, _, rfl, miscounted⟩
      · cases selected
        exact ⟨envLive, default _ (.head _)⟩
      · cases selected
        exact Fault.acceptable_of_ne nofun

theorem resume_meets (evaluator : Evaluator) {frame : Frame} (unclaimed : ∀ node, frame ≠ .update node) (whnf : Whnf) :
    Meets actor (frame.sound.and (Control.deliver whnf).sound) (resume host evaluator frame whnf) Control.sound := by
  unfold resume
  cases frame with
  | update node => exact absurd rfl (unclaimed node)
  | redirect links =>
    simp only
    split
    · rename_i target stored
      refine Meets.bind ((redirectAll_meets links target).weaken ?_) fun _ => .pure fun live needed => needed.2.2
      exact fun live needed => ⟨needed.1, needed.2.2 target (by simp [stored])⟩
    · exact .pure fun live needed => needed.2
  | apply args => exact (apply_meets evaluator whnf.node args).weaken fun live needed => ⟨needed.2.1, needed.1⟩
  | call callee operands =>
    refine (nextOperand_meets lawful behaves evaluator callee _).weaken ?_
    rintro live ⟨⟨⟨nodes, rest⟩, counted⟩, formed, _⟩
    refine ⟨⟨List.forall_mem_append.mpr ⟨nodes, List.forall_mem_singleton.mpr formed⟩, rest⟩, ?_⟩
    exact (congrArg (· + operands.pending.length) List.length_append).trans counted
  | choose alternatives otherwise env =>
    exact (select_meets alternatives otherwise env whnf.node).weaken fun live needed => ⟨needed.1, needed.2.1⟩
  | seq next env => exact .pure fun live needed => needed.1

end Machine

end LazyGraph

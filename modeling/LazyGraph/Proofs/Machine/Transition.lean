import LazyGraph.Proofs.Machine.Work

/-! What one transition of an evaluator can do to its stack and to the heap.

A transition works under the stack it finds, or claims a thunk and pushes its frames,
or pops the top frame. Claiming comes before pushing: when the frames do not fit, the
claim is made and no frame records it, and the transition is stranded. -/

set_option autoImplicit false

namespace LazyGraph

-- The frame that collapses a chain when its thunk is done; an empty chain has none.
def redirection (links : List Handle) : List Frame :=
  if links.isEmpty then [] else [.redirect links]

theorem update_notMem_redirection (node : Handle) (links : List Handle) :
    Frame.update node ∉ redirection links := by
  unfold redirection
  split <;> simp

theorem Stack.pop?_of_items {α : Type} {stack : Stack α} {top : α} {rest : List α}
    (items : stack.items = top :: rest) : ∃ below, stack.pop? = some (top, below) ∧ below.items = rest := by
  cases popped : stack.pop? with
  | none =>
    rw [Stack.pop?_eq_none.mp popped] at items
    cases items
  | some pair =>
    obtain ⟨first, below⟩ := pair
    have items' := Stack.pop?_eq_some popped
    rw [items] at items'
    cases items'
    exact ⟨below, rfl, rfl⟩

namespace Machine

variable {σ : Type} {motion : HeapMotion}

/-- A walk from `start`, after the indirections `passed`, ends at an unclaimed thunk. -/
def Discovers (heap : Heap) (passed : List Handle) (start : Handle) (links : List Handle) (node : Handle)
    (expr : Expr) (env : Env) : Prop :=
  heap.followOn passed start = ⟨links, .at node ⟨.unevaluated, .thunk expr env⟩⟩

theorem Discovers.live {heap : Heap} {passed links : List Handle} {start node : Handle} {expr : Expr}
    {env : Env} (found : Discovers heap passed start links node expr env) :
    heap.lookup node = .ok ⟨.unevaluated, .thunk expr env⟩ :=
  (Heap.followOn_at (congrArg Chain.landing found)).1

/-- The transition walks a chain: it is within the limits, and a wait before it is over. -/
inductive Walks (evaluator : Evaluator) (state : State σ) : Control → List Handle → Handle → Prop where
  | force {handle : Handle} (granted : tick evaluator state = .ok () (begun state)) :
      Walks evaluator state (.force handle) [] handle
  | await {links : List Handle} {node : Handle} {slot : Slot} (granted : interruption? evaluator state = none)
      (live : state.world.heap.lookup node = .ok slot)
      (unheld : slot.state.heldByOther evaluator.actor = false) :
      Walks evaluator state (.await links node) links node

def Claims (actor : Actor) (before after : Heap) (node : Handle) (expr : Expr) (env : Env) : Prop :=
  before.Rewrites after node ⟨.unevaluated, .thunk expr env⟩ ⟨.inProgress actor, .thunk expr env⟩

/-! ### Demanding a node -/

theorem claim_unevaluated {heap : Heap} {node : Handle} {expr : Expr} {env : Env} (actor : Actor)
    (live : heap.lookup node = .ok ⟨.unevaluated, .thunk expr env⟩) :
    ∃ heap', Heap.claim node actor heap = .ok true heap' ∧ Claims actor heap heap' node expr env ∧
      heap'.waits = heap.waits := by
  refine ⟨heap.put node.index.toNat ⟨.inProgress actor, .thunk expr env⟩, ?_, Heap.put_rewrites live rfl rfl, rfl⟩
  simp [Heap.claim, Heap.transition, live, Slot.claim]

theorem claim_refused {heap : Heap} {node : Handle} {slot : Slot} (actor : Actor)
    (live : heap.lookup node = .ok slot) (taken : slot.state ≠ .unevaluated) :
    Heap.claim node actor heap = .ok false heap := by
  simp [Heap.claim, Heap.transition, live, Slot.claim, taken]

theorem onHeap_ok {α : Type} {operation : HeapM α} {state : State σ} {result : α} {heap : Heap}
    (ended : operation state.world.heap = .ok result heap) :
    onHeap operation state = .ok result { state with world := { state.world with heap := heap } } := by
  simp [onHeap, onWorld, World.onHeap, ended]

theorem onHeap_error {α : Type} {operation : HeapM α} {state : State σ} {fault : Fault} {heap : Heap}
    (ended : operation state.world.heap = .error fault heap) :
    onHeap operation state = .error fault { state with world := { state.world with heap := heap } } := by
  simp [onHeap, onWorld, World.onHeap, ended]

theorem onHeap_pure {α : Type} (value : α) : onHeap (pure value) = (pure value : MachineM σ α) :=
  rfl

theorem onHeap_bind {α β : Type} (first : HeapM β) (next : β → HeapM α) :
    onHeap (first >>= next) = (onHeap first >>= fun value => onHeap (next value) : MachineM σ α) := by
  funext state
  cases ended : first state.world.heap with
  | ok value heap =>
    rw [bind_ok (onHeap_ok ended)]
    simp only [onHeap, onWorld, World.onHeap, bind_ok ended]
  | error fault heap => rw [bind_error (onHeap_error ended), onHeap_error (bind_error ended)]

theorem push_ok {evaluator : Evaluator} {frame : Frame} {state : State σ}
    (room : state.stack.depth < evaluator.settings.maxWorkStack.toNat) :
    push evaluator frame state = .ok () { state with stack := state.stack.push frame } := by
  unfold push
  rw [if_neg (by omega)]

theorem push_error {evaluator : Evaluator} {frame : Frame} {state : State σ}
    (full : evaluator.settings.maxWorkStack.toNat ≤ state.stack.depth) :
    push evaluator frame state = .error (.exhausted (.workStack evaluator.settings.maxWorkStack)) state := by
  unfold push
  rw [if_pos full]

/-- The frames of a claimed thunk fit, or the first of them that does not ends the call. -/
theorem enter_cases (evaluator : Evaluator) (links : List Handle) (node : Handle) (expr : Expr) (env : Env)
    (state : State σ) :
    (state.stack.depth + (redirection links).length < evaluator.settings.maxWorkStack.toNat ∧
      ∃ after, enter evaluator links node expr env state = .ok (.eval expr env) after ∧
        after.stack.items = .update node :: redirection links ++ state.stack.items ∧
        after.world = state.world) ∨
    (evaluator.settings.maxWorkStack.toNat ≤ state.stack.depth + (redirection links).length ∧
      ∃ after pushed, enter evaluator links node expr env state =
          .error (.exhausted (.workStack evaluator.settings.maxWorkStack)) after ∧
        after.stack.items = pushed ++ state.stack.items ∧ (∀ frame ∈ pushed, frame ∈ redirection links) ∧
        after.world = state.world) := by
  unfold enter redirection
  cases empty : links.isEmpty with
  | true =>
    simp only [if_true, List.length_nil, Nat.add_zero]
    by_cases room : state.stack.depth < evaluator.settings.maxWorkStack.toNat
    · exact .inl ⟨room, _, bind_ok (push_ok room), rfl, rfl⟩
    · have full := Nat.le_of_not_lt room
      exact .inr ⟨full, _, [], bind_error (push_error full), rfl, by simp, rfl⟩
  | false =>
    simp only [Bool.false_eq_true, if_false, List.length_singleton]
    by_cases first : state.stack.depth < evaluator.settings.maxWorkStack.toNat
    · by_cases second : state.stack.depth + 1 < evaluator.settings.maxWorkStack.toNat
      · refine .inl ⟨second, _, (bind_ok (push_ok first)).trans (bind_ok (push_ok ?_)), rfl, rfl⟩
        exact second
      · have full := Nat.le_of_not_lt second
        refine .inr ⟨full, _, [.redirect links],
          (bind_ok (push_ok first)).trans (bind_error (push_error ?_)), rfl, by simp, rfl⟩
        exact full
    · have full := Nat.le_of_not_lt first
      exact .inr ⟨Nat.le_trans full (Nat.le_add_right _ 1), _, [], bind_error (push_error full), rfl,
        by simp, rfl⟩

theorem demandFrom_granted (evaluator : Evaluator) {passed links : List Handle} {start node : Handle}
    {expr : Expr} {env : Env} {state : State σ} {heap : Heap}
    (found : Discovers state.world.heap passed start links node expr env)
    (granted : Heap.claim node evaluator.actor state.world.heap = .ok true heap) :
    demandFrom evaluator passed start state =
      enter evaluator links node expr env { state with world := { state.world with heap := heap } } := by
  unfold Discovers at found
  unfold demandFrom
  rw [bind_ok (rfl : getHeap state = .ok state.world.heap state), found]
  dsimp only
  rw [bind_ok (onHeap_ok granted)]
  rfl

theorem demandFrom_discovers (evaluator : Evaluator) {passed links : List Handle} {start node : Handle}
    {expr : Expr} {env : Env} {state : State σ}
    (found : Discovers state.world.heap passed start links node expr env) :
    ∃ heap, Claims evaluator.actor state.world.heap heap node expr env ∧ heap.waits = state.world.heap.waits ∧
      demandFrom evaluator passed start state =
        enter evaluator links node expr env { state with world := { state.world with heap := heap } } := by
  obtain ⟨heap, granted, claims, waits⟩ := claim_unevaluated evaluator.actor found.live
  exact ⟨heap, claims, waits, demandFrom_granted evaluator found granted⟩

theorem demandFrom_held (evaluator : Evaluator) {passed links : List Handle} {start node : Handle} {owner : Actor}
    {expr : Expr} {env : Env} {state : State σ}
    (chain : state.world.heap.followOn passed start = ⟨links, .at node ⟨.inProgress owner, .thunk expr env⟩⟩) :
    demandFrom evaluator passed start state =
      if owner = evaluator.actor then .error (.nonTermination node) state else startWait evaluator links node state := by
  have live := (Heap.followOn_at (congrArg Chain.landing chain)).1
  unfold demandFrom
  rw [bind_ok (rfl : getHeap state = .ok state.world.heap state), chain]
  dsimp only
  rw [bind_ok (onHeap_ok (claim_refused evaluator.actor live (by simp)))]
  simp only [Bool.false_eq_true, if_false]
  split <;> rfl

/-- A thunk that is marked evaluated can be neither claimed nor delivered. -/
theorem demandFrom_stuck (evaluator : Evaluator) {passed links : List Handle} {start node : Handle} {expr : Expr}
    {env : Env} {state : State σ}
    (chain : state.world.heap.followOn passed start = ⟨links, .at node ⟨.evaluated, .thunk expr env⟩⟩) :
    demandFrom evaluator passed start state = .ok (.await links node) state := by
  have live := (Heap.followOn_at (congrArg Chain.landing chain)).1
  unfold demandFrom
  rw [bind_ok (rfl : getHeap state = .ok state.world.heap state), chain]
  dsimp only
  rw [bind_ok (onHeap_ok (claim_refused evaluator.actor live (by simp)))]
  rfl

theorem demandFrom_value (evaluator : Evaluator) {passed links : List Handle} {start target : Handle} {slot : Slot}
    {state : State σ} (chain : state.world.heap.followOn passed start = ⟨links, .at target slot⟩)
    (noThunk : slot.node.tag ≠ .thunk) :
    demandFrom evaluator passed start state =
      (do redirectAll links target; return .deliver (.stored target slot.node) : MachineM σ Control) state := by
  unfold demandFrom
  rw [bind_ok (rfl : getHeap state = .ok state.world.heap state), chain]
  obtain ⟨slotState, content⟩ := slot
  cases content with
  | thunk expr env => exact absurd rfl noThunk
  | _ => rfl

theorem demandFrom_broken (evaluator : Evaluator) {passed : List Handle} {start : Handle} {fault : Fault} {state : State σ}
    (landed : (state.world.heap.followOn passed start).landing = .broken fault) :
    demandFrom evaluator passed start state = .error fault state := by
  unfold demandFrom
  rw [bind_ok (rfl : getHeap state = .ok state.world.heap state)]
  simp only [landed]
  rfl

theorem demandFrom_loop (evaluator : Evaluator) {passed : List Handle} {start node : Handle} {state : State σ}
    (landed : (state.world.heap.followOn passed start).landing = .loop node) :
    demandFrom evaluator passed start state = .error (.nonTermination node) state := by
  unfold demandFrom
  rw [bind_ok (rfl : getHeap state = .ok state.world.heap state)]
  simp only [landed]
  rfl

inductive DemandsFrom (evaluator : Evaluator) (passed : List Handle) (start : Handle) (state : State σ) :
    EStateM.Result Fault (State σ) Control → Prop where
  | broken {links : List Handle} {fault : Fault} (chain : state.world.heap.followOn passed start = ⟨links, .broken fault⟩) :
      DemandsFrom evaluator passed start state (.error fault state)
  | loop {links : List Handle} {node : Handle} (chain : state.world.heap.followOn passed start = ⟨links, .loop node⟩) :
      DemandsFrom evaluator passed start state (.error (.nonTermination node) state)
  | claims {links : List Handle} {node : Handle} {expr : Expr} {env : Env} {heap : Heap}
      (found : Discovers state.world.heap passed start links node expr env)
      (granted : Heap.claim node evaluator.actor state.world.heap = .ok true heap)
      (claims : Claims evaluator.actor state.world.heap heap node expr env) (waits : heap.waits = state.world.heap.waits) :
      DemandsFrom evaluator passed start state
        (enter evaluator links node expr env { state with world := { state.world with heap := heap } })
  | own {links : List Handle} {node : Handle} {expr : Expr} {env : Env}
      (chain : state.world.heap.followOn passed start = ⟨links, .at node ⟨.inProgress evaluator.actor, .thunk expr env⟩⟩) :
      DemandsFrom evaluator passed start state (.error (.nonTermination node) state)
  | waits {links : List Handle} {node : Handle} {owner : Actor} {expr : Expr} {env : Env}
      (chain : state.world.heap.followOn passed start = ⟨links, .at node ⟨.inProgress owner, .thunk expr env⟩⟩)
      (other : owner ≠ evaluator.actor) : DemandsFrom evaluator passed start state (startWait evaluator links node state)
  | stuck {links : List Handle} {node : Handle} {expr : Expr} {env : Env}
      (chain : state.world.heap.followOn passed start = ⟨links, .at node ⟨.evaluated, .thunk expr env⟩⟩) :
      DemandsFrom evaluator passed start state (.ok (.await links node) state)
  | value {links : List Handle} {target : Handle} {slot : Slot}
      (chain : state.world.heap.followOn passed start = ⟨links, .at target slot⟩) (isWhnf : slot.node.tag.isWhnf) :
      DemandsFrom evaluator passed start state
        ((do redirectAll links target; return .deliver (.stored target slot.node) : MachineM σ Control) state)

theorem demandFrom_cases (evaluator : Evaluator) (passed : List Handle) (start : Handle) (state : State σ) :
    DemandsFrom evaluator passed start state (demandFrom evaluator passed start state) := by
  rcases chain : state.world.heap.followOn passed start with ⟨links, landing⟩
  cases landing with
  | broken fault =>
    rw [demandFrom_broken evaluator (congrArg Chain.landing chain)]
    exact .broken chain
  | loop node =>
    rw [demandFrom_loop evaluator (congrArg Chain.landing chain)]
    exact .loop chain
  | «at» node slot =>
    have noLink := (Heap.followOn_at (congrArg Chain.landing chain)).2
    obtain ⟨slotState, content⟩ := slot
    cases content with
    | thunk expr env =>
      cases slotState with
      | unevaluated =>
        obtain ⟨heap, granted, claims, waits⟩ := claim_unevaluated evaluator.actor (Discovers.live chain)
        rw [demandFrom_granted evaluator chain granted]
        exact .claims chain granted claims waits
      | inProgress owner =>
        rw [demandFrom_held evaluator chain]
        split
        · rename_i own
          subst own
          exact .own chain
        · rename_i other
          exact .waits chain other
      | evaluated =>
        rw [demandFrom_stuck evaluator chain]
        exact .stuck chain
    | indirection next => exact absurd rfl (noLink next)
    | _ =>
      rw [demandFrom_value evaluator chain (by simp [Node.tag])]
      exact .value chain rfl

theorem startWait_cases (evaluator : Evaluator) (links : List Handle) (node : Handle) (state : State σ) :
    (∃ fault, startWait evaluator links node state = .error fault state) ∨
      ∃ after, startWait evaluator links node state = .ok (.await links node) after ∧ after.stack = state.stack ∧
        after.world.heap.entries = state.world.heap.entries ∧ after.world.heap.free = state.world.heap.free := by
  unfold startWait
  cases began : Heap.beginWait evaluator.actor node state.world.heap with
  | error fault heap =>
    refine .inl ⟨fault, ?_⟩
    rw [bind_error (onHeap_error began)]
    unfold Heap.beginWait at began
    split at began <;> cases began <;> rfl
  | ok _ heap =>
    refine .inr ⟨_, bind_ok (onHeap_ok began), rfl, ?_, ?_⟩
    all_goals
      unfold Heap.beginWait at began
      split at began <;> cases began
      rfl

theorem demandFrom_works {evaluator : Evaluator} {passed : List Handle} {start : Handle} {state : State σ}
    (unfound : ∀ links node expr env, ¬ Discovers state.world.heap passed start links node expr env) :
    Works motion.along state (demandFrom evaluator passed start state).state := by
  have demands := demandFrom_cases evaluator passed start state
  generalize demandFrom evaluator passed start state = result at demands ⊢
  cases demands with
  | broken | loop | own | stuck => exact Works.of_same rfl (motion.refl _)
  | claims found => exact absurd found (unfound _ _ _ _)
  | @waits links node =>
    rcases startWait_cases evaluator links node state with ⟨_, refused⟩ | ⟨_, granted, stack, entries, free⟩
    · rw [refused]
      exact Works.of_same rfl (motion.refl _)
    · rw [granted]
      exact Works.of_same stack (motion.same entries free)
  | @value links target slot =>
    exact Moves.bind (redirectAll_works links target) (fun _ => Moves.pure _) state

/-! ### Finishing a thunk -/

theorem complete_held {heap : Heap} {node : Handle} {actor : Actor} {old : Node} (payload : Node)
    (held : heap.lookup node = .ok ⟨.inProgress actor, old⟩) :
    ∃ heap', Heap.complete node actor payload heap = .ok true heap' ∧
      heap.Rewrites heap' node ⟨.inProgress actor, old⟩ ⟨.evaluated, payload⟩ ∧ heap'.waits = heap.waits := by
  have written : Heap.transition node (Slot.complete actor payload) heap =
      .ok true (heap.put node.index.toNat ⟨.evaluated, payload⟩) := by
    simp [Heap.transition, held, Slot.complete]
  exact ⟨_, bind_ok written, Heap.put_rewrites held rfl rfl, rfl⟩

theorem complete_unheld {heap : Heap} {node : Handle} {actor : Actor} (payload : Node)
    (unheld : ∀ old, heap.lookup node ≠ .ok ⟨.inProgress actor, old⟩) :
    (Heap.complete node actor payload heap = .ok false heap.notify) ∨
      ∃ fault, Heap.complete node actor payload heap = .error fault heap := by
  cases found : heap.lookup node with
  | error fault =>
    have refused : Heap.transition node (Slot.complete actor payload) heap = .error fault heap := by
      simp [Heap.transition, found]
    exact .inr ⟨fault, bind_error refused⟩
  | ok slot =>
    obtain ⟨state, old⟩ := slot
    have other : state ≠ .inProgress actor := by
      intro same
      exact unheld old (same ▸ found)
    have refused : Heap.transition node (Slot.complete actor payload) heap = .ok false heap := by
      simp [Heap.transition, found, Slot.complete, other]
    exact .inl (bind_ok refused)

theorem updatePayload_cases (node : Handle) (whnf : Whnf) :
    (∃ existing, whnf.handle? = some existing ∧ existing ≠ node ∧
        updatePayload node whnf = (.indirection existing, existing)) ∨
      updatePayload node whnf = (whnf.node, node) := by
  unfold updatePayload
  split
  · rename_i existing stored
    split
    · rename_i shared
      exact .inl ⟨existing, stored, shared.1, rfl⟩
    · exact .inr rfl
  · exact .inr rfl

theorem update_held {evaluator : Evaluator} {node : Handle} {old : Node} {state : State σ} (whnf : Whnf)
    (held : state.world.heap.lookup node = .ok ⟨.inProgress evaluator.actor, old⟩) :
    ∃ after, update evaluator node whnf state =
        .ok (.deliver (.stored (updatePayload node whnf).2 whnf.node)) after ∧
      after.stack = state.stack ∧
      state.world.heap.Rewrites after.world.heap node ⟨.inProgress evaluator.actor, old⟩
        ⟨.evaluated, (updatePayload node whnf).1⟩ ∧
      after.world.heap.waits = state.world.heap.waits := by
  obtain ⟨heap, written, rewrites, waits⟩ := complete_held (updatePayload node whnf).1 held
  exact ⟨_, bind_ok (onHeap_ok written), rfl, rewrites, waits⟩

theorem update_unheld {evaluator : Evaluator} {node : Handle} {state : State σ} (whnf : Whnf)
    (unheld : ∀ old, state.world.heap.lookup node ≠ .ok ⟨.inProgress evaluator.actor, old⟩) :
    ∃ fault after, update evaluator node whnf state = .error fault after ∧
      after.world.heap.entries = state.world.heap.entries := by
  rcases complete_unheld (updatePayload node whnf).1 unheld with refused | ⟨fault, refused⟩
  · exact ⟨_, _, bind_ok (onHeap_ok refused), rfl⟩
  · exact ⟨_, _, bind_error (onHeap_error refused), rfl⟩

/-! ### One transition -/

inductive Transition (motion : HeapMotion) (evaluator : Evaluator) (before : State σ) :
    Control → EStateM.Result Fault (State σ) Progress → Prop where
  | cut {control : Control} {fault : Fault} {after : State σ} (stack : after.stack = before.stack)
      (heap : after.world.heap = before.world.heap) :
      Transition motion evaluator before control (.error fault after)
  | worked {control : Control} {result : EStateM.Result Fault (State σ) Progress}
      (undelivered : ∀ whnf, control ≠ .deliver whnf)
      (unfinished : ∀ handle after, result ≠ .ok (.finished handle) after)
      (works : Works motion.along before result.state) :
      Transition motion evaluator before control result
  | claimed {control : Control} {passed links : List Handle} {start node : Handle} {expr : Expr} {env : Env}
      {after : State σ} (walks : Walks evaluator before control passed start)
      (found : Discovers before.world.heap passed start links node expr env)
      (claims : Claims evaluator.actor before.world.heap after.world.heap node expr env)
      (stack : after.stack.items = .update node :: redirection links ++ before.stack.items) :
      Transition motion evaluator before control (.ok (.continues (.eval expr env)) after)
  | stranded {control : Control} {passed links : List Handle} {start node : Handle} {expr : Expr} {env : Env}
      {pushed : List Frame} {after : State σ} (walks : Walks evaluator before control passed start)
      (found : Discovers before.world.heap passed start links node expr env)
      (full : evaluator.settings.maxWorkStack.toNat ≤ before.stack.depth + (redirection links).length)
      (claims : Claims evaluator.actor before.world.heap after.world.heap node expr env)
      (stack : after.stack.items = pushed ++ before.stack.items)
      (unmarked : ∀ frame ∈ pushed, frame ∈ redirection links) :
      Transition motion evaluator before control
        (.error (.exhausted (.workStack evaluator.settings.maxWorkStack)) after)
  | finished {whnf : Whnf} {result : EStateM.Result Fault (State σ) Progress}
      (empty : before.stack.items = []) (final : ∀ next after, result ≠ .ok (.continues next) after)
      (stack : result.state.stack = before.stack)
      (heap : motion.along before.world.heap result.state.world.heap) :
      Transition motion evaluator before (.deliver whnf) result
  | resumed {whnf : Whnf} {frame : Frame} {rest : Stack Frame}
      {result : EStateM.Result Fault (State σ) Progress} (popped : before.stack.pop? = some (frame, rest))
      (unclaimed : ∀ node, frame ≠ .update node)
      (unfinished : ∀ handle after, result ≠ .ok (.finished handle) after)
      (works : Works motion.along { before with stack := rest } result.state) :
      Transition motion evaluator before (.deliver whnf) result
  | completed {whnf next : Whnf} {node : Handle} {rest : Stack Frame} {old payload : Node} {after : State σ}
      (popped : before.stack.pop? = some (.update node, rest)) (stack : after.stack = rest)
      (rewrites : before.world.heap.Rewrites after.world.heap node ⟨.inProgress evaluator.actor, old⟩
        ⟨.evaluated, payload⟩) :
      Transition motion evaluator before (.deliver whnf) (.ok (.continues (.deliver next)) after)
  | disowned {whnf : Whnf} {node : Handle} {rest : Stack Frame} {fault : Fault} {after : State σ}
      (popped : before.stack.pop? = some (.update node, rest))
      (unheld : ∀ old, before.world.heap.lookup node ≠ .ok ⟨.inProgress evaluator.actor, old⟩)
      (entries : after.world.heap.entries = before.world.heap.entries) :
      Transition motion evaluator before (.deliver whnf) (.error fault after)

-- A computation of the next control, as the last part of a transition.
def continuing (computation : MachineM σ Control) : MachineM σ Progress := do
  return .continues (← computation)

theorem continuing_ok {computation : MachineM σ Control} {state after : State σ} {next : Control}
    (ended : computation state = .ok next after) :
    continuing computation state = .ok (.continues next) after :=
  bind_ok ended

theorem continuing_error {computation : MachineM σ Control} {state after : State σ} {fault : Fault}
    (ended : computation state = .error fault after) :
    continuing computation state = .error fault after :=
  bind_error ended

theorem continuing_eq_ok {computation : MachineM σ Control} {state after : State σ} {progress : Progress} :
    continuing computation state = .ok progress after ↔
      ∃ next, progress = .continues next ∧ computation state = .ok next after := by
  constructor
  · intro ended
    cases result : computation state with
    | ok next after' =>
      rw [continuing_ok result] at ended
      cases ended
      exact ⟨next, rfl, rfl⟩
    | error fault after' =>
      rw [continuing_error result] at ended
      cases ended
  · rintro ⟨next, rfl, ended⟩
    exact continuing_ok ended

theorem continuing_eq_error {computation : MachineM σ Control} {state after : State σ} {fault : Fault} :
    continuing computation state = .error fault after ↔ computation state = .error fault after := by
  refine ⟨fun ended => ?_, continuing_error⟩
  cases result : computation state with
  | ok next after' =>
    rw [continuing_ok result] at ended
    cases ended
  | error fault' after' =>
    rw [continuing_error result] at ended
    cases ended
    rfl

theorem continuing_inv {computation : MachineM σ Control} {state after : State σ} {next : Control}
    (ended : continuing computation state = .ok (.continues next) after) : computation state = .ok next after := by
  obtain ⟨_, same, ended⟩ := continuing_eq_ok.mp ended
  cases same
  exact ended

theorem continuing_congr {left right : MachineM σ Control} {state state' : State σ}
    (same : left state = right state') : continuing left state = continuing right state' := by
  simp only [continuing, bind, EStateM.bind, same]

theorem continuing_state (computation : MachineM σ Control) (state : State σ) :
    (continuing computation state).state = (computation state).state := by
  cases ended : computation state with
  | ok next after => rw [continuing_ok ended]; rfl
  | error fault after => rw [continuing_error ended]; rfl

theorem continuing_unfinished (computation : MachineM σ Control) (state : State σ) (handle : Handle)
    (after : State σ) : continuing computation state ≠ .ok (.finished handle) after := by
  intro ended
  obtain ⟨_, same, _⟩ := continuing_eq_ok.mp ended
  cases same

/-- A step that is granted goes on from a state with the same frames and nodes. -/
theorem step_granted {evaluator : Evaluator} {before : State σ} (control : Control)
    (next : MachineM σ Progress) (granted : tick evaluator before = .ok () (begun before)) :
    ∃ ready, ready.stack = before.stack ∧ ready.world.heap = before.world.heap ∧
      (do tick evaluator; trace evaluator control; next) before = next ready := by
  obtain ⟨ready, traced, stack, heap⟩ := trace_state evaluator control (begun before)
  exact ⟨ready, stack, heap, (bind_ok granted).trans (bind_ok traced)⟩

theorem step_cases (evaluator : Evaluator) (control : Control) (next : MachineM σ Progress)
    (before : State σ) :
    (∃ limit, (do tick evaluator; trace evaluator control; next) before =
      .error (.exhausted limit) (begun before)) ∨
    (tick evaluator before = .ok () (begun before) ∧
      ∃ ready, ready.stack = before.stack ∧ ready.world.heap = before.world.heap ∧
        (do tick evaluator; trace evaluator control; next) before = next ready) := by
  have reached := tick_state evaluator before
  cases ticked : tick evaluator before with
  | error fault after =>
    rw [ticked] at reached
    cases reached
    obtain ⟨limit, rfl⟩ := tick_refused ticked
    exact .inl ⟨limit, bind_error ticked⟩
  | ok _ after =>
    rw [ticked] at reached
    cases reached
    exact .inr ⟨rfl, step_granted control next ticked⟩

theorem step_ok {α : Type} {evaluator : Evaluator} {control : Control} {next : MachineM σ α} {before after : State σ}
    {value : α} (ended : (do tick evaluator; trace evaluator control; next) before = .ok value after) :
    ∃ ready, ready.stack = before.stack ∧ ready.world.heap = before.world.heap ∧ next ready = .ok value after := by
  have reached := tick_state evaluator before
  cases ticked : tick evaluator before with
  | error fault refused =>
    rw [bind_error ticked] at ended
    cases ended
  | ok _ granted =>
    rw [ticked] at reached
    cases reached
    obtain ⟨ready, traced, stack, heap⟩ := trace_state evaluator control (begun before)
    exact ⟨ready, stack, heap, ((bind_ok ticked).trans (bind_ok traced)).symm.trans ended⟩

theorem Works.from_ready {before ready after : State σ} (stack : ready.stack = before.stack)
    (entries : ready.world.heap.entries = before.world.heap.entries)
    (free : ready.world.heap.free = before.world.heap.free) (works : Works motion.along ready after) :
    Works motion.along before after :=
  (Works.of_same stack (motion.same entries free)).trans works

theorem Claims.from_ready {actor : Actor} {before ready after : Heap} {node : Handle} {expr : Expr} {env : Env}
    (entries : ready.entries = before.entries) (free : ready.free = before.free)
    (claims : Claims actor ready after node expr env) : Claims actor before after node expr env where
  found := (Heap.lookup_congr entries node).symm.trans claims.found
  capacity := by rw [claims.capacity, Heap.capacity, Heap.capacity, entries]
  entries := by
    intro place apart
    rw [claims.entries place apart, entries]
  free := claims.free.trans free
  lookup := by
    intro handle
    rw [claims.lookup handle, Heap.lookup_congr entries]

theorem demandFrom_transition {evaluator : Evaluator} {control : Control} {passed : List Handle}
    {start : Handle} {before ready : State σ} (walks : Walks evaluator before control passed start)
    (stack : ready.stack = before.stack) (entries : ready.world.heap.entries = before.world.heap.entries)
    (free : ready.world.heap.free = before.world.heap.free) :
    Transition motion evaluator before control (continuing (demandFrom evaluator passed start) ready) := by
  by_cases discovers : ∃ links node expr env, Discovers ready.world.heap passed start links node expr env
  · obtain ⟨links, node, expr, env, found⟩ := discovers
    obtain ⟨heap, claims, _, entered⟩ := demandFrom_discovers evaluator found
    have found' : Discovers before.world.heap passed start links node expr env :=
      (Heap.followOn_congr entries passed start).symm.trans found
    have claims' := claims.from_ready entries free
    rcases enter_cases evaluator links node expr env
        { ready with world := { ready.world with heap := heap } } with
      ⟨_, after, ended, items, world⟩ | ⟨full, after, pushed, ended, items, unmarked, world⟩
    · rw [continuing_ok (entered.trans ended)]
      refine .claimed walks found' ?_ (by rw [items, stack])
      rw [world]
      exact claims'
    · rw [continuing_error (entered.trans ended)]
      refine .stranded walks found' (stack ▸ full) ?_ (by rw [items, stack]) unmarked
      rw [world]
      exact claims'
  · have works : Works motion.along ready (demandFrom evaluator passed start ready).state :=
      demandFrom_works fun links node expr env found => discovers ⟨links, node, expr, env, found⟩
    refine .worked ?_ (continuing_unfinished _ _) ?_
    · rintro whnf rfl
      cases walks
    · rw [continuing_state]
      exact works.from_ready stack entries free

/-- A wait that is over goes on as a demand, with the wait withdrawn. -/
theorem resumeWait_over {evaluator : Evaluator} {links : List Handle} {node : Handle} {slot : Slot}
    {state : State σ} (granted : interruption? evaluator state = none)
    (live : state.world.heap.lookup node = .ok slot)
    (unheld : slot.state.heldByOther evaluator.actor = false) :
    resumeWait evaluator links node state = demandFrom evaluator links node
      { state with world := { state.world with heap := state.world.heap.endWait evaluator.actor } } := by
  have checked : checkInterruption evaluator state = .ok () state := by
    simp only [checkInterruption, granted]
  have settled : settle (state.world.heap.state node) state = .ok slot.state state := by
    simp only [Heap.state, live]
    rfl
  unfold resumeWait
  rw [bind_ok checked, bind_ok (rfl : getHeap state = .ok state.world.heap state), bind_ok settled]
  simp only [unheld, Bool.false_eq_true, if_false]
  rfl

/-- Else time may pass, nothing happens to the frames and the nodes, and the wait goes on. -/
theorem resumeWait_still {evaluator : Evaluator} {links : List Handle} {node : Handle} {state : State σ}
    (still : ¬ Walks evaluator state (.await links node) links node) :
    (resumeWait evaluator links node state).state.stack = state.stack ∧
      (resumeWait evaluator links node state).state.world.heap = state.world.heap ∧
      (∀ next after, resumeWait evaluator links node state = .ok next after → next = .await links node) ∧
      ∀ fault after, resumeWait evaluator links node state = .error fault after →
        (∃ limit, fault = .exhausted limit) ∨ state.world.heap.lookup node = .error fault := by
  unfold resumeWait
  cases interrupted : interruption? evaluator state with
  | some limit =>
    have checked : checkInterruption evaluator state = .error (.exhausted limit) state := by
      simp only [checkInterruption, interrupted]
    rw [bind_error checked]
    refine ⟨rfl, rfl, fun next after ended => ?_, fun fault after ended => ?_⟩
    · cases ended
    · cases ended
      exact .inl ⟨limit, rfl⟩
  | none =>
    have checked : checkInterruption evaluator state = .ok () state := by
      simp only [checkInterruption, interrupted]
    rw [bind_ok checked, bind_ok (rfl : getHeap state = .ok state.world.heap state)]
    cases live : state.world.heap.lookup node with
    | error fault =>
      have settled : settle (state.world.heap.state node) state = .error fault state := by
        simp only [Heap.state, live]
        rfl
      rw [bind_error settled]
      refine ⟨rfl, rfl, fun next after ended => ?_, fun fault after ended => ?_⟩
      · cases ended
      · cases ended
        exact .inr rfl
    | ok slot =>
      have settled : settle (state.world.heap.state node) state = .ok slot.state state := by
        simp only [Heap.state, live]
        rfl
      rw [bind_ok settled]
      cases unheld : slot.state.heldByOther evaluator.actor with
      | false => exact absurd (.await interrupted live unheld) still
      | true =>
        refine ⟨rfl, rfl, fun next after ended => ?_, fun fault after ended => ?_⟩
        · cases ended
          rfl
        · cases ended

theorem resumeWait_transition {evaluator : Evaluator} (links : List Handle) (node : Handle)
    (before : State σ) :
    Transition motion evaluator before (.await links node)
      (continuing (resumeWait evaluator links node) before) := by
  by_cases walks : Walks evaluator before (.await links node) links node
  · have walked := walks
    cases walks with
    | await granted live unheld =>
      rw [continuing_congr (resumeWait_over granted live unheld)]
      exact demandFrom_transition walked rfl rfl rfl
  · obtain ⟨stack, heap, _⟩ := resumeWait_still walks
    refine .worked (fun whnf => by simp) (continuing_unfinished _ _) ?_
    rw [continuing_state]
    exact .of_same stack (heap ▸ motion.refl _)

theorem finish_pops (host : Host σ) (evaluator : Evaluator) (whnf : Whnf) {state : State σ} {frame : Frame}
    {rest : Stack Frame} (popped : state.stack.pop? = some (frame, rest)) :
    finish host evaluator whnf state =
      continuing (resume host evaluator frame whnf) { state with stack := rest } := by
  unfold finish
  rw [bind_ok (rfl : (get : MachineM σ (State σ)) state = .ok state state), popped]
  rfl

/-- A call that goes on with a result has popped a frame for it. -/
theorem finish_continues {host : Host σ} {evaluator : Evaluator} {whnf : Whnf} {state after : State σ} {next : Control}
    (going : finish host evaluator whnf state = .ok (.continues next) after) :
    ∃ frame rest, state.stack.pop? = some (frame, rest) ∧
      resume host evaluator frame whnf { state with stack := rest } = .ok next after := by
  cases popped : state.stack.pop? with
  | some top =>
    rw [finish_pops host evaluator whnf popped] at going
    exact ⟨top.1, top.2, rfl, continuing_inv going⟩
  | none =>
    unfold finish at going
    rw [bind_ok (rfl : (get : MachineM σ (State σ)) state = .ok state state), popped] at going
    cases stored : whnf.handle? with
    | some handle =>
      rw [stored] at going
      cases going
    | none =>
      rw [stored] at going
      have ended : (do return .finished (← onHeap (Heap.alloc whnf.node)) : MachineM σ Progress) state =
          .ok (.continues next) after := going
      cases placed : onHeap (Heap.alloc whnf.node) state with
      | ok handle grown =>
        rw [bind_ok placed] at ended
        cases ended
      | error fault refused =>
        rw [bind_error placed] at ended
        cases ended

-- A transition may first have spent time: `ready` has the frames and the nodes of `before`.
section

variable {before ready : State σ} (heap : ready.world.heap = before.world.heap)

include heap

theorem update_transition (evaluator : Evaluator) (whnf : Whnf) {node : Handle} {rest : Stack Frame}
    (popped : before.stack.pop? = some (.update node, rest)) :
    Transition motion evaluator before (.deliver whnf)
      (continuing (update evaluator node whnf) { ready with stack := rest }) := by
  let below : State σ := { ready with stack := rest }
  by_cases held : ∃ old, below.world.heap.lookup node = .ok ⟨.inProgress evaluator.actor, old⟩
  · obtain ⟨old, held⟩ := held
    obtain ⟨after, ended, kept, rewrites, _⟩ := update_held whnf held
    rw [continuing_ok ended]
    exact .completed popped kept (heap ▸ rewrites)
  · have unheld : ∀ old, below.world.heap.lookup node ≠ .ok ⟨.inProgress evaluator.actor, old⟩ :=
      fun old found => held ⟨old, found⟩
    obtain ⟨fault, after, ended, entries⟩ := update_unheld whnf unheld
    rw [continuing_error ended]
    exact .disowned popped (heap ▸ unheld) (entries.trans (congrArg Heap.entries heap))

theorem resume_transition {host : Host σ} (follows : host.Follows motion) (evaluator : Evaluator) (whnf : Whnf)
    {frame : Frame} {rest : Stack Frame} (popped : before.stack.pop? = some (frame, rest)) :
    Transition motion evaluator before (.deliver whnf)
      (continuing (resume host evaluator frame whnf) { ready with stack := rest }) := by
  by_cases isUpdate : ∃ node, frame = .update node
  · obtain ⟨node, rfl⟩ := isUpdate
    exact update_transition heap evaluator whnf popped
  · have unclaimed : ∀ node, frame ≠ .update node := fun node same => isUpdate ⟨node, same⟩
    refine .resumed popped unclaimed (continuing_unfinished _ _) ?_
    rw [continuing_state]
    have works := resume_works follows evaluator unclaimed whnf { ready with stack := rest }
    have kept : Works motion.along { before with stack := rest } { ready with stack := rest } :=
      .of_same rfl (heap ▸ motion.refl _)
    exact kept.trans works

theorem finish_transition {host : Host σ} (follows : host.Follows motion) (evaluator : Evaluator) (whnf : Whnf)
    (stack : ready.stack = before.stack) :
    Transition motion evaluator before (.deliver whnf) (finish host evaluator whnf ready) := by
  cases popped : before.stack.pop? with
  | some top =>
    rw [finish_pops host evaluator whnf (stack.symm ▸ popped)]
    exact resume_transition heap follows evaluator whnf popped
  | none =>
    have empty := Stack.pop?_eq_none.mp popped
    unfold finish
    rw [bind_ok (rfl : (get : MachineM σ (State σ)) ready = .ok ready ready), stack, popped]
    cases whnf.handle? with
    | some handle => exact .finished empty (fun next after => nofun) stack (heap ▸ motion.refl _)
    | none =>
      simp only
      have moved : motion.along ready.world.heap (Heap.alloc whnf.node ready.world.heap).state :=
        motion.alloc whnf.node ready.world.heap
      cases ended : Heap.alloc whnf.node ready.world.heap with
      | ok handle after =>
        rw [ended] at moved
        rw [bind_ok (onHeap_ok ended)]
        exact .finished empty (fun next after => nofun) stack (heap ▸ moved)
      | error fault after =>
        rw [ended] at moved
        rw [bind_error (onHeap_error ended)]
        exact .finished empty (fun next after => nofun) stack (heap ▸ moved)

end

theorem Transition.step {evaluator : Evaluator} {control : Control} {before : State σ} (next : MachineM σ Progress)
    (later : ∀ {ready}, tick evaluator before = .ok () (begun before) → ready.stack = before.stack →
      ready.world.heap = before.world.heap → Transition motion evaluator before control (next ready)) :
    Transition motion evaluator before control ((do tick evaluator; trace evaluator control; next) before) := by
  rcases step_cases evaluator control next before with ⟨limit, refused⟩ | ⟨granted, ready, stack, heap, going⟩
  · rw [refused]
    exact .cut rfl rfl
  · rw [going]
    exact later granted stack heap

theorem iterate_transition {host : Host σ} (follows : host.Follows motion) (evaluator : Evaluator)
    (control : Control) (before : State σ) :
    Transition motion evaluator before control (iterate host evaluator control before) := by
  cases control with
  | await links node => exact resumeWait_transition links node before
  | eval expr env =>
    refine Transition.step (continuing (eval host evaluator expr env)) fun {ready} _ stack heap => ?_
    refine .worked (fun whnf => by simp) (continuing_unfinished _ _) ?_
    rw [continuing_state]
    have works := eval_works follows evaluator expr env ready
    exact works.from_ready stack (congrArg Heap.entries heap) (congrArg Heap.free heap)
  | force handle =>
    exact Transition.step (continuing (demand evaluator handle)) fun granted stack heap =>
      demandFrom_transition (.force granted) stack (congrArg Heap.entries heap) (congrArg Heap.free heap)
  | deliver whnf =>
    exact Transition.step (finish host evaluator whnf) fun _ stack heap =>
      finish_transition heap follows evaluator whnf stack

theorem Transition.capacity_le {evaluator : Evaluator} {control : Control} {before : State σ}
    {result : EStateM.Result Fault (State σ) Progress} (moved : Transition motion evaluator before control result)
    (grows : ∀ {before after}, motion.along before after → before.capacity ≤ after.capacity) :
    before.world.heap.capacity ≤ result.state.world.heap.capacity := by
  cases moved with
  | cut _ heap => exact Nat.le_of_eq (congrArg Heap.capacity heap.symm)
  | worked _ _ works => exact grows works.heap
  | claimed _ _ claims _ => exact Nat.le_of_eq claims.capacity.symm
  | stranded _ _ _ claims _ _ => exact Nat.le_of_eq claims.capacity.symm
  | finished _ _ _ heap => exact grows heap
  | resumed _ _ _ works => exact grows works.heap
  | completed _ _ rewrites => exact Nat.le_of_eq rewrites.capacity.symm
  | disowned _ _ entries => exact Nat.le_of_eq (congrArg Array.size entries.symm)

/-- A transition that walks a chain is a demand, after bookkeeping that frames and nodes do
not show. -/
theorem iterate_walks (host : Host σ) {evaluator : Evaluator} {control : Control} {passed : List Handle}
    {start : Handle} {before : State σ} (walks : Walks evaluator before control passed start) :
    ∃ ready, ready.stack = before.stack ∧ ready.world.heap.entries = before.world.heap.entries ∧
      ready.world.heap.free = before.world.heap.free ∧
      iterate host evaluator control before = continuing (demandFrom evaluator passed start) ready := by
  cases walks with
  | force granted =>
    obtain ⟨ready, stack, heap, going⟩ :=
      step_granted (.force start) (continuing (demand evaluator start)) granted
    exact ⟨ready, stack, congrArg Heap.entries heap, congrArg Heap.free heap, going⟩
  | await granted live unheld =>
    let ready : State σ :=
      { before with world := { before.world with heap := before.world.heap.endWait evaluator.actor } }
    exact ⟨ready, rfl, rfl, rfl, continuing_congr (resumeWait_over granted live unheld)⟩

end Machine

end LazyGraph

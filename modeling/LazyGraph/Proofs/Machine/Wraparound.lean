import LazyGraph.Proofs.Code.Parts
import LazyGraph.Proofs.Heap.Wraparound
import LazyGraph.Proofs.Machine.Iterations
import LazyGraph.Proofs.Machine.Transition

/-! Calls on a full heap.

A box is built with its content suspended in a new slot. On a heap that has run out of numbers
that slot is the first one, whatever it held. So the call overwrites a node that it need not have
reached, and if that is the thunk of the box itself, it finds that it no longer owns it. -/

set_option autoImplicit false

namespace LazyGraph.Machine

variable {σ : Type} {host : Host σ} {actor : Actor} {world : World σ} {state : State σ} {root node target : Handle}
  {links : List Handle} {old : Slot}

-- The content fails when it is asked for.
def wrapped : Node := .thunk ⟨1, .raise "boom"⟩ []

def wrapping : Expr := ⟨0, .data 0 "Box" [⟨1, .raise "boom"⟩]⟩

def wrapper : Node := .data 0 "Box" [⟨0, 0⟩]

theorem wrapping_staysIn (region : Handle → Prop) : wrapping.StaysIn region where
  hostFree := .of_children nofun (List.forall_mem_singleton.mpr (.of_children nofun nofun))
  names := by
    intro handle names
    cases names with
    | data member names =>
      cases List.mem_singleton.mp member
      cases names

/-- Without limits and without a deadline a step is what comes after its count. -/
theorem unlimited_begins {α : Type} (control : Control) (next : MachineM σ α) (unhurried : state.deadline = none) :
    (do tick ⟨actor, {}, none⟩; trace ⟨actor, {}, none⟩ control; next) state = next (begun state) := by
  obtain ⟨stack, steps, _, world⟩ := state
  cases unhurried
  rfl

theorem iterate_claims {expr : Expr} {env : Env} (unhurried : state.deadline = none) (idle : state.stack.items = [])
    (found : Discovers state.world.heap [] root links node expr env) :
    ∃ after, iterate host ⟨actor, {}, none⟩ (.force root) state = .ok (.continues (.eval expr env)) after ∧
      after.deadline = none ∧ after.stack.items = .update node :: redirection links ∧
      after.world.heap = state.world.heap.put node.index.toNat ⟨.inProgress actor, .thunk expr env⟩ := by
  have claims : Heap.claim node actor (begun state).world.heap =
      .ok true (state.world.heap.put node.index.toNat ⟨.inProgress actor, .thunk expr env⟩) := by
    simp [begun, Heap.claim, Heap.transition, found.live, Slot.claim]
  obtain ⟨claimed, same⟩ : ∃ claimed : State σ, claimed = { begun state with world := { (begun state).world with
      heap := state.world.heap.put node.index.toNat ⟨.inProgress actor, .thunk expr env⟩ } } := ⟨_, rfl⟩
  have items : claimed.stack.items = [] := by
    rw [same]
    exact idle
  have shallow : claimed.stack.depth = 0 := claimed.stack.depth_eq.trans (congrArg List.length items)
  have room : claimed.stack.depth < (1048576 : UInt64).toNat := by
    rw [shallow]
    decide
  obtain ⟨entered, enters, unhurried', items', heap⟩ : ∃ entered : State σ,
      enter ⟨actor, {}, none⟩ links node expr env claimed = .ok (.eval expr env) entered ∧
      entered.deadline = claimed.deadline ∧ entered.stack.items = .update node :: redirection links ∧
      entered.world = claimed.world := by
    unfold enter redirection
    cases links.isEmpty with
    | true => exact ⟨_, bind_ok (push_ok room), rfl, congrArg _ items, rfl⟩
    | false =>
      have deeper : (claimed.stack.push (.redirect links)).depth < (1048576 : UInt64).toNat := by
        show claimed.stack.depth + 1 < _
        rw [shallow]
        decide
      exact ⟨_, (bind_ok (push_ok room)).trans (bind_ok (push_ok deeper)), rfl,
        congrArg (fun items => _ :: _ :: items) items, rfl⟩
  have demands : demand ⟨actor, {}, none⟩ root (begun state) = .ok (.eval expr env) entered := by
    rw [← enters, same]
    exact demandFrom_granted ⟨actor, {}, none⟩ found claims
  refine ⟨entered, (unlimited_begins _ _ unhurried).trans (bind_ok demands), ?_, items', ?_⟩
  · rw [unhurried', same]
    exact unhurried
  · rw [heap, same]

/-- The content of the box takes the place of the first node. -/
theorem iterate_wraps (unhurried : state.deadline = none) (full : state.world.heap.Full)
    (first : state.world.heap.lookup ⟨0, 0⟩ = .ok old) :
    ∃ after, iterate host ⟨actor, {}, none⟩ (.eval wrapping []) state = .ok (.continues (.deliver (.fresh wrapper))) after ∧
      after.deadline = none ∧ after.stack = state.stack ∧
      ∀ handle, after.world.heap.lookup handle =
        if handle = ⟨0, 0⟩ then .ok (.ofNode wrapped) else state.world.heap.lookup handle := by
  obtain ⟨heap, allocates, _, overwrites⟩ := full.alloc first wrapped
  let after : State σ := { begun state with world := { (begun state).world with heap := heap } }
  have suspends : suspend [] ⟨1, .raise "boom"⟩ (begun state) = .ok ⟨0, 0⟩ after := onHeap_ok allocates
  have fields : suspendAll [] [⟨1, .raise "boom"⟩] (begun state) = .ok [⟨0, 0⟩] after := by
    simp only [suspendAll, List.mapM_cons, List.mapM_nil]
    exact bind_ok suspends
  have evaluates : eval host ⟨actor, {}, none⟩ wrapping [] (begun state) = .ok (.deliver (.fresh wrapper)) after :=
    bind_ok fields
  exact ⟨after, (unlimited_begins _ _ unhurried).trans (bind_ok evaluates), unhurried, rfl, overwrites⟩

/-- The box is built and about to be written into its thunk. Its content is in the first slot,
also if that is the slot of the thunk. -/
theorem force_wraps (full : state.world.heap.Full) (first : state.world.heap.lookup ⟨0, 0⟩ = .ok old)
    (idle : state.stack.items = []) (found : Discovers state.world.heap [] root links node wrapping []) :
    ∃ reached : State σ,
      iterations host ⟨actor, {}, none⟩ (.force root) (begin ⟨actor, {}, none⟩ state) 2 =
        some (.deliver (.fresh wrapper), reached) ∧
      reached.deadline = none ∧ reached.stack.items = .update node :: redirection links ∧
      ∀ handle, reached.world.heap.lookup handle =
        if handle = ⟨0, 0⟩ then .ok (.ofNode wrapped)
        else if handle = node then .ok ⟨.inProgress actor, .thunk wrapping []⟩
        else state.world.heap.lookup handle := by
  obtain ⟨claimed, claims, unhurried, items, heap⟩ := @iterate_claims σ host actor (begin ⟨actor, {}, none⟩ state)
    root node links wrapping [] rfl idle found
  have lookup : ∀ handle, claimed.world.heap.lookup handle =
      if handle = node then .ok ⟨.inProgress actor, .thunk wrapping []⟩ else state.world.heap.lookup handle := by
    rw [heap]
    exact fun handle => Heap.lookup_put_live found.live
  have full' : claimed.world.heap.Full := by
    rw [heap]
    exact ⟨(Heap.capacity_put ..).trans full.capacity, full.free, full.unlimited⟩
  obtain ⟨old', first'⟩ : ∃ old', claimed.world.heap.lookup ⟨0, 0⟩ = .ok old' := by
    rw [lookup]
    split
    · exact ⟨_, rfl⟩
    · exact ⟨_, first⟩
  obtain ⟨reached, evaluates, unhurried', stack, overwrites⟩ := @iterate_wraps σ host actor claimed old' unhurried full' first'
  refine ⟨reached, ?_, unhurried', (congrArg Stack.items stack).trans items, fun handle => ?_⟩
  · rw [iterations_shift claims, iterations_shift evaluates]
    rfl
  · rw [overwrites, lookup]

theorem iterate_stores {rest : List Frame} (unhurried : state.deadline = none)
    (items : state.stack.items = .update node :: rest)
    (held : state.world.heap.lookup node = .ok ⟨.inProgress actor, .thunk wrapping []⟩) :
    ∃ after, iterate host ⟨actor, {}, none⟩ (.deliver (.fresh wrapper)) state =
        .ok (.continues (.deliver (.stored node wrapper))) after ∧
      after.deadline = none ∧ after.stack.items = rest ∧
      ∀ handle, after.world.heap.lookup handle =
        if handle = node then .ok ⟨.evaluated, wrapper⟩ else state.world.heap.lookup handle := by
  obtain ⟨below, popped, same⟩ := Stack.pop?_of_items (show (begun state).stack.items = .update node :: rest from items)
  obtain ⟨heap, written, rewrites, _⟩ := complete_held wrapper held
  let popping : State σ := { begun state with stack := below }
  let stored : State σ := { popping with world := { popping.world with heap := heap } }
  let after : State σ := { stored with world := stored.world.record (.updated actor node wrapper) }
  have completes : onHeap (Heap.complete node actor wrapper) popping = .ok true stored := onHeap_ok written
  have updates : update ⟨actor, {}, none⟩ node (.fresh wrapper) popping = .ok (.deliver (.stored node wrapper)) after :=
    bind_ok completes
  have finishes : finish host ⟨actor, {}, none⟩ (.fresh wrapper) (begun state) =
      .ok (.continues (.deliver (.stored node wrapper))) after :=
    (finish_pops host _ _ popped).trans (continuing_ok updates)
  exact ⟨after, (unlimited_begins _ _ unhurried).trans finishes, unhurried, same, rewrites.lookup⟩

theorem iterate_returns (unhurried : state.deadline = none) (empty : state.stack.items = []) (value : Node) :
    iterate host ⟨actor, {}, none⟩ (.deliver (.stored node value)) state = .ok (.finished node) (begun state) := by
  refine (unlimited_begins _ _ unhurried).trans ?_
  unfold finish
  rw [bind_ok (rfl : (get : MachineM σ (State σ)) (begun state) = .ok (begun state) (begun state)),
    Stack.pop?_eq_none.mpr (show (begun state).stack.items = [] from empty)]
  rfl

theorem Discovers.of_lookup {heap : Heap} {expr : Expr} {env : Env}
    (found : heap.lookup node = .ok ⟨.unevaluated, .thunk expr env⟩) : Discovers heap [] node [] node expr env := by
  rw [Discovers, Heap.followOn, Heap.followFrom_eq, found]
  rfl

/-- A call builds its box and overwrites the first slot, which it may never have looked at. -/
theorem force_overwrites (full : state.world.heap.Full) (first : state.world.heap.lookup ⟨0, 0⟩ = .ok old)
    (idle : state.stack.items = []) (apart : root ≠ ⟨0, 0⟩)
    (found : state.world.heap.lookup root = .ok ⟨.unevaluated, .thunk wrapping []⟩) :
    ∃ after, force host ⟨actor, {}, none⟩ 4 root state = some (.ok root, after) ∧ after.stack.items = [] ∧
      ∀ handle, after.world.heap.lookup handle =
        if handle = ⟨0, 0⟩ then .ok (.ofNode wrapped)
        else if handle = root then .ok ⟨.evaluated, wrapper⟩
        else state.world.heap.lookup handle := by
  obtain ⟨reached, standing, unhurried, items, lookup⟩ := @force_wraps σ host actor state root root [] old full first idle
    (.of_lookup found)
  have held : reached.world.heap.lookup root = .ok ⟨.inProgress actor, .thunk wrapping []⟩ := by
    rw [lookup, if_neg apart, if_pos rfl]
  obtain ⟨stored, stores, unhurried', empty, overwrites⟩ := @iterate_stores σ host actor reached root [] unhurried items held
  have returns := @iterate_returns σ host actor stored root unhurried' empty wrapper
  have standing' : iterations host ⟨actor, {}, none⟩ (.force root) (begin ⟨actor, {}, none⟩ state) 3 =
      some (.deliver (.stored root wrapper), stored) := by
    rw [iterations, standing]
    simp only [stores]
  refine ⟨begun stored, force_eq_ok.mpr (run_of_iterations standing' (congrArg Progress.outcome? returns)), empty, fun handle => ?_⟩
  show stored.world.heap.lookup handle = _
  rw [overwrites, lookup]
  by_cases isRoot : handle = root
  · rw [if_pos isRoot, isRoot, if_neg apart, if_pos rfl]
  · simp only [if_neg isRoot]

/-- A call for the first slot overwrites the very thunk that it has claimed. -/
theorem force_loses (full : state.world.heap.Full) (idle : state.stack.items = [])
    (found : state.world.heap.lookup ⟨0, 0⟩ = .ok ⟨.unevaluated, .thunk wrapping []⟩) :
    ∃ after, force host ⟨actor, {}, none⟩ 3 ⟨0, 0⟩ state =
      some (.error (.malformed (.notOwner ⟨0, 0⟩ actor)), after) := by
  obtain ⟨reached, standing, unhurried, items, lookup⟩ := @force_wraps σ host actor state ⟨0, 0⟩ ⟨0, 0⟩ [] _ full found idle
    (.of_lookup found)
  obtain ⟨below, popped, _⟩ := Stack.pop?_of_items (show (begun reached).stack.items = _ from items)
  let popping : State σ := { begun reached with stack := below }
  have refused : Heap.complete ⟨0, 0⟩ actor wrapper popping.world.heap = .ok false popping.world.heap.notify := by
    have lost : popping.world.heap.lookup ⟨0, 0⟩ = .ok (.ofNode wrapped) := (lookup _).trans (if_pos rfl)
    have kept : Heap.transition ⟨0, 0⟩ (Slot.complete actor wrapper) popping.world.heap = .ok false popping.world.heap := by
      simp [Heap.transition, lost, Slot.complete, Slot.ofNode, wrapped]
    exact bind_ok kept
  have fails : update ⟨actor, {}, none⟩ ⟨0, 0⟩ (.fresh wrapper) popping = .error (.malformed (.notOwner ⟨0, 0⟩ actor))
      { popping with world := { popping.world with heap := popping.world.heap.notify } } :=
    bind_ok (onHeap_ok refused)
  have finishes : finish host ⟨actor, {}, none⟩ (.fresh wrapper) (begun reached) = _ :=
    (finish_pops host _ _ popped).trans (continuing_error fails)
  have stops : iterate host ⟨actor, {}, none⟩ (.deliver (.fresh wrapper)) reached = _ :=
    (unlimited_begins _ _ unhurried).trans finishes
  exact ⟨_, force_eq_error.mpr ⟨_, run_of_iterations standing (congrArg Progress.outcome? stops), rfl⟩⟩

/-- The content of the box fails. -/
theorem force_fails (idle : state.stack.items = []) (found : state.world.heap.lookup node = .ok (.ofNode wrapped)) :
    ∃ after, force host ⟨actor, {}, none⟩ 2 node state = some (.error (.failed (.raised "boom")), after) := by
  obtain ⟨claimed, claims, unhurried, _⟩ := @iterate_claims σ host actor (begin ⟨actor, {}, none⟩ state) node node []
    ⟨1, .raise "boom"⟩ [] rfl idle (.of_lookup found)
  have raises : iterate host ⟨actor, {}, none⟩ (.eval ⟨1, .raise "boom"⟩ []) claimed =
      .error (.failed (.raised "boom")) (begun claimed) := unlimited_begins _ _ unhurried
  have standing : iterations host ⟨actor, {}, none⟩ (.force node) (begin ⟨actor, {}, none⟩ state) 1 =
      some (.eval ⟨1, .raise "boom"⟩ [], claimed) := iterations_shift claims 0
  exact ⟨_, force_eq_error.mpr ⟨_, run_of_iterations standing (congrArg Progress.outcome? raises), rfl⟩⟩

def idleOn (heap : Heap) : State Unit :=
  ⟨.empty, 0, none, ⟨heap, 0, [], #[], ()⟩⟩

end LazyGraph.Machine

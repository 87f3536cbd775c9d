import LazyGraph.Proofs.Machine.Landing

/-! Forcing a node again.

A call that returns leaves its root at the result, or one link away from it. Values stay
where they are, and a link that points at a value goes on pointing there, whatever calls
are made meanwhile. So a later call on the same root walks one link at most and is done. -/

set_option autoImplicit false

namespace LazyGraph

namespace Heap

variable {heap : Heap} {handle link target : Handle} {slot : Slot}

def Near (heap : Heap) (root target : Handle) (value : Node) : Prop :=
  heap.lookup target = .ok ⟨.evaluated, value⟩ ∧ value.tag.isWhnf ∧ (root = target ∨ heap.LinksTo root target)

variable {before after : Heap} {root : Handle} {value : Node}

theorem Near.assigns (near : before.Near root target value) (assigns : before.Assigns after) :
    after.Near root target value := by
  obtain ⟨stored, isWhnf, arrives⟩ := near
  obtain ⟨slot, stored', change⟩ := assigns.kept.live stored
  obtain rfl := change.whnf isWhnf
  exact ⟨stored', isWhnf, arrives.imp_right fun links => (assigns.direct ⟨links, _, stored, isWhnf⟩).1⟩

/-- One look finds the value, and pointing the chain at it changes nothing. -/
theorem Near.followOn (near : heap.Near root target value) :
    ∃ links, heap.followOn [] root = ⟨links, .at target ⟨.evaluated, value⟩⟩ ∧ heap.pointAll links target = heap := by
  obtain ⟨stored, isWhnf, arrives⟩ := near
  have noLink := Tag.ne_indirection_of_whnf isWhnf
  rcases arrives with rfl | ⟨state, linked⟩
  · exact ⟨[], Route.here.follow stored noLink, rfl⟩
  · exact ⟨[root], (Route.link ⟨state, linked⟩ .here).follow stored noLink, pointAll_still ⟨state, linked⟩⟩

end Heap

namespace Machine

variable {σ τ : Type} {evaluator : Evaluator} {control : Control} {state : State σ} {root target : Handle} {value : Node}

/-- Nothing cancels the call, it has no deadline, and its budget allows so many more steps. -/
structure Undisturbed (evaluator : Evaluator) (state : State σ) (more : Nat) : Prop where
  uncancelled : ∀ token, evaluator.token = some token → ∀ time, (token, time) ∉ state.world.cancellations
  unhurried : state.deadline = none
  budget : ∀ limit, evaluator.settings.maxSteps = some limit → state.steps + more ≤ limit.toNat

theorem Undisturbed.granted {more : Nat} (undisturbed : Undisturbed evaluator state (more + 1)) :
    tick evaluator state = .ok () (begun state) := by
  have uninterrupted : checkInterruption evaluator (begun state) = .ok () (begun state) := by
    have uncancelled : evaluator.token.any (begun state).world.isCancelled = false := by
      cases given : evaluator.token with
      | none => rfl
      | some token =>
        simp only [Option.any_some, World.isCancelled, List.any_eq_false]
        rintro ⟨cancelled, time⟩ member
        have apart : cancelled ≠ token := by
          rintro rfl
          exact undisturbed.uncancelled cancelled given time member
        simp [apart]
    have unhurried : (begun state).deadline = none := undisturbed.unhurried
    simp [checkInterruption, interruption?, uncancelled, unhurried]
  rw [tick_eq]
  cases limited : evaluator.settings.maxSteps with
  | none => exact uninterrupted
  | some limit =>
    have within := undisturbed.budget limit limited
    simp only
    rw [if_neg (by omega), uninterrupted]

/-- A step later nothing has changed but the time, the count and the record. -/
structure Counted (before after : State σ) : Prop where
  stack : after.stack = before.stack
  heap : after.world.heap = before.world.heap
  host : after.world.host = before.world.host
  clock : after.world.clock = before.world.clock + 1
  steps : after.steps = before.steps + 1

theorem Undisturbed.begins {more : Nat} (undisturbed : Undisturbed evaluator state (more + 1)) (control : Control) :
    ∃ ready, Counted state ready ∧ Undisturbed evaluator ready more ∧
      ∀ {α : Type} (next : MachineM σ α), (do tick evaluator; trace evaluator control; next) state = next ready := by
  obtain ⟨events, traced⟩ := trace_ok evaluator control (begun state)
  let ready : State σ := { begun state with world := { (begun state).world with events := events } }
  refine ⟨ready, ⟨rfl, rfl, rfl, rfl, rfl⟩, ⟨undisturbed.uncancelled, undisturbed.unhurried, ?_⟩,
    fun next => (bind_ok undisturbed.granted).trans (bind_ok traced)⟩
  intro limit limited
  have within := undisturbed.budget limit limited
  show state.steps + 1 + more ≤ limit.toNat
  omega

/-- A call on a node whose chain ends at a value takes two steps: one finds the value, the other
returns it. Neither asks the host. -/
theorem force_finds {links : List Handle} {slotState : SlotState}
    (chain : state.world.heap.followOn [] root = ⟨links, .at target ⟨slotState, value⟩⟩) (isWhnf : value.tag.isWhnf)
    (idle : state.stack.items = []) (undisturbed : Undisturbed evaluator (begin evaluator state) 2) {fuel : Nat}
    (enough : 2 ≤ fuel) :
    ∃ ready middle final, Counted (begin evaluator state) ready ∧
      middle = { ready with world := { ready.world with heap := ready.world.heap.pointAll links target } } ∧
      Counted middle final ∧ ∀ host,
      iterations host evaluator (.force root) (begin evaluator state) 1 = some (.deliver (.stored target value), middle) ∧
      force host evaluator fuel root state = some (.ok target, final) := by
  obtain ⟨ready, counted, rest, first⟩ := undisturbed.begins (.force root)
  obtain ⟨middle, pointed⟩ : ∃ middle : State σ, middle =
      { ready with world := { ready.world with heap := ready.world.heap.pointAll links target } } := ⟨_, rfl⟩
  have arrives : demandFrom evaluator [] root ready = .ok (.deliver (.stored target value)) middle := by
    have heap : ready.world.heap = state.world.heap := counted.heap
    rw [demandFrom_arrives (heap.symm ▸ chain) isWhnf, pointed]
  have rest' : Undisturbed evaluator middle 1 := by
    rw [pointed]
    exact ⟨rest.uncancelled, rest.unhurried, rest.budget⟩
  obtain ⟨final, counted', _, second⟩ := rest'.begins (.deliver (.stored target value))
  have begins : ∀ host, iterate host evaluator (.force root) (begin evaluator state) =
      .ok (.continues (.deliver (.stored target value))) middle :=
    fun host => (first _).trans (continuing_ok arrives)
  have empty : final.stack.pop? = none := by
    refine Stack.pop?_eq_none.mpr ((congrArg Stack.items counted'.stack).trans ?_)
    rw [pointed]
    exact (congrArg Stack.items counted.stack).trans idle
  have ends : ∀ host, iterate host evaluator (.deliver (.stored target value)) middle = .ok (.finished target) final := by
    intro host
    refine (second _).trans ?_
    unfold finish
    rw [bind_ok (rfl : (get : MachineM σ (State σ)) final = .ok final final), empty]
    rfl
  refine ⟨ready, middle, final, counted, pointed, counted', fun host => ?_⟩
  have standing : iterations host evaluator (.force root) (begin evaluator state) 1 =
      some (.deliver (.stored target value), middle) := iterations_shift (begins host) 0
  refine ⟨standing, force_eq_ok.mpr ?_⟩
  have runs := run_of_iterations standing (congrArg Progress.outcome? (ends host))
  obtain ⟨more, rfl⟩ := Nat.exists_eq_add_of_le enough
  exact run_more runs more

/-- A call on a node that is near its value leaves the heap as it is. -/
theorem force_near (near : state.world.heap.Near root target value) (idle : state.stack.items = [])
    (undisturbed : Undisturbed evaluator (begin evaluator state) 2) {fuel : Nat} (enough : 2 ≤ fuel) :
    ∃ middle final, Counted (begin evaluator state) middle ∧ Counted middle final ∧ ∀ host,
      iterations host evaluator (.force root) (begin evaluator state) 1 = some (.deliver (.stored target value), middle) ∧
      force host evaluator fuel root state = some (.ok target, final) := by
  obtain ⟨links, chain, same⟩ := near.followOn
  obtain ⟨ready, middle, final, counted, pointed, counted', both⟩ := force_finds chain near.2.1 idle undisturbed enough
  have heap : ready.world.heap.pointAll links target = ready.world.heap := by
    rw [counted.heap]
    exact same
  rw [heap] at pointed
  subst pointed
  exact ⟨ready, final, counted, counted', both⟩

/-- Once a call has returned a result, a call on the same root returns it again, whatever is
done with the heap in between. It takes two steps, on any host and on any stack limit, and
the heap is as it was after each of them. -/
theorem force_again_looks_up {host : Host σ} (uses : host.KeepsTo Heap.Uses) (regular : state.world.heap.Regular)
    (idle : state.stack.items = []) {fuel : Nat} {result : Handle} {after : State σ}
    (ended : force host evaluator fuel root state = some (.ok result, after)) {later : State τ}
    (between : after.world.heap.Uses later.world.heap) (fits : later.world.heap.Addressable)
    (idle' : later.stack.items = []) {evaluator' : Evaluator}
    (uncancelled : ∀ token, evaluator'.token = some token → ∀ time, (token, time) ∉ later.world.cancellations)
    (unhurried : evaluator'.settings.timeLimit = none)
    (budget : ∀ limit, evaluator'.settings.maxSteps = some limit → 2 ≤ limit.toNat) {fuel' : Nat} (enough : 2 ≤ fuel') :
    ∃ value middle final,
      (∀ host',
        iterations host' evaluator' (.force root) (begin evaluator' later) 1 = some (.deliver (.stored result value), middle) ∧
        force host' evaluator' fuel' root later = some (.ok result, final)) ∧
      middle.world.heap = later.world.heap ∧ final.world.heap = later.world.heap ∧
      final.world.host = later.world.host ∧ final.world.clock = later.world.clock + 2 ∧
      final.steps = 2 ∧ final.stack = later.stack := by
  have keeps : host.KeepsTo Heap.Advances := fun fn operands world => (uses fn operands world).advances
  have advances := between.advances
  obtain ⟨_, _, value, _, _, _, _, isWhnf, stored, landed, regular'⟩ :=
    force_lands keeps regular idle ended (fits.mono advances.grows)
  have near : later.world.heap.Near root result value :=
    Heap.Near.assigns ⟨stored, isWhnf, landed.arrives⟩ (advances.settles fits regular').toAssigns
  have deadline : (begin evaluator' later).deadline = none := by simp [begin, unhurried]
  have steps : (begin evaluator' later).steps + 2 = 2 := rfl
  have undisturbed : Undisturbed evaluator' (begin evaluator' later) 2 :=
    ⟨uncancelled, deadline, fun limit limited => steps ▸ budget limit limited⟩
  obtain ⟨middle, final, counted, counted', both⟩ := force_near near idle' undisturbed enough
  refine ⟨value, middle, final, both, counted.heap, counted'.heap.trans counted.heap, counted'.host.trans counted.host,
    ?_, ?_, counted'.stack.trans counted.stack⟩
  · rw [counted'.clock, counted.clock]
    rfl
  · rw [counted'.steps, counted.steps]
    rfl

/-! ### A failure in between -/

def recallNodes : List Node := chainNodes ++ [.thunk ⟨0, .raise "boom"⟩ []]

-- Just enough for a lookup.
def frugalEvaluator : Evaluator := ⟨⟨2⟩, { maxSteps := some 2, maxWorkStack := 0 }, none⟩

theorem recallCalls_end :
    ∃ after later, force failingHost Moment.sessionEvaluator 9 ⟨4, 0⟩ ⟨.empty, 0, none, worldOf recallNodes⟩ =
        some (.ok ⟨0, 0⟩, after) ∧
      force failingHost Moment.sessionEvaluator 9 ⟨5, 0⟩ after = some (.error (.failed (.raised "boom")), later) ∧
      (worldOf recallNodes).heap.capacity = 6 ∧ after.stack.items = [] ∧ later.stack.items = [] ∧
      later.world.heap.capacity = 6 := by
  have computed : ((force failingHost Moment.sessionEvaluator 9 ⟨4, 0⟩ ⟨.empty, 0, none, worldOf recallNodes⟩).bind
      fun first => (force failingHost Moment.sessionEvaluator 9 ⟨5, 0⟩ first.2).map fun second =>
        (first.1, second.1, (worldOf recallNodes).heap.capacity, first.2.stack.items.length, second.2.stack.items.length,
          second.2.world.heap.capacity)) =
      some (.ok ⟨0, 0⟩, .error (.failed (.raised "boom")), 6, 0, 0, 6) := by
    decide +kernel
  obtain ⟨⟨result, after⟩, ended, rest⟩ := Option.bind_eq_some_iff.mp computed
  obtain ⟨⟨result', later⟩, ended', facts⟩ := Option.map_eq_some_iff.mp rest
  simp only [Prod.mk.injEq] at facts
  obtain ⟨rfl, rfl, capacity, idle, idle', capacity'⟩ := facts
  exact ⟨after, later, ended, ended', capacity, List.length_eq_zero_iff.mp idle, List.length_eq_zero_iff.mp idle', capacity'⟩

theorem force_again_looks_up_failure :
    ∃ after later final, force failingHost Moment.sessionEvaluator 9 ⟨4, 0⟩ ⟨.empty, 0, none, worldOf recallNodes⟩ =
        some (.ok ⟨0, 0⟩, after) ∧
      force failingHost Moment.sessionEvaluator 9 ⟨5, 0⟩ after = some (.error (.failed (.raised "boom")), later) ∧
      force failingHost frugalEvaluator 2 ⟨4, 0⟩ later = some (.ok ⟨0, 0⟩, final) ∧
      final.steps = 2 ∧ final.world.heap = later.world.heap := by
  obtain ⟨after, later, ended, failed, capacity, idle, idle', capacity'⟩ := recallCalls_end
  have regular : (worldOf recallNodes).heap.Regular :=
    worldOf_regular recallNodes (by rw [Heap.Addressable, capacity]; decide)
  have between : after.world.heap.Uses later.world.heap :=
    .force (fun fn operands world => Moment.failingHost_uses fn operands world) idle failed
  have fits : later.world.heap.Addressable := by
    rw [Heap.Addressable, capacity']
    decide
  have budget : ∀ limit, frugalEvaluator.settings.maxSteps = some limit → 2 ≤ limit.toNat := by
    rintro limit ⟨⟩
    decide
  obtain ⟨_, _, final, both, _, heap, _, _, steps, _⟩ :=
    force_again_looks_up Moment.failingHost_uses regular rfl ended between fits idle' (fun _ given => by cases given) rfl budget
      (Nat.le_refl 2)
  exact ⟨after, later, final, ended, failed, (both failingHost).2, steps, heap⟩

/-- On a heap with a slot for each word a call in between may overwrite the value that was returned. -/
theorem force_again_fails :
    ∃ (heap : Heap) (after later final : State Unit), heap.Brims [.int 0, .thunk wrapping []] ∧ heap.Regular ∧
      force failingHost Moment.sessionEvaluator 2 ⟨0, 0⟩ (idleOn heap) = some (.ok ⟨0, 0⟩, after) ∧
      force failingHost Moment.sessionEvaluator 4 ⟨1, 0⟩ after = some (.ok ⟨1, 0⟩, later) ∧
      force failingHost Moment.sessionEvaluator 2 ⟨0, 0⟩ later = some (.error (.failed (.raised "boom")), final) := by
  obtain ⟨heap, brims, -⟩ := @Heap.exists_brims (fun _ => True) [.int 0, .thunk wrapping []] trivial fun _ _ _ _ => trivial
  have near : (idleOn heap).world.heap.Near ⟨0, 0⟩ ⟨0, 0⟩ (.int 0) := ⟨brims.lookup 0, rfl, .inl rfl⟩
  obtain ⟨middle, after, counted, counted', both⟩ :=
    @force_near _ Moment.sessionEvaluator (idleOn heap) _ _ _ near rfl ⟨nofun, rfl, nofun⟩ 2 (Nat.le_refl 2)
  have same : after.world.heap = heap := counted'.heap.trans counted.heap
  have idle : after.stack.items = [] := congrArg Stack.items (counted'.stack.trans counted.stack)
  obtain ⟨later, ended, idle', lookup⟩ := @force_overwrites Unit failingHost ⟨1⟩ after ⟨1, 0⟩ _ (same ▸ brims.full)
    (same ▸ brims.lookup 0) idle (by decide) (same ▸ brims.lookup 1)
  obtain ⟨final, fails⟩ := @force_fails Unit failingHost ⟨1⟩ later ⟨0, 0⟩ idle' ((lookup _).trans (if_pos rfl))
  exact ⟨heap, after, later, final, brims, brims.regular, (both failingHost).2, ended, fails⟩

end Machine

end LazyGraph

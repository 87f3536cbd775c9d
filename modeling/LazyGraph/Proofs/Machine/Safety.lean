import LazyGraph.Proofs.Machine.Contract
import LazyGraph.Proofs.Machine.Iterations
import LazyGraph.Proofs.Machine.Unwinding
import LazyGraph.Proofs.Machine.Wraparound

/-! Reducing a well-formed graph.

Between two transitions the heap is well-formed, the frames and the next action find in
it what they name, and the update frames hold their thunks. One transition keeps all
this, or faults for a reason outside the graph; so does a whole call, and what it leaves
is well-formed again. -/

set_option autoImplicit false

namespace LazyGraph

def Progress.sound : Progress → Condition
  | .continues control => control.sound
  | .finished result => .live result

namespace Machine

variable {σ α : Type} {actor : Actor} {evaluator : Evaluator} {state after : State σ} {gives : α → Condition}

structure Safe (actor : Actor) (state : State σ) : Prop extends Formed state where
  holds : Holds state.world.heap actor state.stack.items

-- How a computation may end that began in a safe state.
def Secures (actor : Actor) (gives : α → Condition) : EStateM.Result Fault (State σ) α → Prop
  | .ok value after => Safe actor after ∧ (gives value).holds after.world.heap.Live
  | .error fault after => after.world.heap.WellFormed ∧ fault.Acceptable

theorem Safe.ready (safe : Safe actor state) (stack : after.stack = state.stack)
    (heap : after.world.heap = state.world.heap) : Safe actor after where
  heap := heap ▸ safe.heap
  frames := heap ▸ stack ▸ safe.frames
  holds := heap ▸ stack ▸ safe.holds

theorem Safe.of_idle (formed : state.world.heap.WellFormed) (idle : state.stack.items = []) : Safe actor state := by
  refine ⟨⟨formed, ?_⟩, ?_⟩
  · rw [idle]
    exact nofun
  · rw [idle]
    exact .nil _ _

theorem Meets.secures {needs : Condition} {computation : MachineM σ α} (meets : Meets actor needs computation gives)
    (safe : Safe actor state) (needed : needs.holds state.world.heap.Live)
    (fits : (computation state).state.world.heap.Addressable) : Secures actor gives (computation state) := by
  have landed := meets.lands safe.toFormed needed fits
  obtain ⟨⟨pushed, plain, items⟩, drift⟩ := meets.works state
  cases ended : computation state with
  | error fault after =>
    rw [ended] at landed
    exact landed
  | ok value after =>
    rw [ended] at landed items drift fits
    have kept := Heap.Drift.kept drift fits safe.heap.free
    have holds : Holds after.world.heap actor (pushed ++ state.stack.items) :=
      (safe.holds.step fun _ held => kept.thunk (SlotLaw.sparing_spares actor) held).append (plain_unmarked plain)
    refine ⟨⟨landed.1, ?_⟩, landed.2⟩
    rw [show after.stack.items = pushed ++ state.stack.items from items]
    exact holds

theorem Secures.continuing {computation : MachineM σ Control}
    (secures : Secures actor Control.sound (computation state)) :
    Secures actor Progress.sound (continuing computation state) := by
  cases ended : computation state with
  | ok next after =>
    rw [ended] at secures
    rw [continuing_ok ended]
    exact secures
  | error fault after =>
    rw [ended] at secures
    rw [continuing_error ended]
    exact secures

/-! ### Demanding a node -/

theorem enter_secures {links : List Handle} {node : Handle} {expr : Expr} {env : Env} {heap : Heap}
    (safe : Safe evaluator.actor state)
    (claims : Claims evaluator.actor state.world.heap heap node expr env) (waits : heap.waits = state.world.heap.waits)
    (linksLive : ∀ link ∈ links, state.world.heap.Live link) :
    Secures evaluator.actor Control.sound (enter evaluator links node expr env
      { state with world := { state.world with heap := heap } }) := by
  have formed := safe.heap.nodes claims.found
  have formed' : heap.WellFormed := safe.heap.rewrites claims waits formed
  have widens : ∀ handle, state.world.heap.Live handle → heap.Live handle := fun handle => (claims.live_iff handle).mpr
  rcases enter_cases evaluator links node expr env { state with world := { state.world with heap := heap } } with
    ⟨_, after, ended, items, world⟩ | ⟨_, after, pushed, ended, items, unmarked, world⟩
  · have sameHeap : after.world.heap = heap := by rw [world]
    rw [ended]
    refine ⟨⟨⟨sameHeap ▸ formed', ?_⟩, ?_⟩, ?_⟩
    · rw [items, sameHeap]
      intro frame member
      rcases List.mem_cons.mp member with rfl | member
      · trivial
      · rcases List.mem_append.mp member with member | member
        · unfold redirection at member
          split at member
          · cases member
          · cases List.mem_singleton.mp member
            exact fun link inChain => widens link (linksLive link inChain)
        · exact frame.sound.mono widens (safe.frames frame member)
    · rw [items, sameHeap]
      exact safe.holds.claims claims links
    · rw [sameHeap]
      exact (Control.eval expr env).sound.mono widens ⟨formed.references, formed.code⟩
  · have sameHeap : after.world.heap = heap := by rw [world]
    rw [ended]
    exact ⟨sameHeap ▸ formed', Fault.exhausted_acceptable _⟩

theorem startWait_secures {links : List Handle} {node : Handle} (safe : Safe evaluator.actor state)
    (sound : (Control.await links node).sound.holds state.world.heap.Live) :
    Secures evaluator.actor Control.sound (startWait evaluator links node state) := by
  unfold startWait
  rcases safe.heap.beginWait sound.2 evaluator.actor with ⟨heap, waited, entries, formed⟩ | refused
  · rw [bind_ok (onHeap_ok waited)]
    have same : ∀ handle, heap.lookup handle = state.world.heap.lookup handle := Heap.lookup_congr entries
    have widens : ∀ handle, state.world.heap.Live handle → heap.Live handle :=
      fun handle ⟨slot, found⟩ => ⟨slot, (same handle).trans found⟩
    refine ⟨⟨safe.toFormed.moved rfl widens formed, ?_⟩, (Control.await links node).sound.mono widens sound⟩
    exact safe.holds.step fun _ held => (same _).trans held
  · rw [bind_error (onHeap_error refused)]
    exact ⟨safe.heap, Fault.nonTermination_acceptable _⟩

theorem collapse_meets (links : List Handle) (target : Handle) (value : Node) :
    Meets actor ((Control.await links target).sound.and (.node value))
      (do redirectAll (σ := σ) links target; return .deliver (.stored target value)) Control.sound := by
  refine Meets.bind ((redirectAll_meets links target).weaken fun _ both => both.1) fun _ => .pure ?_
  rintro live ⟨_, sound, formed⟩
  exact ⟨formed, List.forall_mem_singleton.mpr sound.2⟩

theorem demandFrom_secures {passed : List Handle} {start : Handle} (safe : Safe evaluator.actor state)
    (sound : (Control.await passed start).sound.holds state.world.heap.Live)
    (fits : (demandFrom evaluator passed start state).state.world.heap.Addressable) :
    Secures evaluator.actor Control.sound (demandFrom evaluator passed start state) := by
  have passedLive : ∀ link ∈ passed.reverse, state.world.heap.Live link :=
    fun link member => sound.1 link (List.mem_reverse.mp member)
  have walk : (∀ fault, (state.world.heap.followOn passed start).landing ≠ .broken fault) ∧
      ∀ link ∈ (state.world.heap.followOn passed start).links, state.world.heap.Live link :=
    safe.heap.followFrom sound.2 passedLive
  obtain ⟨unbroken, linksLive⟩ := walk
  have here : ∀ {links node slot}, state.world.heap.followOn passed start = ⟨links, .at node slot⟩ →
      (Control.await links node).sound.holds state.world.heap.Live := by
    intro links node slot chain
    rw [chain] at linksLive
    exact ⟨linksLive, slot, (Heap.followOn_at (congrArg Chain.landing chain)).1⟩
  have demands := demandFrom_cases evaluator passed start state
  generalize demandFrom evaluator passed start state = result at demands fits ⊢
  cases demands with
  | broken chain => exact absurd (congrArg Chain.landing chain) (unbroken _)
  | loop | own => exact ⟨safe.heap, Fault.nonTermination_acceptable _⟩
  | claims found _ claims waits => exact enter_secures safe claims waits (here found).1
  | waits chain _ => exact startWait_secures safe (here chain)
  | stuck chain => exact ⟨safe, here chain⟩
  | @value links target slot chain _ =>
    have found := (Heap.followOn_at (congrArg Chain.landing chain)).1
    exact (collapse_meets links target _).secures safe ⟨here chain, safe.heap.nodes found⟩ fits

theorem resumeWait_secures {links : List Handle} {node : Handle} (safe : Safe evaluator.actor state)
    (sound : (Control.await links node).sound.holds state.world.heap.Live)
    (fits : (resumeWait evaluator links node state).state.world.heap.Addressable) :
    Secures evaluator.actor Control.sound (resumeWait evaluator links node state) := by
  obtain ⟨linksLive, slot, found⟩ := sound
  by_cases walks : Walks evaluator state (.await links node) links node
  · cases walks with
    | await granted live unheld =>
      rw [resumeWait_over granted live unheld] at fits ⊢
      let ready : State σ :=
        { state with world := { state.world with heap := state.world.heap.endWait evaluator.actor } }
      have ready' : Safe evaluator.actor ready :=
        ⟨⟨safe.heap.endWait evaluator.actor, safe.frames⟩, safe.holds.step fun _ held => held⟩
      have sound' : (Control.await links node).sound.holds ready.world.heap.Live := ⟨linksLive, slot, found⟩
      exact demandFrom_secures ready' sound' fits
  · obtain ⟨stack, heap, waits, fails⟩ := resumeWait_still walks
    cases ended : resumeWait evaluator links node state with
    | ok next after =>
      rw [ended] at stack heap
      have same : after.world.heap = state.world.heap := heap
      rw [waits next after ended]
      refine ⟨safe.ready stack same, ?_⟩
      rw [same]
      exact ⟨linksLive, slot, found⟩
    | error fault after =>
      rw [ended] at heap
      rcases fails fault after ended with ⟨limit, rfl⟩ | missing
      · exact ⟨heap ▸ safe.heap, Fault.exhausted_acceptable limit⟩
      · cases missing.symm.trans found

/-! ### Delivering a value -/

theorem updatePayload_sound {live : Handle → Prop} {node : Handle} {whnf : Whnf} (isLive : live node)
    (sound : (Control.deliver whnf).sound.holds live) :
    (updatePayload node whnf).1.WellFormed live ∧ live (updatePayload node whnf).2 := by
  rcases updatePayload_cases node whnf with ⟨existing, stored, _, same⟩ | same
  · have existingLive : live existing := sound.2 existing (by simp [stored])
    rw [same]
    exact ⟨.indirection existingLive, existingLive⟩
  · rw [same]
    exact ⟨sound.1, isLive⟩

/-- The thunk of an update frame is held, so it takes the value. -/
theorem update_secures {node : Handle} {whnf : Whnf} (formed : Formed state)
    (holds : Holds state.world.heap evaluator.actor (.update node :: state.stack.items))
    (sound : (Control.deliver whnf).sound.holds state.world.heap.Live) :
    Secures evaluator.actor Control.sound (update evaluator node whnf state) := by
  obtain ⟨expr, env, held⟩ := holds.thunk (.head _)
  obtain ⟨after, ended, stack, rewrites, waits⟩ := update_held whnf held
  have widens : ∀ handle, state.world.heap.Live handle → after.world.heap.Live handle :=
    fun handle => (rewrites.live_iff handle).mpr
  obtain ⟨payload, result⟩ := updatePayload_sound ⟨_, held⟩ sound
  rw [ended]
  refine ⟨⟨formed.moved stack widens (formed.heap.rewrites rewrites waits payload), ?_⟩, ?_⟩
  · rw [stack]
    exact holds.tail.step (spared_of_rewrites rewrites fun other member => holds.apart member)
  · exact ⟨sound.1.mono widens, List.forall_mem_singleton.mpr (widens _ result)⟩

variable {host : Host σ}

theorem finish_secures {whnf : Whnf} (lawful : host.Follows (SlotLaw.sparing evaluator.actor).motion)
    (behaves : host.Behaves) (safe : Safe evaluator.actor state)
    (sound : (Control.deliver whnf).sound.holds state.world.heap.Live)
    (fits : (finish host evaluator whnf state).state.world.heap.Addressable) :
    Secures evaluator.actor Progress.sound (finish host evaluator whnf state) := by
  cases popped : state.stack.pop? with
  | some top =>
    obtain ⟨frame, rest⟩ := top
    have items := Stack.pop?_eq_some popped
    rw [finish_pops host evaluator whnf popped] at fits ⊢
    rw [continuing_state] at fits
    have frames := safe.frames
    have holds := safe.holds
    rw [items] at frames holds
    obtain ⟨top, frames⟩ := List.forall_mem_cons.mp frames
    let below : State σ := { state with stack := rest }
    have formed : Formed below := ⟨safe.heap, frames⟩
    apply Secures.continuing
    by_cases isUpdate : ∃ node, frame = .update node
    · obtain ⟨node, rfl⟩ := isUpdate
      exact update_secures formed holds sound
    · have unclaimed : ∀ node, frame ≠ .update node := fun node same => isUpdate ⟨node, same⟩
      exact (resume_meets lawful behaves evaluator unclaimed whnf).secures ⟨formed, holds.tail⟩ ⟨top, sound⟩ fits
  | none =>
    unfold finish at fits ⊢
    rw [bind_ok (rfl : (get : MachineM σ (State σ)) state = .ok state state), popped] at fits ⊢
    cases located : whnf.handle? with
    | some handle => exact ⟨safe, sound.2 handle (by simp [located])⟩
    | none =>
      simp only [located] at fits ⊢
      have allocated : Meets evaluator.actor (.node whnf.node)
          (do return .finished (← onHeap (σ := σ) (Heap.alloc whnf.node))) Progress.sound :=
        (alloc_meets whnf.node).bind fun handle => .pure fun live needed => needed.1
      exact allocated.secures safe sound.1 fits

/-! ### One transition, and all of them -/

variable {control next : Control} {reached : State σ}

theorem Secures.step (next : MachineM σ Progress) (safe : Safe evaluator.actor state)
    (fits : ((do tick evaluator; trace evaluator control; next) state).state.world.heap.Addressable)
    (later : ∀ {ready}, Safe evaluator.actor ready → ready.world.heap = state.world.heap →
      (next ready).state.world.heap.Addressable → Secures evaluator.actor Progress.sound (next ready)) :
    Secures evaluator.actor Progress.sound ((do tick evaluator; trace evaluator control; next) state) := by
  rcases step_cases evaluator control next state with ⟨limit, refused⟩ | ⟨_, ready, stack, heap, going⟩
  · rw [refused]
    exact ⟨safe.heap, Fault.exhausted_acceptable limit⟩
  · rw [going] at fits ⊢
    exact later (safe.ready stack heap) heap fits

theorem iterate_secures (lawful : host.Follows (SlotLaw.sparing evaluator.actor).motion) (behaves : host.Behaves)
    (safe : Safe evaluator.actor state) (sound : control.sound.holds state.world.heap.Live)
    (fits : (iterate host evaluator control state).state.world.heap.Addressable) :
    Secures evaluator.actor Progress.sound (iterate host evaluator control state) := by
  cases control with
  | await links node =>
    have goes : iterate host evaluator (.await links node) state =
        continuing (resumeWait evaluator links node) state := rfl
    rw [goes] at fits ⊢
    rw [continuing_state] at fits
    exact (resumeWait_secures safe sound fits).continuing
  | eval expr env =>
    refine Secures.step (continuing (eval host evaluator expr env)) safe fits fun safe' heap fits' => ?_
    rw [continuing_state] at fits'
    exact ((eval_meets lawful behaves evaluator expr env).secures safe' (heap ▸ sound) fits').continuing
  | force handle =>
    refine Secures.step (continuing (demand evaluator handle)) safe fits fun {ready} safe' heap fits' => ?_
    rw [continuing_state] at fits'
    have sound' : (Control.await [] handle).sound.holds ready.world.heap.Live := ⟨nofun, heap ▸ sound⟩
    exact (demandFrom_secures safe' sound' fits').continuing
  | deliver whnf =>
    exact Secures.step (finish host evaluator whnf) safe fits fun safe' heap fits' =>
      finish_secures lawful behaves safe' (heap ▸ sound) fits'

theorem iterations_safe (lawful : host.Follows (SlotLaw.sparing evaluator.actor).motion) (behaves : host.Behaves)
    (safe : Safe evaluator.actor state) (sound : control.sound.holds state.world.heap.Live) {count : Nat}
    (standing : iterations host evaluator control state count = some (next, reached))
    (fits : reached.world.heap.Addressable) :
    Safe evaluator.actor reached ∧ next.sound.holds reached.world.heap.Live := by
  induction count generalizing next reached with
  | zero =>
    cases standing
    exact ⟨safe, sound⟩
  | succ count ih =>
    obtain ⟨control', before, earlier, stepped⟩ := iterations_succ standing
    have grows := (iterate_transition lawful evaluator control' before).grows
    rw [stepped] at grows
    obtain ⟨safe', sound'⟩ := ih earlier (fits.mono grows)
    have secured := iterate_secures lawful behaves safe' sound' (stepped ▸ fits)
    rw [stepped] at secured
    exact secured

theorem unwind_formed (formed : state.world.heap.WellFormed) (evaluator : Evaluator) (fault : Fault) :
    (unwind evaluator fault state).world.heap.WellFormed := by
  have released : ∀ (frames : List Frame) (released : Nat) (heap : Heap), heap.WellFormed →
      (releaseAll evaluator.actor frames released heap).2.WellFormed := by
    intro frames released heap formed
    fun_induction releaseAll evaluator.actor frames released heap with
    | case1 => exact formed
    | case2 node frames released heap heap' ended ih | case3 node frames released heap heap' ended ih =>
      have kept := formed.release node evaluator.actor
      rw [ended] at kept
      exact ih kept
    | case4 node frames released heap fault heap' ended ih =>
      have kept := formed.release node evaluator.actor
      rw [ended] at kept
      exact ih kept
    | case5 _ _ _ _ _ ih => exact ih formed
  exact (released state.stack.items 0 state.world.heap formed).endWait evaluator.actor

/-- A call on a well-formed graph leaves a well-formed graph, whether it succeeds or not, and
the one fault it can find in the graph is an alternative that binds another number of
fields than the value it is chosen for has. -/
theorem force_never_malformed (lawful : host.Follows (SlotLaw.sparing evaluator.actor).motion)
    (behaves : host.Behaves) (idle : state.stack.items = []) (formed : state.world.heap.WellFormed) {root : Handle}
    (live : state.world.heap.Live root) {fuel : Nat} {result : Except Fault Handle}
    (ended : force host evaluator fuel root state = some (result, after)) (fits : after.world.heap.Addressable) :
    after.world.heap.WellFormed ∧
      (∀ handle, result = .ok handle → after.world.heap.Live handle) ∧
      ∀ defect, result = .error (.malformed defect) →
        ∃ ordinal binds fields, defect = .fieldCount ordinal binds fields ∧ binds.toNat ≠ fields := by
  have safe : Safe evaluator.actor (begin evaluator state) := .of_idle formed idle
  have sound : (Control.force root).sound.holds (begin evaluator state).world.heap.Live := live
  obtain ⟨count, control, last, standing, ends⟩ := force_ends ended
  have grows := (iterate_transition lawful evaluator control last).grows
  rcases ends with ⟨handle, rfl, finished⟩ | ⟨fault, raised, rfl, failed, rfl⟩
  · rw [finished] at grows
    obtain ⟨safe', sound'⟩ := iterations_safe lawful behaves safe sound standing (fits.mono grows)
    have secured := iterate_secures lawful behaves safe' sound' (finished ▸ fits)
    rw [finished] at secured
    refine ⟨secured.1.heap, ?_, nofun⟩
    rintro _ ⟨⟩
    exact secured.2
  · rw [failed] at grows
    have fits' : raised.world.heap.Addressable := by
      have same := capacity_releaseAll evaluator.actor raised.stack.items 0 raised.world.heap
      exact fits.mono (Nat.le_of_eq same.symm)
    obtain ⟨safe', sound'⟩ := iterations_safe lawful behaves safe sound standing (fits'.mono grows)
    have secured := iterate_secures lawful behaves safe' sound' (failed ▸ fits')
    rw [failed] at secured
    refine ⟨unwind_formed secured.1 evaluator fault, nofun, ?_⟩
    rintro defect same
    exact secured.2 defect (Except.error.inj same)

/-! ### A list that is its own tail -/

-- The sum of the first two items of a list that repeats one item for ever; the second item
-- is taken by an alternative that binds this many fields.
def knot (binds : UInt64) : Expr :=
  ⟨0, .letrec [⟨1, .data 1 "Cons" [⟨2, .int 5⟩, ⟨3, .var 0⟩]⟩]
    ⟨4, .choose ⟨3, .var 0⟩ [⟨1, 2, ⟨5, .primitive .intAdd
      [⟨6, .var 1⟩, ⟨7, .choose ⟨8, .var 2⟩ [⟨1, binds, ⟨9, .var 3⟩⟩] none⟩]⟩⟩] none⟩⟩

theorem knot_scoped {live : Handle → Prop} {binds : UInt64} (enough : 0 < binds.toNat) :
    (knot binds).Scoped live 0 := by
  have list : Expr.Scoped live 1 ⟨1, .data 1 "Cons" [⟨2, .int 5⟩, ⟨3, .var 0⟩]⟩ :=
    .data 1 "Cons" (List.forall_mem_cons.mpr ⟨.int 5, List.forall_mem_singleton.mpr (.var (by decide))⟩)
  have second : Expr.Scoped live 3 ⟨7, .choose ⟨8, .var 2⟩ [⟨1, binds, ⟨9, .var 3⟩⟩] none⟩ :=
    .choose (.var (by decide)) (List.forall_mem_singleton.mpr (.var (Nat.lt_add_of_pos_right enough))) nofun
  have sum : Expr.Scoped live 3 ⟨5, .primitive .intAdd [⟨6, .var 1⟩, _]⟩ :=
    .primitive rfl (List.forall_mem_cons.mpr ⟨.var (by decide), List.forall_mem_singleton.mpr second⟩)
  exact .letrec (by decide) (List.forall_mem_singleton.mpr list)
    (.choose (.var (by decide)) (List.forall_mem_singleton.mpr sum) nofun)

def knotCall (binds : UInt64) : Evaluator × State Unit :=
  start ⟨(Heap.alloc (.thunk (knot binds) []) (.ofSettings {})).state, 0, [], #[], ()⟩ {} none

theorem knotCall_formed {binds : UInt64} (enough : 0 < binds.toNat) : (knotCall binds).2.world.heap.WellFormed := by
  have formed : (Heap.alloc (.thunk (knot binds) []) (.ofSettings {})).state.WellFormed :=
    (Heap.WellFormed.ofSettings {}).alloc ⟨nofun, knot_scoped enough⟩ (by decide : 1 ≤ UInt32.size)
  exact formed.of_entries rfl rfl formed.waits

theorem failingHost_behaves : failingHost.Behaves where
  returns := fun called => by cases called
  fails := by
    intro fn operands world fault after called _ formed _ _
    cases called
    exact ⟨formed, nofun⟩

theorem knotCall_sums :
    ∃ after, force failingHost (knotCall 2).1 40 ⟨0, 0⟩ (knotCall 2).2 = some (.ok ⟨0, 0⟩, after) ∧
      after.world.heap.capacity = 3 ∧ after.world.heap.lookup ⟨0, 0⟩ = .ok ⟨.evaluated, .int 10⟩ := by
  have computed : (force failingHost (knotCall 2).1 40 ⟨0, 0⟩ (knotCall 2).2).map (fun (result, after) =>
      (result, after.world.heap.capacity, after.world.heap.int? ⟨0, 0⟩)) =
      some (.ok ⟨0, 0⟩, 3, some 10) := by
    decide +kernel
  obtain ⟨⟨result, after⟩, ended, facts⟩ := Option.map_eq_some_iff.mp computed
  simp only [Prod.mk.injEq] at facts
  obtain ⟨rfl, capacity, shown⟩ := facts
  exact ⟨after, ended, capacity, Heap.int?_eq_some.mp shown⟩

theorem knotCall_mismatches :
    ∃ after, force failingHost (knotCall 1).1 40 ⟨0, 0⟩ (knotCall 1).2 =
        some (.error (.malformed (.fieldCount 1 1 2)), after) ∧ after.world.heap.capacity = 3 := by
  have computed : (force failingHost (knotCall 1).1 40 ⟨0, 0⟩ (knotCall 1).2).map (fun (result, after) =>
      (result, after.world.heap.capacity)) = some (.error (.malformed (.fieldCount 1 1 2)), 3) := by
    decide +kernel
  obtain ⟨⟨result, after⟩, ended, facts⟩ := Option.map_eq_some_iff.mp computed
  simp only [Prod.mk.injEq] at facts
  obtain ⟨rfl, capacity⟩ := facts
  exact ⟨after, ended, capacity⟩

/-- The graph is well-formed before and after, also when the one fault is met. -/
theorem force_never_malformed_knot :
    (∃ after, force failingHost (knotCall 2).1 40 ⟨0, 0⟩ (knotCall 2).2 = some (.ok ⟨0, 0⟩, after) ∧
      after.world.heap.lookup ⟨0, 0⟩ = .ok ⟨.evaluated, .int 10⟩ ∧ after.world.heap.WellFormed) ∧
    ∃ after, force failingHost (knotCall 1).1 40 ⟨0, 0⟩ (knotCall 1).2 =
        some (.error (.malformed (.fieldCount 1 1 2)), after) ∧ after.world.heap.WellFormed := by
  have fits : ∀ {heap : Heap}, heap.capacity = 3 → heap.Addressable := by
    intro heap capacity
    rw [Heap.Addressable, capacity]
    decide
  have live : ∀ binds, (knotCall binds).2.world.heap.Live ⟨0, 0⟩ := fun binds => ⟨_, rfl⟩
  obtain ⟨after, ended, capacity, found⟩ := knotCall_sums
  obtain ⟨after', ended', capacity'⟩ := knotCall_mismatches
  refine ⟨⟨after, ended, found, ?_⟩, after', ended', ?_⟩
  · exact (force_never_malformed (failingHost_follows _) failingHost_behaves rfl (knotCall_formed (by decide)) (live 2)
      ended (fits capacity)).1
  · exact (force_never_malformed (failingHost_follows _) failingHost_behaves rfl (knotCall_formed (by decide)) (live 1)
      ended' (fits capacity')).1

theorem wrapping_scoped (live : Handle → Prop) : wrapping.Scoped live 0 :=
  .data 0 "Box" (List.forall_mem_singleton.mpr (.raise "boom"))

/-- On a heap with a slot for each word the thunk of a box is overwritten by its content. The
graph is well-formed, and yet the call finds that its thunk is not its own. -/
theorem force_malformed_full :
    ∃ (heap : Heap) (after : State Unit), heap.Brims [.thunk wrapping []] ∧ heap.WellFormed ∧ heap.Live ⟨0, 0⟩ ∧
      force failingHost ⟨⟨1⟩, {}, none⟩ 3 ⟨0, 0⟩ (idleOn heap) = some (.error (.malformed (.notOwner ⟨0, 0⟩ ⟨1⟩)), after) := by
  obtain ⟨heap, brims, -⟩ := @Heap.exists_brims (fun _ => True) [.thunk wrapping []] trivial fun _ _ _ _ => trivial
  have found : heap.lookup ⟨0, 0⟩ = .ok ⟨.unevaluated, .thunk wrapping []⟩ := brims.lookup 0
  have formed : heap.WellFormed := brims.wellFormed fun place live => by
    cases place with
    | zero => exact ⟨nofun, wrapping_scoped live⟩
    | succ place => exact ⟨nofun, trivial⟩
  obtain ⟨after, lost⟩ := @force_loses Unit failingHost ⟨1⟩ (idleOn heap) brims.full rfl found
  exact ⟨heap, after, brims, formed, ⟨_, found⟩, lost⟩

end Machine

end LazyGraph

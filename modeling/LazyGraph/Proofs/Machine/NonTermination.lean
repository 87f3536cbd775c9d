import LazyGraph.Proofs.Heap.Walks
import LazyGraph.Proofs.Machine.Correspondence
import LazyGraph.Proofs.Machine.StepEffects
import LazyGraph.Proofs.Machine.Faults
import LazyGraph.Proofs.Recursion.Runs

/-! Nodes that depend on themselves.

With one actor at work, a demand never waits and never looks twice. Its walk passes each link
once, and it fails where it comes back to a link or ends at a thunk that the actor is reducing;
nothing else fails in this way. -/

set_option autoImplicit false

namespace LazyGraph

namespace Heap

variable {heap : Heap}

def Unclaimed : Heap → Prop :=
  Throughout fun slot => ∀ owner, slot.state ≠ .inProgress owner

theorem Unclaimed.sole (unclaimed : heap.Unclaimed) (actor : Actor) : heap.Sole actor :=
  fun index slot found owner held => absurd held (unclaimed index slot found owner)

theorem Unclaimed.not_held (unclaimed : heap.Unclaimed) (actor : Actor) (node : Handle) : ¬ heap.HeldBy actor node := by
  intro held
  obtain ⟨content, found⟩ := Heap.heldBy_iff.mp held
  exact unclaimed.lookup found actor rfl

end Heap

/-- The functions leave alone what this actor reduces, claim nothing for others, and never
report that a node depends on itself. -/
structure Host.Solitary {σ : Type} (host : Host σ) (actor : Actor) : Prop where
  spares : host.Follows (SlotLaw.sparing actor).motion
  advances : host.KeepsTo Heap.Advances
  alone : host.Follows (.sole actor)
  honest : ∀ fn operands, Raises Fault.Ordinary (host.call fn operands)

theorem Host.Solitary.of_untouched {σ : Type} {host : Host σ} (untouched : host.KeepsTo Eq)
    (honest : ∀ fn operands, Raises Fault.Ordinary (host.call fn operands)) (actor : Actor) : host.Solitary actor where
  spares := Machine.keepsTo_of_untouched untouched
  advances := Machine.keepsTo_of_untouched untouched
  alone := Machine.keepsTo_of_untouched untouched
  honest := honest

namespace Machine

variable {σ : Type} {host : Host σ} {evaluator : Evaluator} {control next : Control} {state ready after reached : State σ}
  {handle node root : Handle} {count : Nat}

/-! ### One demand -/

/-- Demanding the handle comes back to the node: the walk passes it twice, or it ends at a
thunk that the actor is reducing. -/
inductive Recurs (state : State σ) (handle node : Handle) : Prop where
  | loops (revisits : state.world.heap.Revisits handle node)
  | reduces {links : List Handle} {slotState : SlotState} {expr : Expr} {env : Env}
      (route : state.world.heap.Route node links handle)
      (found : state.world.heap.lookup node = .ok ⟨slotState, .thunk expr env⟩) (marker : node ∈ updateMarkers state.stack)

/-- With one actor at work, what it has claimed is what it is reducing. -/
structure Single (actor : Actor) (state : State σ) : Prop where
  regular : state.world.heap.Regular
  sole : state.world.heap.Sole actor
  held : ∀ node, state.world.heap.HeldBy actor node ↔ node ∈ updateMarkers state.stack

theorem Recurs.fails (recurs : Recurs state handle node) (single : Single evaluator.actor state)
    (same : ready.world.heap = state.world.heap) :
    demandFrom evaluator [] handle ready = .error (.nonTermination node) ready := by
  cases recurs with
  | loops revisits =>
    have landed : (ready.world.heap.followOn [] handle).landing = .loop node := same ▸ Heap.follow_loop_iff.mpr revisits
    exact demandFrom_loop evaluator landed
  | reduces route found marker =>
    obtain ⟨_, held⟩ := Heap.heldBy_iff.mp ((single.held node).mpr marker)
    cases found.symm.trans held
    rw [demandFrom_held evaluator (same ▸ route.follow found nofun), if_pos rfl]

theorem Recurs.of_demandFrom (single : Single evaluator.actor state) (same : ready.world.heap = state.world.heap)
    (failed : demandFrom evaluator [] handle ready = .error (.nonTermination node) after) : Recurs state handle node := by
  have demands := demandFrom_cases evaluator [] handle ready
  rw [failed] at demands
  generalize result : EStateM.Result.error (Fault.nonTermination node) after = answer at demands
  cases demands with
  | broken chain =>
    cases result
    obtain ⟨defect, broken⟩ := Heap.followFrom_broken (congrArg Chain.landing chain)
    cases broken
  | loop chain =>
    cases result
    exact .loops (Heap.follow_loop_iff.mp (same ▸ congrArg Chain.landing chain))
  | @claims links target expr env heap =>
    rcases enter_cases evaluator links target expr env { ready with world := { ready.world with heap := heap } } with
      ⟨_, _, enters, _⟩ | ⟨_, _, _, refused, _⟩
    · cases result.trans enters
    · cases result.trans refused
  | own chain =>
    cases result
    have found := (Heap.followOn_at (congrArg Chain.landing chain)).1
    rw [same] at chain found
    exact .reduces (Heap.follow_route chain) found ((single.held _).mp (Heap.heldBy_iff.mpr ⟨_, found⟩))
  | waits chain other =>
    have found := (Heap.followOn_at (congrArg Chain.landing chain)).1
    exact absurd (single.sole.lookup (same ▸ found) _ rfl) other
  | stuck => cases result
  | @value links target slot =>
    exact absurd rfl (((redirectAll_raises links target).bind fun _ => .pure _) _ _ _ result.symm node)

theorem demandFrom_active (single : Single evaluator.actor state) (stack : ready.stack = state.stack)
    (same : ready.world.heap = state.world.heap) (ended : demandFrom evaluator [] handle ready = .ok next after) :
    next.waits = false := by
  cases demandFrom_demands single.regular stack same ended with
  | claims | arrives => rfl
  | blocks other entries _ held =>
    rw [Heap.lookup_congr entries] at held
    exact absurd (single.sole.lookup held _ rfl) other

structure Brief (host : Host σ) (evaluator : Evaluator) (handle : Handle) (state : State σ) : Prop where
  distinct : (state.world.heap.follow handle).links.Nodup
  bounded : (state.world.heap.follow handle).links.length ≤ state.world.heap.capacity
  decided : ∀ links node after, iterate host evaluator (.force handle) state ≠ .ok (.continues (.await links node)) after

theorem Single.brief (single : Single evaluator.actor state) (host : Host σ) (handle : Handle) :
    Brief host evaluator handle state where
  distinct := (state.world.heap.follow_brief handle).1
  bounded := (state.world.heap.follow_brief handle).2
  decided := by
    intro links node after stepped
    obtain ⟨ready, stack, same, going⟩ := step_ok stepped
    cases demandFrom_active single stack same (continuing_inv going)

/-! ### Whole calls -/

theorem iterate_active (single : Single evaluator.actor state) (active : control.waits = false)
    (stepped : iterate host evaluator control state = .ok (.continues next) after) : next.waits = false := by
  cases control with
  | await links node => cases active
  | eval expr env =>
    obtain ⟨ready, _, _, going⟩ := step_ok stepped
    exact (eval_fresh host evaluator expr env _ _ _ (continuing_inv going)).active
  | force handle =>
    obtain ⟨ready, stack, same, going⟩ := step_ok stepped
    exact demandFrom_active single stack same (continuing_inv going)
  | deliver whnf =>
    obtain ⟨ready, _, _, going⟩ := step_ok stepped
    obtain ⟨frame, _, _, resumed⟩ := finish_continues going
    exact resume_active host evaluator frame whnf _ _ _ resumed

section

variable (solitary : host.Solitary evaluator.actor) (regular : state.world.heap.Regular) (idle : state.stack.items = [])
  (unclaimed : state.world.heap.Unclaimed)

include solitary regular idle unclaimed

theorem iterations_single (standing : iterations host evaluator (.force root) (begin evaluator state) count = some (control, reached))
    (fits : reached.world.heap.Addressable) : Single evaluator.actor reached ∧ control.waits = false := by
  induction count generalizing control reached with
  | zero =>
    cases standing
    exact ⟨⟨regular, unclaimed.sole _, fun node => ⟨fun held => absurd held (unclaimed.not_held _ node), fun marker => by
      rw [mem_updateMarkers] at marker
      exact absurd marker (idle ▸ List.not_mem_nil)⟩⟩, rfl⟩
  | succ count ih =>
    obtain ⟨before, between, earlier, stepped⟩ := iterations_succ standing
    have moved := iterate_transition solitary.spares evaluator before between
    rw [stepped] at moved
    obtain ⟨single, active⟩ := ih earlier (fits.mono moved.grows)
    have poised := iterations_poised solitary.advances regular (.begin regular idle root) standing fits
    have idle' : (begin evaluator state).stack.items = [] := idle
    have stands := iterations_standing solitary.spares (SlotLaw.sparing_spares _) idle' regular.free
      (unclaimed.not_held evaluator.actor) standing fits
    exact ⟨⟨poised.settles.regular regular, iterate_sole solitary.alone single.sole stepped, stands.correspondence.held⟩,
      iterate_active single active stepped⟩

/-- On a heap where nothing is in progress, with one actor at work and no limits: every demand
is over after a walk that passes each link once, and the call reports that a node depends on
itself exactly when a demand comes back to this node. -/
theorem nonTermination_exact (root : Handle) (free : Unhindered host evaluator (.force root) (begin evaluator state)) :
    (∀ count control reached, iterations host evaluator (.force root) (begin evaluator state) count = some (control, reached) →
      reached.world.heap.Addressable →
      (∀ links node, control ≠ .await links node) ∧ ∀ handle, control = .force handle → Brief host evaluator handle reached) ∧
    ∀ node,
      (∃ fuel after, force host evaluator fuel root state = some (.error (.nonTermination node), after) ∧
        after.world.heap.Addressable) ↔
      ∃ count handle reached,
        iterations host evaluator (.force root) (begin evaluator state) count = some (.force handle, reached) ∧
        reached.world.heap.Addressable ∧ Recurs reached handle node := by
  refine ⟨fun count control reached standing fits => ?_, fun node => ⟨?_, ?_⟩⟩
  · obtain ⟨single, active⟩ := iterations_single solitary regular idle unclaimed standing fits
    exact ⟨Control.ne_await active, fun handle _ => single.brief host handle⟩
  · rintro ⟨fuel, after, failed, fits⟩
    obtain ⟨count, control, reached, standing, ends⟩ := force_ends failed
    obtain ⟨_, same, _⟩ | ⟨fault, raised, same, ended, rfl⟩ := ends
    · cases same
    cases same
    have moved := iterate_transition solitary.spares evaluator control reached
    rw [ended] at moved
    have fits' : reached.world.heap.Addressable :=
      (fits.mono (Nat.le_of_eq (unwind_capacity evaluator _ raised).symm)).mono moved.grows
    obtain ⟨single, active⟩ := iterations_single solitary regular idle unclaimed standing fits'
    by_cases forces : ∃ handle, control = .force handle
    · obtain ⟨handle, rfl⟩ := forces
      refine ⟨count, handle, reached, standing, fits', ?_⟩
      rcases step_cases evaluator (.force handle) (continuing (demand evaluator handle)) reached with
        ⟨limit, refused⟩ | ⟨_, ready, _, same, going⟩
      · cases ended.symm.trans refused
      · have failed : continuing (demandFrom evaluator [] handle) ready = .error (.nonTermination node) raised :=
          going.symm.trans ended
        exact .of_demandFrom single same (continuing_eq_error.mp failed)
    · have raises := iterate_raises solitary.honest evaluator (fun handle same => forces ⟨handle, same⟩) (Control.ne_await active)
      exact absurd rfl (raises _ _ _ ended node)
  · rintro ⟨count, handle, reached, standing, fits, recurs⟩
    obtain ⟨single, active⟩ := iterations_single solitary regular idle unclaimed standing fits
    obtain ⟨ready, _, same, going⟩ := step_granted (.force handle) (continuing (demand evaluator handle))
      (granted (free _ _ _ standing) rfl)
    have failed : iterate host evaluator (.force handle) reached = .error (.nonTermination node) ready :=
      going.trans (continuing_error (recurs.fails single same))
    have ran := run_of_iterations standing (congrArg Progress.outcome? failed)
    refine ⟨_, _, force_eq_error.mpr ⟨ready, ran, rfl⟩, fits.mono (Nat.le_of_eq ?_)⟩
    rw [unwind_capacity, same]

end

/-! ### A thunk that asks for itself -/

-- The thunk at index 0 stands for what is one link away, and this is the thunk.
def ringNodes : List Node :=
  [.thunk ⟨0, .var 0⟩ [⟨1, 0⟩], .indirection ⟨0, 0⟩]

def ringCall : State Unit := ⟨.empty, 0, none, worldOf ringNodes⟩

theorem worldOf_unclaimed (nodes : List Node) : (worldOf nodes).heap.Unclaimed := by
  refine Heap.ofNodes_throughout (fun node owner held => ?_) nodes
  cases node <;> cases held

theorem ringCall_fails :
    ∃ after, force failingHost Moment.sessionEvaluator 9 ⟨1, 0⟩ ringCall = some (.error (.nonTermination ⟨0, 0⟩), after) ∧
      ringCall.world.heap.capacity = 2 ∧ after.world.heap.capacity = 2 := by
  have computed : (force failingHost Moment.sessionEvaluator 9 ⟨1, 0⟩ ringCall).map
      (fun (result, after) => (result, ringCall.world.heap.capacity, after.world.heap.capacity)) =
      some (.error (.nonTermination ⟨0, 0⟩), 2, 2) := by
    decide +kernel
  obtain ⟨⟨result, after⟩, ended, facts⟩ := Option.map_eq_some_iff.mp computed
  simp only [Prod.mk.injEq] at facts
  obtain ⟨rfl, capacity, capacity'⟩ := facts
  exact ⟨after, ended, capacity, capacity'⟩

theorem nonTermination_exact_ring :
    ∃ count handle reached,
      iterations failingHost Moment.sessionEvaluator (.force ⟨1, 0⟩) (begin Moment.sessionEvaluator ringCall) count =
        some (.force handle, reached) ∧
      Recurs reached handle ⟨0, 0⟩ ∧ Brief failingHost Moment.sessionEvaluator handle reached := by
  obtain ⟨after, failed, capacity, capacity'⟩ := ringCall_fails
  obtain ⟨raised, ran, _⟩ := force_eq_error.mp failed
  have regular : ringCall.world.heap.Regular :=
    worldOf_regular ringNodes (by rw [Heap.Addressable, show (worldOf ringNodes).heap.capacity = 2 from capacity]; decide)
  have unclaimed : ringCall.world.heap.Unclaimed := worldOf_unclaimed ringNodes
  have solitary : failingHost.Solitary Moment.sessionEvaluator.actor :=
    .of_untouched (fun _ _ _ => rfl) (fun _ _ => .throw fun _ same => Fault.noConfusion same) _
  obtain ⟨briefs, reports⟩ := nonTermination_exact solitary regular rfl unclaimed ⟨1, 0⟩ (unhindered_of_failure ran (by simp))
  obtain ⟨count, handle, reached, standing, fits, recurs⟩ := (reports ⟨0, 0⟩).mp
    ⟨9, after, failed, by rw [Heap.Addressable, capacity']; decide⟩
  exact ⟨count, handle, reached, standing, recurs, (briefs count _ reached standing fits).2 handle rfl⟩

end Machine

end LazyGraph

import LazyGraph.Proofs.Machine.NonTermination
import LazyGraph.Proofs.Machine.Recall

/-! Forcing a handle and resolving it.

Both walk the chain of the handle. Where it ends in no thunk, a call has nothing to reduce, and
gives what resolving gives: the node at the end, or the fault at a handle that names nothing.
They part at links that lead into a loop from outside. The call names the link where the walk
comes back, which lies on the loop; resolving names the handle that it was asked for. -/

set_option autoImplicit false

namespace LazyGraph

namespace Heap

variable {heap : Heap} {handle node : Handle} {fault : Fault}

theorem resolve_loop (landed : (heap.follow handle).landing = .loop node) :
    heap.resolve handle = .error (.nonTermination handle) := by
  simp only [resolve, resolveSlot, landed, Except.map]

theorem resolve_broken (landed : (heap.follow handle).landing = .broken fault) : heap.resolve handle = .error fault := by
  simp only [resolve, resolveSlot, landed, Except.map]

theorem not_revisits {landing : Landing} (landed : (heap.follow handle).landing = landing) (ends : ∀ link, landing ≠ .loop link) :
    ¬ heap.Revisits handle node := by
  intro revisits
  exact ends node (landed.symm.trans (follow_loop_iff.mpr revisits))

end Heap

namespace Machine

variable {σ : Type} {evaluator : Evaluator} {state : State σ} {root : Handle} {fault : Fault}

/-- A call whose first demand fails fails with it, in one step. -/
theorem force_refuses (host : Host σ) (undisturbed : Undisturbed evaluator (begin evaluator state) 1)
    (fails : ∀ ready : State σ, ready.world.heap = state.world.heap → demandFrom evaluator [] root ready = .error fault ready)
    {fuel : Nat} (enough : 1 ≤ fuel) : ∃ after, force host evaluator fuel root state = some (.error fault, after) := by
  obtain ⟨ready, counted, _, first⟩ := undisturbed.begins (.force root)
  have ends : iterate host evaluator (.force root) (begin evaluator state) = .error fault ready :=
    (first _).trans (continuing_error (fails ready counted.heap))
  have standing : iterations host evaluator (.force root) (begin evaluator state) 0 = some (.force root, begin evaluator state) :=
    rfl
  have runs := run_of_iterations standing (congrArg Progress.outcome? ends)
  obtain ⟨more, rfl⟩ := Nat.exists_eq_add_of_le enough
  exact ⟨_, force_eq_error.mpr ⟨ready, run_more runs more, rfl⟩⟩

/-- With no limit in the way, a call on a handle whose chain ends in no thunk is over after two
transitions at most. Its outcome is what resolving the handle gives, unless links lead from the
handle into a loop that it is not on: then the call names the link where the loop is entered,
and resolving names the handle. -/
theorem force_resolves (host : Host σ) (idle : state.stack.items = [])
    (unsuspended : ∀ target slot, state.world.heap.Resolves target root → state.world.heap.lookup target = .ok slot →
      slot.node.tag ≠ .thunk)
    (uncancelled : ∀ token, evaluator.token = some token → ∀ time, (token, time) ∉ state.world.cancellations)
    (unhurried : evaluator.settings.timeLimit = none)
    (budget : ∀ limit, evaluator.settings.maxSteps = some limit → 2 ≤ limit.toNat) {fuel : Nat} (enough : 2 ≤ fuel) :
    ∃ outcome after, force host evaluator fuel root state = some (outcome, after) ∧
      (outcome = state.world.heap.resolve root ↔ ∀ node, state.world.heap.Revisits root node → node = root) ∧
      ∀ node, state.world.heap.Revisits root node →
        outcome = .error (.nonTermination node) ∧ state.world.heap.resolve root = .error (.nonTermination root) := by
  have deadline : (begin evaluator state).deadline = none := by simp [begin, unhurried]
  have within : ∀ {more}, more ≤ 2 → Undisturbed evaluator (begin evaluator state) more := by
    intro more few
    refine ⟨uncancelled, deadline, fun limit limited => ?_⟩
    have steps : (begin evaluator state).steps = 0 := rfl
    have := budget limit limited
    omega
  rcases chain : state.world.heap.follow root with ⟨links, landing⟩
  have landed : (state.world.heap.follow root).landing = landing := congrArg Chain.landing chain
  cases landing with
  | «at» target slot =>
    obtain ⟨slotState, value⟩ := slot
    have found := (Heap.followOn_at landed).1
    have resolves := (Heap.followOn_resolves landed).1
    have isWhnf : value.tag.isWhnf := by
      cases value with
      | thunk expr env => exact absurd rfl (unsuspended target _ resolves found)
      | indirection next => exact absurd rfl ((Heap.followOn_at landed).2 next)
      | _ => rfl
    obtain ⟨_, _, after, _, _, _, both⟩ := force_finds chain isWhnf idle (within (Nat.le_refl 2)) enough
    have apart : ∀ node, ¬ state.world.heap.Revisits root node := fun node => Heap.not_revisits landed (by simp)
    refine ⟨.ok target, after, (both host).2, ⟨fun _ node revisits => absurd revisits (apart node), fun _ => ?_⟩,
      fun node revisits => absurd revisits (apart node)⟩
    exact (Heap.resolve_iff.mpr resolves).symm
  | loop node =>
    have revisits : state.world.heap.Revisits root node := Heap.follow_loop_iff.mp landed
    have only : ∀ other, state.world.heap.Revisits root other → other = node := by
      intro other revisits'
      exact Landing.loop.inj ((Heap.follow_loop_iff.mpr revisits').symm.trans landed)
    have resolved := Heap.resolve_loop landed
    obtain ⟨after, fails⟩ := force_refuses host (within (Nat.le_succ 1))
      (fun ready same => demandFrom_loop evaluator (same ▸ landed)) (Nat.le_of_succ_le enough)
    refine ⟨_, after, fails, ⟨fun agrees other revisits' => ?_, fun lies => ?_⟩, fun other revisits' => ?_⟩
    · rw [resolved] at agrees
      injection agrees with same
      injection same with same
      exact (only other revisits').trans same
    · rw [resolved, lies node revisits]
    · exact ⟨by rw [only other revisits'], resolved⟩
  | broken fault =>
    obtain ⟨after, fails⟩ := force_refuses host (within (Nat.le_succ 1))
      (fun ready same => demandFrom_broken evaluator (same ▸ landed)) (Nat.le_of_succ_le enough)
    have apart : ∀ node, ¬ state.world.heap.Revisits root node := fun node => Heap.not_revisits landed (by simp)
    refine ⟨_, after, fails, ⟨fun _ node revisits => absurd revisits (apart node), fun _ => ?_⟩,
      fun node revisits => absurd revisits (apart node)⟩
    exact (Heap.resolve_broken landed).symm

/-! ### A link into a loop -/

-- The second link is a loop of its own, and the first leads to it.
def tailNodes : List Node :=
  [.indirection ⟨1, 0⟩, .indirection ⟨1, 0⟩]

def tailCall : State Unit := ⟨.empty, 0, none, worldOf tailNodes⟩

theorem tailCall_loops : tailCall.world.heap.Revisits ⟨0, 0⟩ ⟨1, 0⟩ :=
  ⟨[⟨0, 0⟩], [⟨1, 0⟩], by simp, by decide, .link ⟨.evaluated, rfl⟩ .here, .link ⟨.evaluated, rfl⟩ .here⟩

theorem force_resolves_tail :
    ∃ after, force failingHost Moment.sessionEvaluator 2 ⟨0, 0⟩ tailCall = some (.error (.nonTermination ⟨1, 0⟩), after) ∧
      tailCall.world.heap.resolve ⟨0, 0⟩ = .error (.nonTermination ⟨0, 0⟩) := by
  have unsuspended : ∀ target slot, tailCall.world.heap.Resolves target ⟨0, 0⟩ → tailCall.world.heap.lookup target = .ok slot →
      slot.node.tag ≠ .thunk := by
    intro target slot resolves
    have resolved := Heap.resolve_iff.mpr resolves
    rw [Heap.resolve_loop (Heap.follow_loop_iff.mpr tailCall_loops)] at resolved
    cases resolved
  obtain ⟨outcome, after, forced, _, loops⟩ := @force_resolves _ Moment.sessionEvaluator tailCall ⟨0, 0⟩ failingHost rfl
    unsuspended nofun rfl nofun 2 (Nat.le_refl 2)
  obtain ⟨rfl, resolved⟩ := loops ⟨1, 0⟩ tailCall_loops
  exact ⟨after, forced, resolved⟩

/-- Forcing and resolving name different nodes, and the one that resolving names is on no loop. -/
theorem resolve_names_tail :
    (∃ after, force failingHost Moment.sessionEvaluator 2 ⟨0, 0⟩ tailCall = some (.error (.nonTermination ⟨1, 0⟩), after)) ∧
      tailCall.world.heap.resolve ⟨0, 0⟩ = .error (.nonTermination ⟨0, 0⟩) ∧
      ¬ tailCall.world.heap.Revisits ⟨0, 0⟩ ⟨0, 0⟩ := by
  have landed := Heap.follow_loop_iff.mpr tailCall_loops
  refine ⟨?_, Heap.resolve_loop landed, fun revisits => ?_⟩
  · have computed : (force failingHost Moment.sessionEvaluator 2 ⟨0, 0⟩ tailCall).map Prod.fst =
        some (.error (.nonTermination ⟨1, 0⟩)) := by
      decide +kernel
    obtain ⟨⟨outcome, after⟩, forced, rfl⟩ := Option.map_eq_some_iff.mp computed
    exact ⟨after, forced⟩
  · cases landed.symm.trans (Heap.follow_loop_iff.mpr revisits)

end Machine

end LazyGraph

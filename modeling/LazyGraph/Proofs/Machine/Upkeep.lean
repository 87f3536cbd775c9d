import LazyGraph.Proofs.Machine.Iterations
import LazyGraph.Proofs.Machine.Work

/-! Whole calls along a relation between heaps.

What an evaluator does to the heap comes to four kinds of operations: it allocates, it
changes slots, it notes waits, and it counts changes. A relation that holds across each of
them, and across what the host's functions do, holds across a call, whether the call returns
or fails. -/

set_option autoImplicit false

namespace LazyGraph

/-- A relation between heaps that all the heap operations of an evaluator stay within. -/
class Upkeep (along : Heap → Heap → Prop) : Prop extends Pathway along where
  transition : ∀ handle change, Moves along (Heap.transition handle change)
  noted : ∀ heap waits epoch, along heap { heap with waits := waits, epoch := epoch }

namespace Heap

variable {along : Heap → Heap → Prop} [Upkeep along]

local instance : Std.Refl along := ⟨Pathway.refl⟩

local instance : Trans along along along := ⟨Pathway.trans⟩

theorem notified_moves {operation : HeapM Bool} (moves : Moves along operation) :
    Moves along (do
      let done ← operation
      modify notify
      return done) := by
  have told : Moves along (modify notify : HeapM Unit) := fun heap => Upkeep.noted heap heap.waits (heap.epoch + 1)
  exact moves.bind fun _ => told.bind fun _ => Moves.pure _

theorem complete_moves (handle : Handle) (actor : Actor) (result : Node) : Moves along (complete handle actor result) :=
  notified_moves (Upkeep.transition handle _)

theorem release_moves (handle : Handle) (actor : Actor) : Moves along (release handle actor) :=
  notified_moves (Upkeep.transition handle _)

theorem beginWait_moves (actor : Actor) (node : Handle) : Moves along (beginWait actor node) := by
  intro heap
  unfold beginWait
  split
  · exact Pathway.refl heap
  · exact Pathway.refl heap
  · exact Upkeep.noted heap _ heap.epoch

theorem endWait_along (heap : Heap) (actor : Actor) : along heap (heap.endWait actor) :=
  Upkeep.noted heap _ heap.epoch

end Heap

namespace Machine

variable {σ α : Type} {along : Heap → Heap → Prop} {host : Host σ}

-- What a computation of an evaluator does to the heap.
def Upheld (along : Heap → Heap → Prop) (before after : State σ) : Prop :=
  along before.world.heap after.world.heap

theorem upheld_of_works {computation : MachineM σ α} (works : Moves (Works along) computation) :
    Moves (Upheld along) computation :=
  fun state => (works state).heap

theorem onHeap_upheld {operation : HeapM α} (moves : Moves along operation) :
    Moves (Upheld (σ := σ) along) (onHeap operation) :=
  upheld_of_works (onHeap_works moves)

variable [Upkeep along]

instance : Std.Refl (Upheld (σ := σ) along) := ⟨fun state => Pathway.refl state.world.heap⟩

instance : Trans (Upheld (σ := σ) along) (Upheld along) (Upheld along) := ⟨Pathway.trans⟩

theorem push_upheld (evaluator : Evaluator) (frame : Frame) :
    Moves (Upheld (σ := σ) along) (push evaluator frame) := by
  intro state
  unfold push
  split <;> exact Pathway.refl state.world.heap

theorem getHeap_upheld : Moves (Upheld (σ := σ) along) getHeap :=
  fun state => Pathway.refl state.world.heap

theorem redirectAll_upheld (links : List Handle) (target : Handle) :
    Moves (Upheld (σ := σ) along) (redirectAll links target) :=
  Moves.forM links fun link _ => (onHeap_upheld (Upkeep.transition link _)).bind fun _ => Moves.pure _

theorem demandFrom_upheld (evaluator : Evaluator) (passed : List Handle) (start : Handle) :
    Moves (Upheld (σ := σ) along) (demandFrom evaluator passed start) := by
  refine getHeap_upheld.bind fun heap => ?_
  simp only
  split
  · exact Moves.throw _
  · exact Moves.throw _
  · rename_i handle slot landed
    split
    · refine (onHeap_upheld (Upkeep.transition handle _)).bind fun claimed => ?_
      split
      · unfold enter
        split
        · exact (push_upheld evaluator _).bind fun _ => Moves.pure _
        · exact (push_upheld evaluator _).bind fun _ => (push_upheld evaluator _).bind fun _ => Moves.pure _
      · split
        · split
          · exact Moves.throw _
          · exact (onHeap_upheld (Heap.beginWait_moves _ _)).bind fun _ =>
              (upheld_of_works (record_works _)).bind fun _ => Moves.pure _
        · exact Moves.pure _
    · exact (redirectAll_upheld _ handle).bind fun _ => Moves.pure _

theorem resumeWait_upheld (evaluator : Evaluator) (links : List Handle) (node : Handle) :
    Moves (Upheld (σ := σ) along) (resumeWait evaluator links node) := by
  have checked : Moves (Upheld (σ := σ) along) (checkInterruption evaluator) := by
    intro state
    rw [checkInterruption_state]
    exact Pathway.refl state.world.heap
  refine checked.bind fun _ => getHeap_upheld.bind fun heap => (upheld_of_works (settle_works _)).bind fun state => ?_
  split
  · refine (upheld_of_works (modifyWorld_works fun world => ?_)).bind fun _ => Moves.pure _
    exact Pathway.refl world.heap
  · refine (upheld_of_works (modifyWorld_works fun world => ?_)).bind fun _ => demandFrom_upheld _ _ _
    exact Heap.endWait_along world.heap evaluator.actor

theorem update_upheld (evaluator : Evaluator) (node : Handle) (whnf : Whnf) :
    Moves (Upheld (σ := σ) along) (update evaluator node whnf) := by
  refine (onHeap_upheld (Heap.complete_moves node _ _)).bind fun written => ?_
  split
  · exact (upheld_of_works (record_works _)).bind fun _ => Moves.pure _
  · exact Moves.throw _

theorem resume_upheld (keeps : host.KeepsTo along) (evaluator : Evaluator) (frame : Frame) (whnf : Whnf) :
    Moves (Upheld along) (resume host evaluator frame whnf) := by
  cases frame with
  | update node => exact update_upheld evaluator node whnf
  | redirect links =>
    simp only [resume]
    split
    · exact (redirectAll_upheld links _).bind fun _ => Moves.pure _
    · exact Moves.pure _
  | _ => exact upheld_of_works (resume_plain_works keeps evaluator rfl whnf)

theorem finish_upheld (keeps : host.KeepsTo along) (evaluator : Evaluator) (whnf : Whnf) :
    Moves (Upheld along) (finish host evaluator whnf) := by
  have read : Moves (Upheld along) (get : MachineM σ (State σ)) := fun state => Pathway.refl state.world.heap
  refine read.bind fun state => ?_
  split
  · rename_i frame stack popped
    have drop : Moves (Upheld along) (modify fun state => { state with stack := stack } : MachineM σ Unit) :=
      fun state => Pathway.refl state.world.heap
    exact drop.bind fun _ => (resume_upheld keeps evaluator frame whnf).bind fun _ => Moves.pure _
  · split
    · exact Moves.pure _
    · exact (onHeap_upheld (Pathway.alloc _)).bind fun _ => Moves.pure _

theorem iterate_upheld (keeps : host.KeepsTo along) (evaluator : Evaluator) (control : Control) :
    Moves (Upheld along) (iterate host evaluator control) := by
  have ticks : Moves (Upheld (σ := σ) along) (tick evaluator) := by
    intro state
    rw [tick_state]
    exact Pathway.refl state.world.heap
  have traces : ∀ control, Moves (Upheld (σ := σ) along) (trace evaluator control) := by
    intro control state
    obtain ⟨after, traced, _, heap⟩ := trace_state evaluator control state
    rw [traced, Upheld, EStateM.Result.state, heap]
    exact Pathway.refl state.world.heap
  unfold iterate
  cases control with
  | await links node => exact (resumeWait_upheld evaluator links node).bind fun _ => Moves.pure _
  | eval expr env =>
    refine ticks.bind fun _ => (traces _).bind fun _ => ?_
    exact (upheld_of_works (eval_works keeps evaluator expr env)).bind fun _ => Moves.pure _
  | force handle =>
    refine ticks.bind fun _ => (traces _).bind fun _ => ?_
    exact (demandFrom_upheld evaluator [] handle).bind fun _ => Moves.pure _
  | deliver whnf => exact ticks.bind fun _ => (traces _).bind fun _ => finish_upheld keeps evaluator whnf

theorem releaseAll_upheld (actor : Actor) (frames : List Frame) (released : Nat) (heap : Heap) :
    along heap (releaseAll actor frames released heap).2 := by
  induction frames generalizing released heap with
  | nil => exact Pathway.refl heap
  | cons frame frames ih =>
    cases frame with
    | update node =>
      have gives : along heap (Heap.release node actor heap).state := Heap.release_moves node actor heap
      rw [releaseAll]
      split
      all_goals
        rename_i ended
        rw [ended] at gives
        exact Pathway.trans gives (ih _ _)
    | _ => exact ih released heap

theorem iterations_upheld (keeps : host.KeepsTo along) {evaluator : Evaluator} {control next : Control}
    {state reached : State σ} {count : Nat}
    (standing : iterations host evaluator control state count = some (next, reached)) :
    along state.world.heap reached.world.heap := by
  induction count generalizing next reached with
  | zero =>
    cases standing
    exact Pathway.refl state.world.heap
  | succ count ih =>
    obtain ⟨control', before, earlier, stepped⟩ := iterations_succ standing
    have step : Upheld along before (iterate host evaluator control' before).state :=
      iterate_upheld keeps evaluator control' before
    rw [stepped] at step
    exact Pathway.trans (ih earlier) step

theorem force_upheld (keeps : host.KeepsTo along) {evaluator : Evaluator} {fuel : Nat} {root : Handle}
    {state after : State σ} {result : Except Fault Handle}
    (ended : force host evaluator fuel root state = some (result, after)) :
    along state.world.heap after.world.heap := by
  obtain ⟨count, control, last, standing, ends⟩ := force_ends ended
  have under : along (begin evaluator state).world.heap last.world.heap := iterations_upheld keeps standing
  have step : Upheld along last (iterate host evaluator control last).state := iterate_upheld keeps evaluator control last
  rcases ends with ⟨handle, _, finished⟩ | ⟨fault, raised, _, failed, rfl⟩
  · rw [finished] at step
    exact Pathway.trans under step
  · rw [failed] at step
    have unwound : along raised.world.heap (unwind evaluator fault raised).world.heap :=
      Pathway.trans (releaseAll_upheld evaluator.actor raised.stack.items 0 raised.world.heap)
        (Heap.endWait_along _ evaluator.actor)
    exact Pathway.trans (Pathway.trans under step) unwound

end Machine

end LazyGraph

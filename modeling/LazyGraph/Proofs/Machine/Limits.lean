import Mathlib.Order.Bounds.Basic
import LazyGraph.Proofs.Machine.LimitedSteps
import LazyGraph.Proofs.Machine.Unrivalled

/-! Limits on the steps and the work stack of a call.

A call with limits does what the call without them does, step by step, until a limit stops
it: the stack limit in the first step that ends with too deep a stack, the budget in the
first step that is one too many. -/

set_option autoImplicit false

namespace LazyGraph.Machine

variable {σ : Type} {host : Host σ} {evaluator : Evaluator} {steps depth : UInt64} {control next : Control}
  {state after seen : State σ} {result : EStateM.Result Fault (State σ) Handle} {fuel : Nat}

/-! ### Whole runs -/

/-- The states of a run: the first one, and what each transition leaves. -/
inductive Sees (host : Host σ) (evaluator : Evaluator) : Control → State σ → State σ → Prop where
  | here {control : Control} {state : State σ} : Sees host evaluator control state state
  | left {control : Control} {state : State σ} :
      Sees host evaluator control state (iterate host evaluator control state).state
  | later {control next : Control} {state after seen : State σ}
      (stepped : iterate host evaluator control state = .ok (.continues next) after)
      (rest : Sees host evaluator next after seen) : Sees host evaluator control state seen

theorem iterate_counts_le (host : Host σ) (evaluator : Evaluator) (control : Control) (state : State σ) :
    state.steps ≤ (iterate host evaluator.unlimited control state).state.steps := by
  by_cases waits : ∃ links node, control = .await links node
  · obtain ⟨links, node, rfl⟩ := waits
    rw [await_counts]
  · rw [iterate_counts host evaluator state fun links node same => waits ⟨links, node, same⟩]
    exact Nat.le_succ _

theorem Sees.counts (sees : Sees host evaluator.unlimited control state seen) : state.steps ≤ seen.steps := by
  induction sees with
  | here => exact Nat.le_refl _
  | left => exact iterate_counts_le host evaluator _ _
  | @later control _ state _ _ stepped _ ih =>
    have counts := iterate_counts_le host evaluator control state
    rw [stepped] at counts
    exact Nat.le_trans counts ih

/-- The stack of a limited run never holds more frames than the limit allows. -/
theorem Sees.fits (sees : Sees host (evaluator.limited steps depth) control state seen)
    (fits : state.stack.depth ≤ depth.toNat) : seen.stack.depth ≤ depth.toNat := by
  induction sees with
  | here => exact fits
  | left => exact iterate_fits host evaluator steps _ fits
  | @later control _ state _ _ stepped _ ih =>
    have fits' := iterate_fits host evaluator steps control fits
    rw [stepped] at fits'
    exact ih fits'

/-- How a run under limits ends, where the one without ends with `result`: nothing is past a
limit, a push is too deep within the first `steps` steps, or these go by before one is. -/
inductive Stops (host : Host σ) (evaluator : Evaluator) (steps depth : UInt64) (control : Control) (state : State σ)
    (result : EStateM.Result Fault (State σ) Handle) : Option (EStateM.Result Fault (State σ) Handle) → Prop where
  | never (within : result.state.steps ≤ steps.toNat)
      (fits : ∀ seen, Sees host evaluator.unlimited control state seen → seen.stack.depth ≤ depth.toNat) :
      Stops host evaluator steps depth control state result (some result)
  | pushing {raised seen : State σ} (sees : Sees host evaluator.unlimited control state seen)
      (within : seen.steps ≤ steps.toNat) (deeper : depth.toNat < seen.stack.depth) :
      Stops host evaluator steps depth control state result (some (.error (.exhausted (.workStack depth)) raised))
  | counting {raised : State σ} (spent : steps.toNat < result.state.steps)
      (fits : ∀ seen, Sees host evaluator.unlimited control state seen → seen.steps ≤ steps.toNat →
        seen.stack.depth ≤ depth.toNat) :
      Stops host evaluator steps depth control state result (some (.error (.exhausted (.steps steps)) raised))

/-- What is seen after the first transition is seen of the rest. -/
theorem Sees.of_continues (stepped : iterate host evaluator control state = .ok (.continues next) after)
    (sees : Sees host evaluator control state seen) : seen = state ∨ Sees host evaluator next after seen := by
  cases sees with
  | here => exact .inl rfl
  | left =>
    rw [stepped]
    exact .inr .here
  | later stepped' rest =>
    cases stepped.symm.trans stepped'
    exact .inr rest

theorem Stops.earlier {outcome : Option (EStateM.Result Fault (State σ) Handle)}
    (stepped : iterate host evaluator.unlimited control state = .ok (.continues next) after)
    (fits : state.stack.depth ≤ depth.toNat) (stops : Stops host evaluator steps depth next after result outcome) :
    Stops host evaluator steps depth control state result outcome := by
  cases stops with
  | never within fits' =>
    refine .never within fun seen sees => ?_
    rcases sees.of_continues stepped with rfl | rest
    · exact fits
    · exact fits' seen rest
  | pushing sees within deeper => exact .pushing (.later stepped sees) within deeper
  | counting spent fits' =>
    refine .counting spent fun seen sees fewer => ?_
    rcases sees.of_continues stepped with rfl | rest
    · exact fits
    · exact fits' seen rest fewer

-- What a call makes of the end of its run.
def close (evaluator : Evaluator) : EStateM.Result Fault (State σ) Handle → Except Fault Handle × State σ
  | .ok result state => (.ok result, state)
  | .error fault state => (.error fault, unwind evaluator fault state)

end LazyGraph.Machine

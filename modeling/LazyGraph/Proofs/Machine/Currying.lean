import LazyGraph.Proofs.Machine.Uniform
import LazyGraph.Proofs.Recursion.Refinement

/-! Applying a function to some arguments and then to more.

Arguments in one frame and the same arguments in two frames, one above the other, come to the
same. The two machines go on side by side: as long as the function that the frames wait for has
not been reached, and again from there, with a frame parted in another place, until the
arguments are used up. -/

set_option autoImplicit false

namespace LazyGraph.Machine

variable {σ : Type} {evaluator : Evaluator} {host : Host σ} {meaning : HostFn → List Node → Except Fault Node}
  {floor base base' : List Frame} {control next last : Control} {state left right after reached : State σ}
  {first rest : List Handle} {code : Lambda Expr} {bound : List Handle} {count : Nat}

/-! ### One application -/

/-- Where the first arguments do not suffice, the rest completes what they make. -/
theorem apply_short (short : first.length < code.remaining bound) :
    apply (σ := σ) evaluator (.function code bound) (first ++ rest) =
      apply evaluator (.function code (bound ++ first)) rest := by
  have remaining : code.remaining (bound ++ first) = code.remaining bound - first.length := by
    simp only [Lambda.remaining, List.length_append]
    omega
  have few : (first ++ rest).length < code.remaining bound ↔ rest.length < code.remaining bound - first.length := by
    rw [List.length_append]
    omega
  have within : first.take (code.remaining bound) = first := List.take_of_length_le (Nat.le_of_lt short)
  have none : first.drop (code.remaining bound) = [] := List.drop_of_length_le (Nat.le_of_lt short)
  simp only [apply, remaining, few, List.take_append, List.drop_append, within, none, List.nil_append, List.append_assoc]

/-- Where they suffice, the rest is left over with what they leave. -/
theorem apply_enough (enough : code.remaining bound ≤ first.length) :
    apply (σ := σ) evaluator (.function code bound) (first ++ rest) = do
      unless (first.drop (code.remaining bound) ++ rest).isEmpty do
        push evaluator (.apply (first.drop (code.remaining bound) ++ rest))
      return .eval code.body (bound ++ first.take (code.remaining bound)) := by
  have few : ¬ (first ++ rest).length < code.remaining bound := by
    rw [List.length_append]
    omega
  have more : code.remaining bound - first.length = 0 := Nat.sub_eq_zero_of_le enough
  simp only [apply, few, List.take_append, List.drop_append, more, List.take_zero, List.drop_zero, List.append_nil, if_false]

/-! ### Runs, transition by transition -/

/-- The loop makes this many transitions, and leaves the frames of the floor alone. -/
inductive Makes (host : Host σ) (evaluator : Evaluator) (floor : List Frame) :
    Nat → Control → State σ → Control → State σ → Prop where
  | none {control : Control} {state : State σ} : Makes host evaluator floor 0 control state control state
  | one {count : Nat} {control next last : Control} {state after reached : State σ} (above : Above floor control state)
      (stepped : iterate host evaluator control state = .ok (.continues next) after)
      (more : Makes host evaluator floor count next after last reached) :
      Makes host evaluator floor (count + 1) control state last reached

namespace Makes

theorem reaches (makes : Makes host evaluator floor count control state last reached) :
    Reaches host evaluator floor control state last reached := by
  induction makes with
  | none => exact .here
  | one above stepped _ ih => exact .step above stepped ih

theorem trans {count' : Nat} {middle : Control} {between : State σ}
    (early : Makes host evaluator floor count control state middle between)
    (late : Makes host evaluator floor count' middle between last reached) :
    Makes host evaluator floor (count + count') control state last reached := by
  induction early with
  | none => rwa [Nat.zero_add]
  | one above stepped _ ih =>
    rw [Nat.succ_add]
    exact .one above stepped (ih late)

theorem sooner {fewer : Nat} (makes : Makes host evaluator floor count control state last reached) (fewest : fewer ≤ count) :
    ∃ middle between, Makes host evaluator floor fewer control state middle between := by
  induction makes generalizing fewer with
  | none =>
    obtain rfl : fewer = 0 := Nat.le_zero.mp fewest
    exact ⟨_, _, .none⟩
  | one above stepped _ ih =>
    cases fewer with
    | zero => exact ⟨_, _, .none⟩
    | succ fewer =>
      obtain ⟨middle, between, made⟩ := ih (Nat.le_of_succ_le_succ fewest)
      exact ⟨middle, between, .one above stepped made⟩

end Makes

def Endless (host : Host σ) (evaluator : Evaluator) (floor : List Frame) (control : Control) (state : State σ) : Prop :=
  ∀ count, ∃ last reached, Makes host evaluator floor count control state last reached

/-- A loop that goes on for ever does not end within any number of transitions. -/
theorem Endless.run (endless : Endless host evaluator floor control state) (fuel : Nat) :
    Machine.run host evaluator fuel control state = none := by
  obtain ⟨last, reached, makes⟩ := endless fuel
  clear endless
  induction makes with
  | none => rfl
  | one _ stepped _ ih =>
    rw [Machine.run, stepped]
    exact ih

/-- The work above the floor ends in the fault, with this heap; dropping all frames leaves the
other. -/
def Fails (host : Host σ) (evaluator : Evaluator) (floor : List Frame) (control : Control) (state : State σ) (fault : Fault)
    (heap released : Heap) : Prop :=
  ∃ last reached after, Reaches host evaluator floor control state last reached ∧ Above floor last reached ∧
    iterate host evaluator last reached = .error fault after ∧ after.world.heap = heap ∧
    (unwind evaluator fault after).world.heap = released

theorem Fails.of_reaches {fault : Fault} {heap released : Heap} (reaches : Reaches host evaluator floor control state next after)
    (fails : Fails host evaluator floor next after fault heap released) :
    Fails host evaluator floor control state fault heap released := by
  obtain ⟨last, reached, failed, further, rest⟩ := fails
  exact ⟨last, reached, failed, reaches.trans further, rest⟩

/-! ### Side by side -/

/-- The frames are the same, or the arguments of the top frame are in two frames on the right. -/
inductive Parted (floor : List Frame) : List Frame → List Frame → Prop where
  | whole : Parted floor floor floor
  | parted {first rest : List Handle} (some : first ≠ []) (more : rest ≠ []) :
      Parted floor (.apply (first ++ rest) :: floor) (.apply first :: .apply rest :: floor)

structure Alongside (floor : List Frame) (left right : State σ) : Prop where
  heap : left.world.heap = right.world.heap
  frames : ∃ pushed base base', Parted floor base base' ∧ left.stack.items = pushed ++ base ∧
    right.stack.items = pushed ++ base'

inductive Onward (host : Host σ) (evaluator : Evaluator) (floor : List Frame) (control : Control) (left right : State σ) :
    Prop where
  | returns {whnf : Whnf} (delivers : control = .deliver whnf) (stack : left.stack.items = floor)
      (stack' : right.stack.items = floor)
  | fails {fault : Fault} {heap released : Heap} (fails : Fails host evaluator floor control left fault heap released)
      (fails' : Fails host evaluator floor control right fault heap released)
  | goes {next : Control} {after after' : State σ} {count count' : Nat}
      (makes : Makes host evaluator floor (count + 1) control left next after)
      (makes' : Makes host evaluator floor (count' + 1) control right next after') (alongside : Alongside floor after after')

theorem Parted.releaseAll (parted : Parted floor base base') (actor : Actor) (pushed : List Frame) (released : Nat) (heap : Heap) :
    Machine.releaseAll actor (pushed ++ base) released heap = Machine.releaseAll actor (pushed ++ base') released heap := by
  induction pushed generalizing released heap with
  | nil => cases parted <;> rfl
  | cons frame pushed ih =>
    cases frame with
    | update node =>
      simp only [List.cons_append, Machine.releaseAll]
      split <;> exact ih _ _
    | _ => exact ih _ _

theorem Parted.above (parted : Parted floor base base') {pushed : List Frame}
    (busy : pushed = [] → ∀ whnf, control ≠ .deliver whnf) (stack : left.stack.items = pushed ++ base)
    (stack' : right.stack.items = pushed ++ base') : Above floor control left ∧ Above floor control right := by
  cases parted with
  | whole => exact ⟨⟨pushed, stack, busy⟩, pushed, stack', busy⟩
  | @parted first rest =>
    refine ⟨⟨pushed ++ [.apply (first ++ rest)], by simp [stack], fun empty => ?_⟩,
      pushed ++ [.apply first, .apply rest], by simp [stack'], fun empty => ?_⟩
    · exact busy (List.append_eq_nil_iff.mp empty).1
    · exact busy (List.append_eq_nil_iff.mp empty).1

theorem unwind_heap {fault : Fault} (heap : left.world.heap = right.world.heap)
    (releases : ∀ released heap, releaseAll evaluator.actor left.stack.items released heap =
      releaseAll evaluator.actor right.stack.items released heap) :
    (unwind evaluator fault left).world.heap = (unwind evaluator fault right).world.heap := by
  show (releaseAll _ left.stack.items 0 left.world.heap).2.endWait _ = (releaseAll _ right.stack.items 0 right.world.heap).2.endWait _
  rw [heap, releases]

/-- A transition that hands a result to no frame of the floor does the same on both sides. -/
theorem Parted.step (means : host.Means meaning) (parted : Parted floor base base') {pushed : List Frame}
    (busy : pushed = [] → ∀ whnf, control ≠ .deliver whnf) (heap : left.world.heap = right.world.heap)
    (stack : left.stack.items = pushed ++ base) (stack' : right.stack.items = pushed ++ base')
    (free : UnhinderedAbove host evaluator floor control left) (free' : UnhinderedAbove host evaluator floor control right) :
    Onward host evaluator floor control left right := by
  obtain ⟨above, above'⟩ := parted.above busy stack stack'
  have conforms := iterate_conforms means stack stack' heap busy (free _ _ .here above) (free' _ _ .here above')
  generalize ended : iterate host evaluator control left = result at conforms
  generalize ended' : iterate host evaluator control right = result' at conforms
  cases conforms with
  | full never => exact never.elim
  | @error fault after after' more items items' same =>
    refine .fails ⟨control, left, after, .here, above, ended, rfl, rfl⟩ ⟨control, right, after', .here, above', ended', same.symm, ?_⟩
    refine unwind_heap same.symm fun released heap => ?_
    rw [items, items', parted.releaseAll]
  | @ok progress after after' more items items' same =>
    cases progress with
    | continues next =>
      exact .goes (.one above ended .none) (.one above' ended' .none) ⟨same, more, base, base', parted, items, items'⟩
    | finished result =>
      obtain ⟨whnf, delivers, empty⟩ := iterate_finished means ended
      exact absurd delivers (busy (List.append_eq_nil_iff.mp (stack.symm.trans empty)).1 whnf)

/-! ### Where the arguments are used -/

theorem iterate_applies {whnf : Whnf} {args : List Handle} {frames : List Frame} (stack : state.stack.items = .apply args :: frames)
    (free : ¬ Hindered host evaluator (.deliver whnf) state) :
    ∃ ready, ready.stack.items = frames ∧ ready.world.heap = state.world.heap ∧
      iterate host evaluator (.deliver whnf) state = continuing (apply evaluator whnf.node args) ready := by
  obtain ⟨ready, sameStack, heap, going⟩ := step_granted (.deliver whnf) (finish host evaluator whnf) (granted free rfl)
  obtain ⟨below, popped, items⟩ := Stack.pop?_of_items ((congrArg Stack.items sameStack).trans stack)
  refine ⟨{ ready with stack := below }, items, heap, ?_⟩
  exact going.trans (finish_pops host evaluator whnf popped)

theorem push_fits {whnf : Whnf} {args surplus : List Handle} {frames : List Frame} {ready : State σ} {control : Control}
    (stack : state.stack.items = .apply args :: frames) (free : ¬ Hindered host evaluator (.deliver whnf) state)
    (going : iterate host evaluator (.deliver whnf) state =
      continuing (do push evaluator (.apply surplus); return control) ready) :
    ∃ after, iterate host evaluator (.deliver whnf) state = .ok (.continues control) after ∧
      after.stack.items = .apply surplus :: ready.stack.items ∧ after.world.heap = ready.world.heap := by
  by_cases full : evaluator.settings.maxWorkStack.toNat ≤ ready.stack.depth
  · have refused : push evaluator (.apply surplus) ready =
        .error (.exhausted (.workStack evaluator.settings.maxWorkStack)) ready := if_pos full
    have uncalled : callsHost (.deliver whnf) state.stack.items = false := by
      rw [stack]
      rfl
    exact absurd (.crowded uncalled (going.trans (continuing_error (bind_error refused)))) free
  · have pushed : push evaluator (.apply surplus) ready = .ok () { ready with stack := ready.stack.push (.apply surplus) } :=
      push_ok (Nat.lt_of_not_le full)
    exact ⟨_, going.trans (continuing_ok (bind_ok pushed)), rfl, rfl⟩

section

variable {whnf : Whnf} (stack : left.stack.items = .apply (first ++ rest) :: floor)
  (stack' : right.stack.items = .apply first :: .apply rest :: floor) (heap : left.world.heap = right.world.heap)
  (free : UnhinderedAbove host evaluator floor (.deliver whnf) left)
  (free' : UnhinderedAbove host evaluator floor (.deliver whnf) right)

include stack stack' in
theorem parted_above : Above floor (.deliver whnf) left ∧ Above floor (.deliver whnf) right :=
  ⟨⟨[.apply (first ++ rest)], stack, nofun⟩, [.apply first, .apply rest], stack', nofun⟩

include stack stack' heap free free'

theorem step_unapplicable (fails : ∀ args, apply (σ := σ) evaluator whnf.node args =
    throw (.typeMismatch "apply" "FUNCTION" whnf.node.tag)) : Onward host evaluator floor (.deliver whnf) left right := by
  obtain ⟨above, above'⟩ := @parted_above _ _ _ _ _ _ whnf stack stack'
  obtain ⟨ready, items, same, going⟩ := iterate_applies stack (free _ _ .here above)
  obtain ⟨ready', items', same', going'⟩ := iterate_applies stack' (free' _ _ .here above')
  rw [fails] at going going'
  have heaps : ready'.world.heap = ready.world.heap := by rw [same, same', heap]
  refine .fails ⟨_, left, ready, .here, above, going, rfl, rfl⟩ ⟨_, right, ready', .here, above', going', heaps, ?_⟩
  refine unwind_heap heaps fun released heap => ?_
  rw [items, items']
  rfl

/-- Too few arguments make a function that the other arguments are for. -/
theorem step_short (isFunction : whnf.node = .function code bound)
    (short : first.length < code.remaining bound) : Onward host evaluator floor (.deliver whnf) left right := by
  obtain ⟨above, above'⟩ := @parted_above _ _ _ _ _ _ whnf stack stack'
  obtain ⟨ready, items, same, going⟩ := iterate_applies stack (free _ _ .here above)
  obtain ⟨middle, between, same', going'⟩ := iterate_applies stack' (free' _ _ .here above')
  rw [isFunction] at going going'
  have made : iterate host evaluator (.deliver whnf) right =
      .ok (.continues (.deliver (.fresh (.function code (bound ++ first))))) middle := by
    rw [going', apply, if_pos short]
    rfl
  have above'' : Above floor (.deliver (.fresh (.function code (bound ++ first)))) middle :=
    ⟨[.apply rest], between, by simp⟩
  have reaches := Reaches.step above' made .here
  obtain ⟨ready', items', same'', going''⟩ := iterate_applies between (free' _ _ reaches above'')
  have onward : iterate host evaluator (.deliver (.fresh (.function code (bound ++ first)))) middle =
      continuing (apply evaluator (.function code (bound ++ first)) rest) ready' := going''
  have uniform : Uniform evaluator True (continuing (apply (σ := σ) evaluator (.function code (bound ++ first)) rest)) :=
    continuing_uniform (apply_uniform _ _)
  have conforms := uniform ready ready' (by rw [same, same'', same', heap])
  rw [← onward, ← apply_short short, ← going, items, items'] at conforms
  generalize ended : iterate host evaluator (.deliver whnf) left = result at conforms
  generalize ended' : iterate host evaluator (.deliver (.fresh (.function code (bound ++ first)))) middle = result' at conforms
  cases conforms with
  | full _ full =>
    rcases full with ⟨after, rfl⟩ | ⟨after, rfl⟩
    · exact absurd (.crowded (by rw [stack]; rfl) ended) (free _ _ .here above)
    · exact absurd (.crowded (by rw [between]; rfl) ended') (free' _ _ reaches above'')
  | @error fault after after' more frames frames' heaps =>
    refine .fails ⟨_, left, after, .here, above, ended, rfl, rfl⟩ ⟨_, middle, after', reaches, above'', ended', heaps.symm, ?_⟩
    exact unwind_heap heaps.symm fun released heap => by rw [frames, frames']
  | @ok progress after after' more frames frames' heaps =>
    cases progress with
    | continues next =>
      exact .goes (.one above ended .none) (.one above' made (.one above'' ended' .none)) ⟨heaps, more, _, _, .whole, frames, frames'⟩
    | finished result => exact absurd (going.symm.trans ended) (continuing_unfinished _ _ _ _)

theorem step_enough (isFunction : whnf.node = .function code bound) (enough : code.remaining bound ≤ first.length) (more : rest ≠ []) :
    Onward host evaluator floor (.deliver whnf) left right := by
  obtain ⟨above, above'⟩ := @parted_above _ _ _ _ _ _ whnf stack stack'
  obtain ⟨ready, items, same, going⟩ := iterate_applies stack (free _ _ .here above)
  obtain ⟨ready', items', same', going'⟩ := iterate_applies stack' (free' _ _ .here above')
  have some : (first.drop (code.remaining bound) ++ rest).isEmpty = false := by
    simp [more]
  have alone := @apply_enough σ evaluator first [] code bound enough
  rw [List.append_nil, List.append_nil] at alone
  rw [isFunction, apply_enough enough] at going
  rw [isFunction, alone] at going'
  simp only [some, Bool.false_eq_true, if_false] at going
  obtain ⟨after, ended, frames, heap'⟩ := push_fits stack (free _ _ .here above) going
  rw [items] at frames
  cases surplus : first.drop (code.remaining bound) with
  | nil =>
    rw [surplus] at frames going'
    have ended' := going'.trans (continuing_ok rfl)
    refine .goes (.one above ended .none) (.one above' ended' .none) ⟨?_, [.apply rest], _, _, .whole, frames, items'⟩
    rw [heap', same, heap, same']
  | cons handle others =>
    rw [surplus] at frames going'
    obtain ⟨after', ended', frames', heap''⟩ := push_fits stack' (free' _ _ .here above') going'
    rw [items'] at frames'
    refine .goes (.one above ended .none) (.one above' ended' .none) ⟨?_, [], _, _, .parted (List.cons_ne_nil _ _) more, frames, frames'⟩
    rw [heap', same, heap, heap'', same']

end

theorem Alongside.step (means : host.Means meaning) (alongside : Alongside floor left right)
    (free : UnhinderedAbove host evaluator floor control left) (free' : UnhinderedAbove host evaluator floor control right) :
    Onward host evaluator floor control left right := by
  obtain ⟨heap, pushed, base, base', parted, stack, stack'⟩ := alongside
  -- the arguments are used when nothing lies above them and a function is delivered
  by_cases idle : pushed = [] ∧ ∃ whnf, control = .deliver whnf
  · obtain ⟨rfl, whnf, rfl⟩ := idle
    cases parted with
    | whole => exact .returns rfl stack stack'
    | @parted first rest some more =>
      cases node : whnf.node with
      | function code bound =>
        by_cases short : first.length < code.remaining bound
        · exact step_short stack stack' heap free free' node short
        · exact step_enough stack stack' heap free free' node (Nat.le_of_not_lt short) more
      | _ => exact step_unapplicable stack stack' heap free free' fun args => by rw [node]; rfl
  · exact parted.step means (fun empty whnf delivers => idle ⟨empty, whnf, delivers⟩) heap stack stack' free free'

inductive EndAlike (host : Host σ) (evaluator : Evaluator) (floor : List Frame) (control : Control) (left right : State σ) :
    Prop where
  | returns {whnf : Whnf} {heap : Heap} (leads : Leads host evaluator floor control left (.ok whnf heap))
      (leads' : Leads host evaluator floor control right (.ok whnf heap))
  | fails {fault : Fault} {heap released : Heap} (fails : Fails host evaluator floor control left fault heap released)
      (fails' : Fails host evaluator floor control right fault heap released)

/-- Machines that do not end alike go on side by side. The one on the right may be ahead: a
partial application costs it a transition of its own. -/
theorem Alongside.goes (means : host.Means meaning) (alongside : Alongside floor left right)
    (free : UnhinderedAbove host evaluator floor control left) (free' : UnhinderedAbove host evaluator floor control right)
    (unending : ¬ EndAlike host evaluator floor control left right) (count : Nat) :
    ∃ next after after' made made', count ≤ made ∧ count ≤ made' ∧ Makes host evaluator floor made control left next after ∧
      Makes host evaluator floor made' control right next after' ∧ Alongside floor after after' := by
  induction count with
  | zero => exact ⟨control, left, right, 0, 0, Nat.le_refl _, Nat.le_refl _, .none, .none, alongside⟩
  | succ count ih =>
    obtain ⟨next, after, after', made, made', enough, enough', makes, makes', alongside'⟩ := ih
    cases alongside'.step means (free.later makes.reaches) (free'.later makes'.reaches) with
    | returns delivers stack stack' =>
      subst delivers
      refine absurd (.returns (.returned makes.reaches stack) ?_) unending
      rw [alongside'.heap]
      exact .returned makes'.reaches stack'
    | fails fails fails' =>
      exact absurd (.fails (fails.of_reaches makes.reaches) (fails'.of_reaches makes'.reaches)) unending
    | goes more more' alongside'' =>
      exact ⟨_, _, _, _, _, by omega, by omega, makes.trans more, makes'.trans more', alongside''⟩

/-- Application is curried. Arguments in one frame, and the same arguments in two frames, come
to the same value, the same fault or to no end, with the same heap, whatever lies below. -/
theorem application_curried (means : host.Means meaning) (some : first ≠ []) (more : rest ≠ []) (whnf : Whnf)
    (heap : left.world.heap = right.world.heap) (stack : left.stack.items = .apply (first ++ rest) :: floor)
    (stack' : right.stack.items = .apply first :: .apply rest :: floor)
    (free : UnhinderedAbove host evaluator floor (.deliver whnf) left)
    (free' : UnhinderedAbove host evaluator floor (.deliver whnf) right) :
    EndAlike host evaluator floor (.deliver whnf) left right ∨
      Endless host evaluator floor (.deliver whnf) left ∧ Endless host evaluator floor (.deliver whnf) right := by
  have alongside : Alongside floor left right := ⟨heap, [], _, _, .parted some more, stack, stack'⟩
  by_cases ends : EndAlike host evaluator floor (.deliver whnf) left right
  · exact .inl ends
  · refine .inr ⟨fun count => ?_, fun count => ?_⟩
    · obtain ⟨_, _, _, _, _, enough, _, makes, _⟩ := alongside.goes means free free' ends count
      exact makes.sooner enough
    · obtain ⟨_, _, _, _, _, _, enough, _, makes, _⟩ := alongside.goes means free free' ends count
      exact makes.sooner enough

/-! ### A surplus that is too little for what it is applied to -/

-- The outer function takes one argument and leaves the inner one, which takes two.
def outerCode : Lambda Expr := ⟨"outer", 0, 1, ⟨0, .lambda ⟨"inner", 0, 2, ⟨1, .var 1⟩⟩ []⟩⟩

-- Three arguments are given at once, or two and then one.
def atOnce : State Unit :=
  { sumCall.2 with stack := Stack.empty.push (.apply ([⟨1, 0⟩, ⟨1, 0⟩] ++ [⟨1, 0⟩])) }

def oneLater : State Unit :=
  { sumCall.2 with stack := (Stack.empty.push (.apply [⟨1, 0⟩])).push (.apply [⟨1, 0⟩, ⟨1, 0⟩]) }

theorem atOnce_runs : ∃ after, run answeringHost sumCall.1 20 (.deliver (.fresh (.function outerCode []))) atOnce =
    some (.ok ⟨0, 0⟩ after) := by
  apply run_of_returned
  decide +kernel

theorem oneLater_runs : ∃ after, run answeringHost sumCall.1 20 (.deliver (.fresh (.function outerCode []))) oneLater =
    some (.ok ⟨0, 0⟩ after) := by
  apply run_of_returned
  decide +kernel

theorem application_curried_surplus :
    EndAlike answeringHost sumCall.1 [] (.deliver (.fresh (.function outerCode []))) atOnce oneLater := by
  obtain ⟨after, ran⟩ := atOnce_runs
  obtain ⟨after', ran'⟩ := oneLater_runs
  have heap : atOnce.world.heap = oneLater.world.heap := rfl
  rcases application_curried answeringHost_means (List.cons_ne_nil _ _) (List.cons_ne_nil _ _) _ heap rfl rfl
    (unhindered_of_run ran).above (unhindered_of_run ran').above with ends | ⟨endless, _⟩
  · exact ends
  · cases (endless.run 20).symm.trans ran

end LazyGraph.Machine

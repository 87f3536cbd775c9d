import LazyGraph.Proofs.Parallel.Moments
import LazyGraph.Proofs.Parallel.Plans

/-! What a plan is sure to give, whatever others do meanwhile.

Before each of its actions the others may have taken any number of theirs. An action keeps the
account right and leaves alone what others count on; if it fails, then at a limit, with just the
thunks of its frames claimed. -/

set_option autoImplicit false

namespace LazyGraph.Parallel

open Machine

variable {σ α β : Type} {graph : Heap} {known : Handle → Prop} {actor : Actor}
  {account account' account'' : Account} {state state' state'' : State σ} {before after : Heap}

structure Later (graph : Heap) (known : Handle → Prop) (actor : Actor) (account : Account) (state : State σ)
    (account' : Account) (state' : State σ) : Prop where
  sound : Sound graph known account' state'.world.heap
  minds : Minds actor account state.world.heap account' state'.world.heap
  stack : state'.stack = state.stack

/-- The actor has kept the account right, and has left alone what others count on. -/
structure Fair (graph : Heap) (known : Handle → Prop) (actor : Actor) (account : Account) (before : Heap)
    (account' : Account) (after : Heap) : Prop where
  sound : Sound graph known account' after
  others : ∀ other, other ≠ actor → Minds other account before account' after
  registry : after.nextActor = before.nextActor

def Achieves (graph : Heap) (known : Handle → Prop) (actor : Actor) (gives : α → Account → State σ → Prop)
    (account : Account) (state : State σ) : EStateM.Result Fault (State σ) α → Prop
  | .ok value after => ∃ account',
      Fair graph known actor account state.world.heap account' after.world.heap ∧ gives value account' after
  | .error fault after => (∃ limit, fault = .exhausted limit) ∧ Holds after.world.heap actor after.stack.items ∧
      ∃ account', Fair graph known actor account state.world.heap account' after.world.heap

def Sure (graph : Heap) (known : Handle → Prop) (actor : Actor) (gives : α → Account → State σ → Prop) :
    Plan σ α → Account → State σ → Prop
  | .ended value, account, state =>
    ∀ account' state', Later graph known actor account state account' state' → gives value account' state'
  | .act action next, account, state =>
    ∀ account' state', Later graph known actor account state account' state' →
      (action state').state.world.heap.Addressable →
        Achieves graph known actor (fun value => Sure graph known actor gives (next value)) account' state' (action state')

theorem Later.refl (sound : Sound graph known account state.world.heap) : Later graph known actor account state account state :=
  ⟨sound, .refl sound actor, rfl⟩

theorem Later.trans (early : Later graph known actor account state account' state')
    (late : Later graph known actor account' state' account'' state'') :
    Later graph known actor account state account'' state'' :=
  ⟨late.sound, early.minds.trans late.minds, late.stack.trans early.stack⟩

theorem Later.holds (later : Later graph known actor account state account' state')
    (holds : Holds state.world.heap actor state.stack.items) : Holds state'.world.heap actor state'.stack.items :=
  later.stack ▸ holds.step fun _ found => later.minds.held found

theorem Fair.same (sound : Sound graph known account before) (same : after = before) :
    Fair graph known actor account before account after := by
  subst same
  exact ⟨sound, fun other _ => .refl sound other, rfl⟩

namespace Sure

variable {gives gives' : α → Account → State σ → Prop} {between : β → Account → State σ → Prop}

theorem later {plan : Plan σ α} (sure : Sure graph known actor gives plan account state)
    (later : Later graph known actor account state account' state') : Sure graph known actor gives plan account' state' := by
  cases plan with
  | ended value => exact fun account'' state'' latest => sure account'' state'' (later.trans latest)
  | act action next => exact fun account'' state'' latest => sure account'' state'' (later.trans latest)

theorem mono {plan : Plan σ α} (sure : Sure graph known actor gives plan account state)
    (weaker : ∀ value account state, gives value account state → gives' value account state) :
    Sure graph known actor gives' plan account state := by
  induction plan generalizing account state with
  | ended value => exact fun account' state' later => weaker _ _ _ (sure account' state' later)
  | act action next ih =>
    intro account' state' later fits
    have achieved := sure account' state' later fits
    cases ended : action state' with
    | ok value after =>
      rw [ended] at achieved
      obtain ⟨account'', fair, rest⟩ := achieved
      exact ⟨account'', fair, ih value rest⟩
    | error fault after =>
      rw [ended] at achieved
      exact achieved

theorem bind {first : Plan σ β} {next : β → Plan σ α} (sound : Sound graph known account state.world.heap)
    (early : Sure graph known actor between first account state)
    (late : ∀ value account' state', Sound graph known account' state'.world.heap → between value account' state' →
      Sure graph known actor gives (next value) account' state') :
    Sure graph known actor gives (first >>= next) account state := by
  induction first generalizing account state with
  | ended value => exact late value account state sound (early account state (.refl sound))
  | act action rest ih =>
    intro account' state' later fits
    have achieved := early account' state' later fits
    cases ended : action state' with
    | ok value after =>
      rw [ended] at achieved
      obtain ⟨account'', fair, sure⟩ := achieved
      exact ⟨account'', fair, ih value fair.sound sure⟩
    | error fault after =>
      rw [ended] at achieved
      exact achieved

/-- An action that leaves the heap as it is, and may meet a limit. -/
theorem limited {action : MachineM σ β} {next : β → Plan σ α} (holds : Holds state.world.heap actor state.stack.items)
    (each : ∀ account' state', Later graph known actor account state account' state' →
      (∃ value after, action state' = .ok value after ∧ after.world.heap = state'.world.heap ∧
        Sure graph known actor gives (next value) account' after) ∨
      ∃ limit after, action state' = .error (.exhausted limit) after ∧ after.world.heap = state'.world.heap ∧
        after.stack = state'.stack) :
    Sure graph known actor gives (.act action next) account state := by
  intro account' state' later _
  rcases each account' state' later with ⟨value, after, ended, heap, sure⟩ | ⟨limit, after, ended, heap, stack⟩
  · rw [ended]
    exact ⟨account', .same later.sound heap, sure⟩
  · rw [ended]
    refine ⟨⟨limit, rfl⟩, ?_, account', .same later.sound heap⟩
    rw [heap, stack]
    exact later.holds holds

theorem still {action : MachineM σ β} {next : β → Plan σ α}
    (each : ∀ account' state', Later graph known actor account state account' state' →
      ∃ value after, action state' = .ok value after ∧ after.world.heap = state'.world.heap ∧
        Sure graph known actor gives (next value) account' after) :
    Sure graph known actor gives (.act action next) account state := by
  intro account' state' later _
  obtain ⟨value, after, ended, heap, sure⟩ := each account' state' later
  rw [ended]
  exact ⟨account', .same later.sound heap, sure⟩

theorem settle {outcome : Except Fault β} {value : β} {next : β → Plan σ α} (settled : outcome = .ok value)
    (sure : Sure graph known actor gives (next value) account state) :
    Sure graph known actor gives (.act (settle outcome) next) account state := by
  refine still fun account' state' later => ⟨value, state', ?_, rfl, sure.later later⟩
  rw [settled]
  rfl

theorem read {look : Heap → Except Fault β} {next : β → Plan σ α}
    (each : ∀ account' state', Later graph known actor account state account' state' →
      ∃ value, look state'.world.heap = .ok value ∧ Sure graph known actor gives (next value) account' state') :
    Sure graph known actor gives (.act (do Machine.settle (look (← getHeap))) next) account state := by
  refine still fun account' state' later => ?_
  obtain ⟨value, found, sure⟩ := each account' state' later
  refine ⟨value, state', ?_, rfl, sure⟩
  rw [bind_ok (rfl : getHeap state' = .ok state'.world.heap state'), found]
  rfl

theorem world {change : World σ → World σ} {next : Unit → Plan σ α} (heap : ∀ world, (change world).heap = world.heap)
    (sure : Sure graph known actor gives (next ()) account state) :
    Sure graph known actor gives (.act (modifyWorld change) next) account state := by
  refine still fun account' state' later => ⟨(), _, rfl, heap _, ?_⟩
  refine sure.later ⟨?_, ?_, later.stack⟩
  · exact heap state'.world ▸ later.sound
  · exact heap state'.world ▸ later.minds

theorem push {evaluator : Evaluator} {frame : Frame} {next : Unit → Plan σ α}
    (holds : Holds state.world.heap actor state.stack.items)
    (each : ∀ account' state' after, Later graph known actor account state account' state' →
      after.stack.items = frame :: state'.stack.items → after.world = state'.world →
        Sure graph known actor gives (next ()) account' after) :
    Sure graph known actor gives (.act (push evaluator frame) next) account state := by
  refine limited holds fun account' state' later => ?_
  by_cases room : state'.stack.depth < evaluator.settings.maxWorkStack.toNat
  · exact .inl ⟨(), _, push_ok room, rfl, each account' state' _ later rfl rfl⟩
  · exact .inr ⟨_, _, push_error (Nat.le_of_not_lt room), rfl, rfl⟩

end Sure

theorem Achieves.mono {gives gives' : α → Account → State σ → Prop} {result : EStateM.Result Fault (State σ) α}
    (achieves : Achieves graph known actor gives account state result)
    (weaker : ∀ value account state, gives value account state → gives' value account state) :
    Achieves graph known actor gives' account state result := by
  cases result with
  | ok value after =>
    obtain ⟨account', fair, given⟩ := achieves
    exact ⟨account', fair, weaker _ _ _ given⟩
  | error fault after => exact achieves

end LazyGraph.Parallel

import LazyGraph.Proofs.Machine.Landing
import LazyGraph.Proofs.Renaming.CallSequences
import LazyGraph.Proofs.Retry.Residue

/-! Calls that are aborted by their step budgets, and tried again.

However many calls were aborted, what is left is the residue of one. So a call that meets no
limit then comes to what it would have come to at first. -/

set_option autoImplicit false

namespace LazyGraph.Machine

variable {σ : Type} {heap : Heap} {known : Handle → Prop} {ties : Pairing} {host : Host σ} {evaluator evaluator' : Evaluator}
  {control control' next : Control} {state state' left right after : State σ} {root : Handle}

/-! ### One call after the other -/

/-- Calls on the root, each of which spends its step budget. New evaluators may register in between. -/
inductive Aborted (host : Host σ) (evaluator : Evaluator) (root : Handle) (start : Heap) : Heap → Prop where
  | never : Aborted host evaluator root start start
  | registered {heap : Heap} (aborted : Aborted host evaluator root start heap) :
      Aborted host evaluator root start heap.registerActor.2
  | again {other : Evaluator} {state after : State σ} {fuel : Nat} {budget : UInt64}
      (aborted : Aborted host evaluator root start state.world.heap) (idle : state.stack.items = [])
      (indifferent : start.Indifferent evaluator.actor other.actor)
      (roomy : Roomy (iterate host other) (.force root) (begin other state))
      (spent : force host other fuel root state = some (.error (.exhausted (.steps budget)), after)) :
      Aborted host evaluator root start after.world.heap

/-- However often calls are aborted, what they leave is the residue of one. -/
theorem Aborted.residue (aborted : Aborted host evaluator root state.world.heap heap)
    (retriable : state.world.heap.Retriable root) (idle : state.stack.items = [])
    (unlimited : Unlimited (iterate mute evaluator) (.force root) (begin evaluator state)) : Residue evaluator root state heap := by
  induction aborted with
  | never =>
    have grows := iterate_grows (@mute_keeps σ Heap.Advances _) evaluator (.force root) (begin evaluator state)
    exact .whole retriable idle (unlimited.fits.mono grows) evaluator
  | registered _ ih => exact ih.registered
  | @again other middle _ _ _ _ idle' indifferent roomy spent ih =>
    obtain ⟨count, last, final, standing, ⟨_, finished, _⟩ | ⟨_, failed, fault, refused, rfl⟩⟩ := force_ends spent
    · cases finished
    · cases fault
      obtain ⟨_, contained⟩ := ih.contained idle' other
      have roomy' : Roomy (iterate mute other) (.force root) (begin other middle) := contained.roomy roomy
      obtain ⟨passes, same⟩ := contained.passes roomy' (passes_of_iterations standing)
      rw [same] at refused
      exact ih.aborted retriable idle idle' indifferent unlimited roomy' passes refused

def Tells (host : Host σ) (evaluator : Evaluator) (root : Handle) (state : State σ) (report : Report) : Prop :=
  ∃ fuel result after, force host evaluator fuel root state = some (result, after) ∧ after.world.heap.report result = report

-- What is told of a run.
def told : EStateM.Result Fault (State σ) Handle → Report
  | .ok result after => after.world.heap.report (.ok result)
  | .error fault _ => .error fault.kind

theorem tells_iff_run {report : Report} : Tells host evaluator root state report ↔
    ∃ fuel ended, run host evaluator fuel (.force root) (begin evaluator state) = some ended ∧ told ended = report := by
  constructor
  · rintro ⟨fuel, result, after, ended, told⟩
    cases result with
    | ok result => exact ⟨fuel, _, force_eq_ok.mp ended, told⟩
    | error fault =>
      obtain ⟨raised, ran, _⟩ := force_eq_error.mp ended
      exact ⟨fuel, _, ran, told⟩
  · rintro ⟨fuel, ended, ran, told⟩
    cases ended with
    | ok result after => exact ⟨fuel, .ok result, after, force_eq_ok.mpr ran, told⟩
    | error fault raised => exact ⟨fuel, .error fault, _, force_eq_error.mpr ⟨raised, ran, rfl⟩, told⟩

theorem tells_iff_rest {report : Report} (passes : Passes (iterate host evaluator) (.force root) (begin evaluator state) next after) :
    Tells host evaluator root state report ↔ ∃ fuel ended, run host evaluator fuel next after = some ended ∧ told ended = report := by
  obtain ⟨count, same⟩ := run_passes passes
  rw [tells_iff_run]
  constructor
  · rintro ⟨fuel, ended, ran, told⟩
    exact ⟨fuel, ended, (same fuel).symm.trans (run_more ran count), told⟩
  · rintro ⟨fuel, ended, ran, told⟩
    exact ⟨fuel + count, ended, (same fuel).trans ran, told⟩

theorem Unlimited.unspent {limit : Limit} {fuel : Nat} (unlimited : Unlimited (iterate host evaluator) control state) :
    run host evaluator fuel control state ≠ some (.error (.exhausted limit) after) := by
  intro ran
  obtain ⟨count, next, reached, standing, ends⟩ := iterations_of_run ran
  exact (unlimited _ _ (passes_of_iterations standing)).2 _ _ (Progress.outcome?_eq_error ends)

theorem Converges.told_eq (converges : Converges evaluator evaluator' known control control' left right)
    (unlimited : Unlimited (iterate mute evaluator) control left) (unlimited' : Unlimited (iterate mute evaluator') control' right)
    (fuel : Nat) : (run mute evaluator fuel control left).map told = (run mute evaluator' fuel control' right).map told := by
  obtain ⟨pairs, abreast, controls, rooted⟩ := converges
  have concur := run_concur (substitutes_peers evaluator evaluator') abreast controls rooted unlimited.roomy unlimited'.roomy
    (fun _ => ⟨unlimited, unlimited'⟩) fuel
  generalize ran : run mute evaluator fuel control left = outcome at concur
  generalize ran' : run mute evaluator' fuel control' right = outcome' at concur
  cases concur with
  | none => rfl
  | some ends =>
    cases ends with
    | ok _ abreast both => exact congrArg some (abreast.heaps.report_eq (show Coincide _ (.ok _) (.ok _) from both))
    | error _ _ kind => exact congrArg (fun kind => some (Except.error kind)) kind
    | leftSpent _ => exact absurd ran unlimited.unspent
    | rightSpent _ => exact absurd ran' unlimited'.unspent

theorem tells_hostless (contained : Contained known ties (.force root) (begin evaluator state))
    (roomy : Roomy (iterate host evaluator) (.force root) (begin evaluator state)) {report : Report} :
    Tells host evaluator root state report ↔ Tells mute evaluator root state report := by
  simp only [tells_iff_run, @Contained.run σ evaluator host mute _ _ _ _ contained roomy]

theorem Tells.shown {seen : Option Tag × Option Head} (regular : state.world.heap.Regular) (idle : state.stack.items = [])
    (unlimited : Unlimited (iterate mute evaluator) (.force root) (begin evaluator state))
    (tells : Tells mute evaluator root state (.ok seen)) : ∃ tag head, seen = (some tag, some head) := by
  obtain ⟨fuel, result, after, ended, told⟩ := tells
  cases result with
  | error fault => cases told
  | ok target =>
    have fits : after.world.heap.Addressable := by
      obtain ⟨count, last, reached, standing, ⟨_, _, finished⟩ | ⟨_, _, failed, _⟩⟩ := force_ends ended
      · have fits := (unlimited _ _ (passes_of_iterations standing)).1
        rwa [finished] at fits
      · cases failed
    obtain ⟨_, _, value, _, _, _, _, isWhnf, stored, _⟩ := force_lands mute_keeps regular idle ended fits
    have head := Heap.Keeps.head? stored isWhnf
    obtain ⟨tag, head', tags, heads⟩ : ∃ tag head, after.world.heap.tag target = .ok tag ∧ after.world.heap.head? target = some head := by
      rw [head, Heap.tag, Heap.node, stored]
      cases value with
      | thunk | indirection => cases isWhnf
      | _ => exact ⟨_, _, rfl, rfl⟩
    rw [Heap.report, tags, heads] at told
    cases told
    exact ⟨tag, head', rfl⟩

/-- An aborted call can be retried. After any number of calls that spent their step budgets, a call
without limits comes to what it would have come to at first: a value with the same tag and head,
or a fault of the same kind. -/
theorem force_retriable (retriable : state.world.heap.Retriable root) (idle : state.stack.items = [])
    (idle' : state'.stack.items = []) (indifferent : state.world.heap.Indifferent evaluator.actor evaluator'.actor)
    (aborted : Aborted host evaluator root state.world.heap state'.world.heap)
    (unlimited : Unlimited (iterate host evaluator) (.force root) (begin evaluator state))
    (unlimited' : Unlimited (iterate host evaluator') (.force root) (begin evaluator' state')) :
    (∀ report, Tells host evaluator' root state' report ↔ Tells host evaluator root state report) ∧
      ∀ seen, Tells host evaluator root state (.ok seen) → ∃ tag head, seen = (some tag, some head) := by
  have contained := contained_begin retriable.walled retriable.unawaited idle (.inl rfl) evaluator
  have free : Unlimited (iterate mute evaluator) (.force root) (begin evaluator state) := contained.unlimited unlimited
  have residue := aborted.residue retriable idle free
  obtain ⟨_, contained'⟩ := residue.contained idle' evaluator'
  have free' : Unlimited (iterate mute evaluator') (.force root) (begin evaluator' state') := contained'.unlimited unlimited'
  constructor
  · intro report
    rw [tells_hostless contained unlimited.roomy, tells_hostless contained' unlimited'.roomy]
    obtain ⟨next', after', passes', ⟨⟨_, _, halts⟩, _⟩ | ⟨next, after, passes, meets⟩⟩ :=
      residue.retraced retriable idle idle' indifferent free free'.roomy
    · exact absurd halts ((free' _ _ passes').2 _ _)
    · have same := meets.told_eq (free.later passes) (free'.later passes')
      have told_iff : ∀ fuel, (∃ ended, run mute evaluator' fuel next' after' = some ended ∧ told ended = report) ↔
          ∃ ended, run mute evaluator fuel next after = some ended ∧ told ended = report := by
        intro fuel
        rw [← Option.map_eq_some_iff, ← Option.map_eq_some_iff, same]
      rw [tells_iff_rest passes, tells_iff_rest passes']
      exact exists_congr told_iff
  · intro seen tells
    exact ((tells_hostless contained unlimited.roomy).mp tells).shown retriable.regular idle free

/-! ### A sum that is given up twice -/

-- The caller grants so many steps only.
def hasty (budget : UInt64) : Evaluator :=
  { doubledCall.1 with settings := { maxSteps := some budget } }

theorem doubledCall_retriable : doubledCall.2.world.heap.Retriable ⟨1, 0⟩ where
  toSelfContained := doubledCall_contained
  granted := Heap.Live.granted ⟨_, rfl⟩ doubledCall_contained.regular.free
  unbounded := rfl
  unawaited := rfl
  short := by
    intro handle slot code part bindings body _ found runs inside form
    rcases doubledCall_live found with rfl | rfl
    · cases runs
      cases inside with
      | whole => cases form
      | child member _ => cases member
    · cases runs
      cases inside with
      | whole => cases form
      | child member inside =>
        rcases List.mem_pair.mp member with rfl | rfl
        all_goals
          cases inside with
          | whole => cases form
          | child member _ => cases member

def givesUp (budget : UInt64) (state : State Unit) : Option (State Unit) :=
  match force failingHost (hasty budget) 20 ⟨1, 0⟩ state with
  | some (.error (.exhausted (.steps spent)), after) =>
    if spent = budget ∧ after.world.heap.Addressable then some after else none
  | _ => none

theorem Aborted.once_more {budget : UInt64} {state after : State Unit}
    (aborted : Aborted failingHost doubledCall.1 ⟨1, 0⟩ doubledCall.2.world.heap state.world.heap) (idle : state.stack.items = [])
    (gives : givesUp budget state = some after) :
    force failingHost (hasty budget) 20 ⟨1, 0⟩ state = some (.error (.exhausted (.steps budget)), after) ∧ after.stack.items = [] ∧
      Aborted failingHost doubledCall.1 ⟨1, 0⟩ doubledCall.2.world.heap after.world.heap := by
  unfold givesUp at gives
  split at gives
  · rename_i spent last ended
    split at gives
    · rename_i facts
      obtain ⟨rfl, fits⟩ := facts
      cases gives
      obtain ⟨count, control, reached, standing, ⟨_, finished, _⟩ | ⟨_, failed, fault, refused, rfl⟩⟩ := force_ends ended
      · cases finished
      have grown : failed.world.heap.Addressable := fits.mono (Nat.le_of_eq (unwind_capacity _ _ failed).symm)
      have indifferent : doubledCall.2.world.heap.Indifferent doubledCall.1.actor (hasty spent).actor := .inl rfl
      refine ⟨ended, rfl, .again aborted idle indifferent (roomy_of_ended (keepsTo_of_untouched fun _ _ _ => rfl)
        (passes_of_iterations standing) (fun next after going => ?_) ?_) ended⟩
      · cases refused.symm.trans going
      · rw [refused]
        exact grown
    · cases gives
  · cases gives

/-- The first call has computed the number when it gives up, but not the sum. The second gives up
sooner. A third evaluator finds the sum. -/
theorem force_retriable_doubled :
    ∃ first second, force failingHost (hasty 7) 20 ⟨1, 0⟩ doubledCall.2 = some (.error (.exhausted (.steps 7)), first) ∧
      first.world.heap.lookup ⟨0, 0⟩ = .ok ⟨.evaluated, .int 21⟩ ∧
      force failingHost (hasty 2) 20 ⟨1, 0⟩ first = some (.error (.exhausted (.steps 2)), second) ∧
      second.world.heap.lookup ⟨1, 0⟩ = .ok ⟨.unevaluated, .thunk doubled [⟨0, 0⟩]⟩ ∧
      Tells failingHost (start second.world {} none).1 ⟨1, 0⟩ (start second.world {} none).2
        (.ok (some .int, some (.int 42))) := by
  have computed : ((givesUp 7 doubledCall.2).bind fun first => (givesUp 2 first).map fun second =>
      (first.world.heap.int? ⟨0, 0⟩, withinLimits (iterate failingHost (start second.world {} none).1) 20 (.force ⟨1, 0⟩)
        (begin (start second.world {} none).1 (start second.world {} none).2))) = some (some 21, true) := by
    decide +kernel
  have pending : ((givesUp 7 doubledCall.2).bind fun first => (givesUp 2 first).map fun second =>
      second.world.heap.lookup ⟨1, 0⟩) = some (.ok ⟨.unevaluated, .thunk doubled [⟨0, 0⟩]⟩) := by
    with_unfolding_all rfl
  obtain ⟨first, gives, rest⟩ := Option.bind_eq_some_iff.mp computed
  obtain ⟨second, gives', facts⟩ := Option.map_eq_some_iff.mp rest
  simp only [Prod.mk.injEq] at facts
  obtain ⟨number, within⟩ := facts
  have sum : second.world.heap.lookup ⟨1, 0⟩ = .ok ⟨.unevaluated, .thunk doubled [⟨0, 0⟩]⟩ := by
    simpa only [gives, gives', Option.bind_some, Option.map_some, Option.some.injEq] using pending
  obtain ⟨ended, idle, aborted⟩ := Aborted.never.once_more rfl gives
  obtain ⟨ended', _, aborted'⟩ := aborted.once_more idle gives'
  have unheld : ∀ actor handle, ¬ doubledCall.2.world.heap.HeldBy actor handle := by
    intro actor handle held
    obtain ⟨content, found⟩ := Heap.heldBy_iff.mp held
    rcases doubledCall_live found with same | same <;> cases same
  obtain ⟨same, _⟩ := force_retriable doubledCall_retriable rfl rfl (.inr fun handle => ⟨unheld _ handle, unheld _ handle⟩)
    aborted'.registered (unlimited_of_within doubledCall_within) (unlimited_of_within within)
  obtain ⟨after, found, shown⟩ := doubledCall_ends
  have told : after.world.heap.report (.ok ⟨1, 0⟩) = .ok (some .int, some (.int 42)) := by
    rw [Heap.report, Heap.tag, Heap.node, shown, Heap.head?_of_lookup shown rfl]
    rfl
  exact ⟨first, second, ended, Heap.int?_eq_some.mp number, ended', sum, (same _).mpr ⟨20, _, after, found, told⟩⟩

end LazyGraph.Machine

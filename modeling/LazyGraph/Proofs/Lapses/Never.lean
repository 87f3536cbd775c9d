import Mathlib.Logic.Function.Iterate
import LazyGraph.Proofs.Lapses.Calls
import LazyGraph.Proofs.Machine.Wraparound

/-! An evaluator never takes a branch for what should never happen.

This needs nothing of what the nodes refer to, and nothing of the others but that each of them
is another actor and does one thing at a time. -/

set_option autoImplicit false

namespace LazyGraph.Lapses

open Machine Parallel

variable {σ : Type} {evaluator : Evaluator} {start : Scene σ} {root : Handle}

/-- An evaluator that is called for any node, among others that may move between any two of its
actions, never lapses, and what it is about to deliver is a value that stands where its handle
says. A call of the machine that ends is such a run, with what host functions do to the heap
as the moves of others. -/
theorem force_never_lapses (opens : start.Opens evaluator root) :
    (∀ now, Run evaluator start now → now.heap.Addressable →
      (∀ branch, now.activity ≠ .working (.lapse branch)) ∧
      ∀ whnf, now.AboutTo (.deliver whnf) → whnf.node.tag.isWhnf ∧
        ∀ handle, whnf.handle? = some handle → now.heap.node handle = .ok whnf.node) ∧
    ∀ {host : Host σ} {fuel : Nat} {state after : State σ} {result : Except Fault Handle},
      start = .call evaluator root state → host.Plays evaluator.actor → host.KeepsTo Heap.Advances →
      state.world.heap.Regular → state.stack.items = [] →
      force host evaluator fuel root state = some (result, after) → after.world.heap.Addressable →
      ∃ last, Run evaluator start last ∧ last.Shows evaluator after result := by
  refine ⟨fun now run fits => ?_, ?_⟩
  · have keeps := (run.holds opens.holds).keeps fits
    exact ⟨keeps.proper, fun whnf => keeps.delivers⟩
  · rintro host fuel state after result rfl plays keeps regular idle ended fits
    exact Run.force plays keeps regular idle ended fits

/-! ### A thunk next to one that another actor completes -/

-- The evaluator alone goes on, if there is something that it can do.
def Scene.onward (evaluator : Evaluator) (scene : Scene σ) : Scene σ :=
  match scene.activity with
  | .working (.act action next) =>
    match action scene.desk with
    | .ok value after => { scene with desk := after, activity := .working (next value) }
    | .error fault after => { scene with desk := after, activity := .failed fault }
  | .working (.ended (.inl pace)) => { scene with activity := .working (script evaluator pace) }
  | _ => scene

theorem Run.onward {scene : Scene σ} (run : Run evaluator start scene) : Run evaluator start (scene.onward evaluator) := by
  obtain ⟨desk, activity, phase, pledged⟩ := scene
  unfold Scene.onward
  split
  · rename_i same
    cases same
    split
    · rename_i ended
      exact run.step (.act ended)
    · rename_i ended
      exact run.step (.fail ended)
  · rename_i same
    cases same
    exact run.step .turn
  · exact run

theorem Run.onwards {scene : Scene σ} (run : Run evaluator start scene) (count : Nat) :
    Run evaluator start ((Scene.onward evaluator)^[count] scene) := by
  induction count generalizing scene with
  | zero => exact run
  | succ count ih => exact ih run.onward

-- Another actor writes a result.
def Scene.writes (scene : Scene σ) (other : Actor) (node : Handle) (slot : Slot) (result : Node) : Scene σ :=
  let heap := scene.heap.put node.index.toNat { slot with node := result }
  { scene with
    desk := { scene.desk with world := { scene.desk.world with heap := heap } }
    phase := Shared.enter ⟨scene.heap, scene.phase⟩ other (.written node) }

theorem Run.writes {scene : Scene σ} {other : Actor} {node : Handle} {slot : Slot} {result : Node}
    (run : Run evaluator start scene) (seen : scene.phase other = .seen node result)
    (found : scene.heap.lookup node = .ok slot) (another : evaluator.actor ≠ other) :
    Run evaluator start (scene.writes other node slot result) := by
  let world := (scene.writes other node slot result).desk.world
  exact run.step (@Step.others _ _ scene world _ _ (.slot (.write seen found) another))

def pairWorld : World Unit :=
  worldOf [.thunk ⟨0, .int 5⟩ [], .thunk ⟨1, .int 8⟩ []]

def pairHeld : Heap :=
  (Heap.claim ⟨1, 0⟩ ⟨2⟩ pairWorld.heap).state

-- The second actor has checked that the second thunk is its own, and is about to write a value.
def pairScene : Scene Unit where
  desk := ⟨[], 0, none, { pairWorld with heap := pairHeld }⟩
  activity := .working (goingOn (.force ⟨0, 0⟩))
  phase := Shared.enter ⟨pairHeld, fun _ => .idle⟩ ⟨2⟩ (.seen ⟨1, 0⟩ (.int 8))
  pledged := []

-- The evaluator has the value of the first thunk when the other writes that of the second.
def pairMiddle : Scene Unit :=
  (Scene.onward Moment.sessionEvaluator)^[8] pairScene

def pairLast : Scene Unit :=
  (Scene.onward Moment.sessionEvaluator)^[7] (pairMiddle.writes ⟨2⟩ ⟨1, 0⟩ ⟨.inProgress ⟨2⟩, .thunk ⟨1, .int 8⟩ []⟩ (.int 8))

theorem pairLast_run : Run Moment.sessionEvaluator pairScene pairLast := by
  have seen : pairMiddle.phase ⟨2⟩ = .seen ⟨1, 0⟩ (.int 8) := rfl
  have found : pairMiddle.heap.lookup ⟨1, 0⟩ = .ok ⟨.inProgress ⟨2⟩, .thunk ⟨1, .int 8⟩ []⟩ := rfl
  have run : Run Moment.sessionEvaluator pairScene pairMiddle := Run.start.onwards 8
  exact (run.writes seen found (by decide)).onwards 7

theorem pairWorld_regular : pairWorld.heap.Regular :=
  worldOf_regular _ (by decide)

theorem pairScene_opens : pairScene.Opens Moment.sessionEvaluator ⟨0, 0⟩ := by
  have fits : pairHeld.Addressable := by decide
  have claimed : Heap.claim ⟨1, 0⟩ ⟨2⟩ pairWorld.heap = .ok true pairHeld := rfl
  have held : pairHeld.state ⟨1, 0⟩ = .ok (.inProgress ⟨2⟩) := rfl
  have other : Moment.sessionEvaluator.actor ≠ ⟨2⟩ := by decide
  have claims : Surroundings.Move Moment.sessionEvaluator.actor ⟨pairWorld.heap, fun _ => .idle, []⟩
      ⟨pairHeld, fun _ => .idle, []⟩ :=
    .slot (.claim rfl claimed) other
  have checks : Surroundings.Move Moment.sessionEvaluator.actor ⟨pairHeld, fun _ => .idle, []⟩ pairScene.surroundings :=
    .slot (.own rfl held (.int 8)) other
  have orderly := (claims.keeps fits (.of_regular pairWorld_regular _)).1
  exact ⟨rfl, rfl, (checks.keeps fits orderly).1⟩

theorem failingHost_plays (actor : Actor) : failingHost.Plays actor :=
  fun _ _ _ => .refl

def pairState : State Unit :=
  ⟨.empty, 0, none, pairWorld⟩

theorem pairCall_ends :
    ∃ after, force failingHost Moment.sessionEvaluator 9 ⟨0, 0⟩ pairState = some (.ok ⟨0, 0⟩, after) ∧
      after.world.heap.capacity = 2 := by
  have computed : (force failingHost Moment.sessionEvaluator 9 ⟨0, 0⟩ pairState).map
      (fun (result, after) => (result, after.world.heap.capacity)) = some (.ok ⟨0, 0⟩, 2) := by
    decide +kernel
  obtain ⟨⟨result, after⟩, ended, facts⟩ := Option.map_eq_some_iff.mp computed
  simp only [Prod.mk.injEq] at facts
  obtain ⟨rfl, capacity⟩ := facts
  exact ⟨after, ended, capacity⟩

/-- The evaluator delivers its value from the slot, with a value of the other half written; and
the machine's call for the first thunk is a run. -/
theorem force_never_lapses_pair :
    (∃ now : Scene Unit, Run Moment.sessionEvaluator pairScene now ∧ now.heap.node ⟨1, 0⟩ = .ok (.int 8) ∧
      now.AboutTo (.deliver (.stored ⟨0, 0⟩ (.int 5))) ∧ now.heap.node ⟨0, 0⟩ = .ok (.int 5)) ∧
    ∃ after last, force failingHost Moment.sessionEvaluator 9 ⟨0, 0⟩ pairState = some (.ok ⟨0, 0⟩, after) ∧
      Run Moment.sessionEvaluator (.call Moment.sessionEvaluator ⟨0, 0⟩ pairState) last ∧
      last.Shows Moment.sessionEvaluator after (.ok ⟨0, 0⟩) := by
  constructor
  · have fits : pairLast.heap.Addressable := by decide
    have delivers : pairLast.AboutTo (.deliver (.stored ⟨0, 0⟩ (.int 5))) := rfl
    obtain ⟨_, values⟩ := (force_never_lapses pairScene_opens).1 pairLast pairLast_run fits
    exact ⟨pairLast, pairLast_run, rfl, delivers, (values _ delivers).2 _ rfl⟩
  · obtain ⟨after, ended, capacity⟩ := pairCall_ends
    have fits : after.world.heap.Addressable := by
      rw [Heap.Addressable, capacity]
      decide
    have opens := Scene.call_opens Moment.sessionEvaluator ⟨0, 0⟩ (show pairState.world.heap.Regular from pairWorld_regular)
    have keeps : failingHost.KeepsTo Heap.Advances := fun fn operands world =>
      (Moment.failingHost_uses fn operands world).advances
    obtain ⟨last, run, shows⟩ := (force_never_lapses opens).2 rfl (failingHost_plays _) keeps pairWorld_regular rfl ended fits
    exact ⟨after, last, ended, run, shows⟩

/-! ### A full heap -/

theorem looks_state {desk : Desk σ} {node : Handle} {slot : Slot} (found : desk.world.heap.lookup node = .ok slot) :
    beside (do settle ((← getHeap).state node)) desk = .ok slot.state desk := by
  have reads : (do settle ((← getHeap).state node) : MachineM σ _) desk.state = .ok slot.state desk.state := by
    show settle (desk.world.heap.state node) _ = _
    simp only [Heap.state, found]
    rfl
  simp only [beside, reads]
  rfl

theorem Run.refused {desk : Desk σ} {phase : Actor → Phase} {pledged : List Handle} {node : Handle} {whnf : Whnf}
    {slot : Slot} {last : Control → Script σ (Pace ⊕ Handle)} (found : desk.world.heap.lookup node = .ok slot)
    (lost : slot.state ≠ .inProgress evaluator.actor)
    (run : Run evaluator start ⟨desk, .working ((update evaluator node whnf).bind last), phase, pledged⟩) :
    ∃ now, Run evaluator start now ∧ now.activity = .working (.lapse .notOwner) := by
  rw [update] at run
  generalize updatePayload node whnf = both at run
  obtain ⟨payload, result⟩ := both
  obtain ⟨written, completes⟩ : ∃ written : Plan σ Bool, complete node evaluator.actor payload =
      .act (do settle ((← getHeap).state node)) fun state =>
        if state = .inProgress evaluator.actor then written
        else .act (onHeap (modify Heap.notify)) fun _ => .ended false := ⟨_, rfl⟩
  dsimp only at run
  rw [completes] at run
  have looked := run.step (.act (looks_state found))
  beta_reduce at looked
  rw [if_neg lost] at looked
  exact ⟨_, looked.step (.act rfl), rfl⟩

/-- An evaluator that is to write to a thunk that it has lost lapses. -/
theorem Run.lapses {desk : Desk σ} {actor : Actor} {records : List Record} {node : Handle} {whnf : Whnf} {slot : Slot}
    (unhurried : desk.deadline = none) (waits : desk.records = .update node :: records)
    (found : desk.world.heap.lookup node = .ok slot) (lost : slot.state ≠ .inProgress actor)
    (run : Run ⟨actor, {}, none⟩ start (.solo desk (.working (goingOn (.deliver whnf))))) :
    ∃ now, Run ⟨actor, {}, none⟩ start now ∧ now.activity = .working (.lapse .notOwner) := by
  obtain ⟨_, steps, _, world⟩ := desk
  cases unhurried
  cases waits
  have ticked := (run.step .turn).step (.act rfl)
  have popped := ticked.step (.act rfl)
  obtain ⟨below, same, popped⟩ : ∃ below : Desk σ, below.world.heap = world.heap ∧ Run ⟨actor, {}, none⟩ start
      (.solo below (.working ((update ⟨actor, {}, none⟩ node whnf).bind fun control => .ended (.inl (.turn control))))) :=
    ⟨_, rfl, popped⟩
  exact popped.refused (same ▸ found) lost

/-- On a full heap a call for the first node comes to such a branch: the content of the box takes
the place of the thunk that the evaluator has claimed. -/
theorem force_lapses_full : ∃ heap : Heap, heap.Brims [.thunk wrapping []] ∧
    (Scene.call Moment.sessionEvaluator ⟨0, 0⟩ (idleOn heap)).Opens Moment.sessionEvaluator ⟨0, 0⟩ ∧
    ∃ now, Run Moment.sessionEvaluator (.call Moment.sessionEvaluator ⟨0, 0⟩ (idleOn heap)) now ∧
      now.activity = .working (.lapse .notOwner) := by
  obtain ⟨heap, brims, _⟩ := @Heap.exists_brims (fun _ => True) [.thunk wrapping []] trivial fun _ _ _ _ => trivial
  have found : heap.lookup ⟨0, 0⟩ = .ok ⟨.unevaluated, .thunk wrapping []⟩ := brims.lookup 0
  have plays := failingHost_plays Moment.sessionEvaluator.actor
  have keeps : failingHost.KeepsTo Heap.Advances := fun fn operands world =>
    (Moment.failingHost_uses fn operands world).advances
  have regular : (idleOn heap).world.heap.Regular := brims.regular
  obtain ⟨claimed, claims, unhurried, items, same⟩ := @iterate_claims _ failingHost ⟨1⟩
    (begin Moment.sessionEvaluator (idleOn heap)) ⟨0, 0⟩ ⟨0, 0⟩ [] wrapping [] rfl rfl (.of_lookup found)
  have capacity : claimed.world.heap.capacity = UInt32.size := by
    rw [same]
    exact (Heap.capacity_put ..).trans brims.capacity
  have first : claimed.world.heap.lookup ⟨0, 0⟩ = .ok ⟨.inProgress ⟨1⟩, .thunk wrapping []⟩ := by
    rw [same]
    exact (Heap.lookup_put_live found).trans (if_pos rfl)
  have full : claimed.world.heap.Full := ⟨capacity, same ▸ brims.free, same ▸ brims.unlimited⟩
  obtain ⟨evaluated, wraps, unhurried', stack, overwrites⟩ := @iterate_wraps _ failingHost ⟨1⟩ claimed _ unhurried full first
  have standing : Machine.iterations failingHost Moment.sessionEvaluator (.force ⟨0, 0⟩)
      (begin Moment.sessionEvaluator (idleOn heap)) 1 = some (.eval wrapping [], claimed) := iterations_shift claims 0
  obtain ⟨desk, rfl, legible, run⟩ := Run.iterations plays keeps regular rfl standing (Nat.le_of_eq capacity)
  have arrives := run.evaluates plays legible
  rw [show Moment.sessionEvaluator = ⟨⟨1⟩, {}, none⟩ from rfl, wraps] at arrives
  obtain ⟨later, rfl, legible', run'⟩ := arrives
  have waits : later.records = [.update ⟨0, 0⟩] := legible'.sole ((congrArg Stack.items stack).trans items)
  have lost : later.world.heap.lookup ⟨0, 0⟩ = .ok (.ofNode wrapped) := (overwrites _).trans (if_pos rfl)
  exact ⟨heap, brims, Scene.call_opens _ _ regular, run'.lapses unhurried' waits lost nofun⟩

end LazyGraph.Lapses

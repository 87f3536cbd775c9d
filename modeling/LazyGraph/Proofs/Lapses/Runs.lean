import LazyGraph.Proofs.Lapses.Growth
import LazyGraph.Proofs.Lapses.Turns

/-! Runs of an evaluator among others.

A run takes the actions of the evaluator's scripts one at a time, and lets others move at any
point. It keeps what a script relies on, and so it never comes to a lapse. -/

set_option autoImplicit false

namespace LazyGraph.Lapses

open Machine Parallel

variable {σ : Type}

inductive Activity (σ : Type) : Type 1 where
  | working (script : Script σ (Pace ⊕ Handle))
  | failed (fault : Fault)

structure Scene (σ : Type) : Type 1 where
  desk : Desk σ
  activity : Activity σ
  phase : Actor → Phase
  pledged : List Handle

namespace Scene

def heap (scene : Scene σ) : Heap := scene.desk.world.heap

def surroundings (scene : Scene σ) : Surroundings := ⟨scene.heap, scene.phase, scene.pledged⟩

def AboutTo (scene : Scene σ) (control : Control) : Prop :=
  scene.activity = .working (.ended (.inl (.turn control)))

end Scene

/-- One action of the evaluator, or something that another actor does. What a host function
does on the way is done by others; all that is certain is that it answers or fails. -/
inductive Step (evaluator : Evaluator) : Scene σ → Scene σ → Prop where
  | others {scene : Scene σ} {world : World σ} {phase : Actor → Phase} {pledged : List Handle}
      (move : Surroundings.Move evaluator.actor scene.surroundings ⟨world.heap, phase, pledged⟩) :
      Step evaluator scene ⟨{ scene.desk with world := world }, scene.activity, phase, pledged⟩
  | act {desk after : Desk σ} {phase : Actor → Phase} {pledged : List Handle} {β : Type} {action : DeskM σ β}
      {next : β → Script σ (Pace ⊕ Handle)} {value : β} (ended : action desk = .ok value after) :
      Step evaluator ⟨desk, .working (.act action next), phase, pledged⟩ ⟨after, .working (next value), phase, pledged⟩
  | fail {desk after : Desk σ} {phase : Actor → Phase} {pledged : List Handle} {β : Type} {action : DeskM σ β}
      {next : β → Script σ (Pace ⊕ Handle)} {fault : Fault} (ended : action desk = .error fault after) :
      Step evaluator ⟨desk, .working (.act action next), phase, pledged⟩ ⟨after, .failed fault, phase, pledged⟩
  | answer {desk : Desk σ} {phase : Actor → Phase} {pledged : List Handle} {fn : HostFn} {operands : List Node}
      {next : Node → Script σ (Pace ⊕ Handle)} (node : Node) :
      Step evaluator ⟨desk, .working (.ask fn operands next), phase, pledged⟩ ⟨desk, .working (next node), phase, pledged⟩
  | refuse {desk : Desk σ} {phase : Actor → Phase} {pledged : List Handle} {fn : HostFn} {operands : List Node}
      {next : Node → Script σ (Pace ⊕ Handle)} (fault : Fault) :
      Step evaluator ⟨desk, .working (.ask fn operands next), phase, pledged⟩ ⟨desk, .failed fault, phase, pledged⟩
  | turn {desk : Desk σ} {phase : Actor → Phase} {pledged : List Handle} {pace : Pace} :
      Step evaluator ⟨desk, .working (.ended (.inl pace)), phase, pledged⟩
        ⟨desk, .working (script evaluator pace), phase, pledged⟩

inductive Run (evaluator : Evaluator) (start : Scene σ) : Scene σ → Prop where
  | start : Run evaluator start start
  | step {before after : Scene σ} (run : Run evaluator start before) (step : Step evaluator before after) :
      Run evaluator start after

/-- The evaluator is called for a node. Its stack is empty; the heap's own books are in order,
and others may be in the middle of completing what they hold. What the nodes refer to may be
anything. -/
structure Scene.Opens (scene : Scene σ) (evaluator : Evaluator) (root : Handle) : Prop where
  records : scene.desk.records = []
  activity : scene.AboutTo (.force root)
  orderly : scene.surroundings.Orderly evaluator.actor .idle []

variable {evaluator : Evaluator} {start before after now : Scene σ} {root : Handle}

/-- Nothing that the evaluator may still do gives slots back. -/
def Activity.Growing : Activity σ → Prop
  | .failed _ => True
  | .working script => script.Growing

def Scene.Keeps (scene : Scene σ) (evaluator : Evaluator) : Prop :=
  match scene.activity with
  | .failed _ => True
  | .working script => ∃ own mine, scene.surroundings.Orderly evaluator.actor own mine ∧
      Meets evaluator.actor (OutcomeFits evaluator.actor) script ⟨scene.surroundings, scene.desk.records, own, mine⟩

/-- As long as handles can number the slots, the evaluator keeps its promise. -/
structure Holds (evaluator : Evaluator) (scene : Scene σ) : Prop where
  growing : scene.activity.Growing
  keeps : scene.heap.Addressable → scene.Keeps evaluator

theorem Scene.Opens.holds (opens : start.Opens evaluator root) : Holds evaluator start := by
  obtain ⟨records, activity, orderly⟩ := opens
  rw [Scene.AboutTo] at activity
  refine ⟨activity ▸ trivial, fun _ => ?_⟩
  rw [Scene.Keeps, activity]
  refine ⟨.idle, [], orderly, fun later passed => ?_⟩
  have ready : Ready evaluator.actor Settled ⟨start.surroundings, start.desk.records, .idle, []⟩ := by
    rw [records]
    exact ⟨rfl, nofun, .nil, .empty⟩
  exact ready.later passed

theorem Step.growing (step : Step evaluator before after) (growing : before.activity.Growing) :
    after.activity.Growing ∧ before.heap.capacity ≤ after.heap.capacity := by
  cases step with
  | others move => exact ⟨growing, move.grows⟩
  | @act desk after _ _ _ action next value ended =>
    have grows := growing.1 desk
    rw [ended] at grows
    exact ⟨growing.2 _ _ _ ended, grows⟩
  | @fail desk after _ _ _ action next fault ended =>
    have grows := growing.1 desk
    rw [ended] at grows
    exact ⟨trivial, grows⟩
  | answer node => exact ⟨growing node, Nat.le_refl _⟩
  | refuse => exact ⟨trivial, Nat.le_refl _⟩
  | @turn _ _ _ pace => exact ⟨script_growing pace, Nat.le_refl _⟩

theorem Step.keeps (step : Step evaluator before after) (fits : after.heap.Addressable) (keeps : before.Keeps evaluator) :
    after.Keeps evaluator := by
  cases step with
  | others move =>
    obtain ⟨desk, activity, phase, pledged⟩ := before
    cases activity with
    | failed => trivial
    | working script =>
      obtain ⟨own, mine, orderly, meets⟩ := keeps
      obtain ⟨orderly', respects⟩ := move.keeps fits orderly
      exact ⟨own, mine, orderly', meets.later ⟨rfl, rfl, rfl, orderly', respects⟩⟩
  | act ended =>
    obtain ⟨own, mine, orderly, meets⟩ := keeps
    exact meets _ (.refl orderly) _ rfl rfl _ _ ended fits
  | fail => trivial
  | answer node =>
    obtain ⟨own, mine, orderly, meets⟩ := keeps
    exact ⟨own, mine, orderly, meets node _ (.refl orderly)⟩
  | refuse => trivial
  | turn =>
    obtain ⟨own, mine, orderly, meets⟩ := keeps
    exact ⟨own, mine, orderly, script_meets orderly (meets _ (.refl orderly))⟩

theorem Step.holds (step : Step evaluator before after) (holds : Holds evaluator before) : Holds evaluator after := by
  obtain ⟨growing, grows⟩ := step.growing holds.growing
  exact ⟨growing, fun fits => step.keeps fits (holds.keeps (fits.mono grows))⟩

theorem Run.holds (run : Run evaluator start now) (holds : Holds evaluator start) : Holds evaluator now := by
  induction run with
  | start => exact holds
  | step _ step ih => exact step.holds ih

/-- The evaluator does not come to a branch for what should never happen. -/
theorem Scene.Keeps.proper (keeps : now.Keeps evaluator) (branch : Lapse) : now.activity ≠ .working (.lapse branch) := by
  intro lapses
  rw [Scene.Keeps, lapses] at keeps
  obtain ⟨own, mine, _, meets⟩ := keeps
  exact meets

/-- A result is a value, and stands in its slot if it has one. -/
theorem Scene.Keeps.delivers {whnf : Whnf} (keeps : now.Keeps evaluator) (delivers : now.AboutTo (.deliver whnf)) :
    whnf.node.tag.isWhnf ∧ ∀ handle, whnf.handle? = some handle → now.heap.node handle = .ok whnf.node := by
  rw [Scene.AboutTo] at delivers
  rw [Scene.Keeps, delivers] at keeps
  obtain ⟨own, mine, orderly, meets⟩ := keeps
  match whnf, meets _ (.refl orderly) with
  | ⟨none, node⟩, ⟨isWhnf, _⟩ => exact ⟨isWhnf, nofun⟩
  | ⟨some handle, node⟩, ⟨isWhnf, found, _⟩ =>
    refine ⟨isWhnf, fun place same => ?_⟩
    cases same
    exact found

end LazyGraph.Lapses

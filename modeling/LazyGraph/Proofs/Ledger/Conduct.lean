import LazyGraph.Proofs.Ledger.Steps
import LazyGraph.Proofs.Machine.Upkeep

/-! Whatever uses the heap is a run of its ledger.

An allocation of a group is the steps that open and close it, with what its builder does in
between; a call of an evaluator is one heap operation after the other, with what its host's
functions do in between. Each leaves the groups that are being built as it found them. -/

set_option autoImplicit false

namespace LazyGraph

/-- Steps of a ledger that open and close groups, change slots and note waits. -/
class Ledger.Handling (step : Ledger → Ledger → Prop) : Prop where
  openGroup : ∀ {ledger : Ledger} {count : UInt64} {handles : List Handle} {after : Heap},
    Heap.openGroup count ledger.heap = .ok handles after →
    step ledger { ledger with
      heap := after
      groups := ⟨count, handles⟩ :: ledger.groups
      issued := handles ++ ledger.issued }
  fillGroup : ∀ {ledger : Ledger} {group : Group} {rest : List Group} {nodes : List Node} {after : Heap},
    ledger.groups = group :: rest → Heap.closeGroup group.count group.handles nodes ledger.heap = .ok () after →
    step ledger { ledger with
      heap := after
      groups := rest
      granted := group.handles ++ ledger.granted }
  dropGroup : ∀ {ledger : Ledger} {group : Group} {rest : List Group} {nodes : List Node} {fault : Fault} {after : Heap},
    ledger.groups = group :: rest → Heap.closeGroup group.count group.handles nodes ledger.heap = .error fault after →
    step ledger { ledger with
      heap := after
      groups := rest
      recycled := group.handles.map (·.index.toNat) ++ ledger.recycled }
  write : ∀ {ledger : Ledger} {handle : Handle} {change : Slot → Option Slot} {after : Heap},
    Heap.transition handle change ledger.heap = .ok true after → step ledger { ledger with heap := after }
  noted : ∀ (ledger : Ledger) waits epoch,
    step ledger { ledger with heap := { ledger.heap with waits := waits, epoch := epoch } }

instance (within : List Group → Prop) : Ledger.Handling (Ledger.Step within) where
  openGroup := .openGroup
  fillGroup := .fillGroup
  dropGroup := .dropGroup
  write := .write
  noted _ _ _ := .books rfl rfl rfl

/-- Under these groups the heap comes from one state to the other by such steps. -/
def Heap.Leads (step : Ledger → Ledger → Prop) (groups : List Group) (before after : Heap) : Prop :=
  ∀ ledger : Ledger, ledger.heap = before → ledger.groups = groups →
    ∃ later, Relation.ReflTransGen step ledger later ∧ later.heap = after ∧ later.groups = groups

/-- Under these groups the heap comes from one state to the other by steps of its ledger. -/
def Heap.Conducts (within : List Group → Prop) (groups : List Group) (before after : Heap) : Prop :=
  ∀ ledger : Ledger, ledger.heap = before → ledger.groups = groups →
    ∃ later, Ledger.Run within ledger later ∧ later.heap = after ∧ later.groups = groups

namespace Heap

variable {step : Ledger → Ledger → Prop} {groups : List Group} {before middle after : Heap}

namespace Leads

theorem refl (heap : Heap) : Leads step groups heap heap :=
  fun ledger same under => ⟨ledger, .refl, same, under⟩

theorem trans (early : Leads step groups before middle) (late : Leads step groups middle after) :
    Leads step groups before after := by
  intro ledger same under
  obtain ⟨next, run, heap, under'⟩ := early ledger same under
  obtain ⟨last, run', heap', under''⟩ := late next heap under'
  exact ⟨last, run.trans run', heap', under''⟩

local instance : Std.Refl (Leads step groups) := ⟨refl⟩

variable [Ledger.Handling step]

theorem transition (handle : Handle) (change : Slot → Option Slot) :
    Moves (Leads step groups) (Heap.transition handle change) := by
  intro heap
  cases ended : Heap.transition handle change heap with
  | ok written after =>
    cases written with
    | true =>
      rintro ledger rfl under
      exact ⟨_, .single (Ledger.Handling.write ended), rfl, under⟩
    | false =>
      unfold Heap.transition at ended
      split at ended
      · cases ended
      · split at ended
        · cases ended
        · cases ended
          exact refl heap
  | error fault after =>
    unfold Heap.transition at ended
    split at ended
    · cases ended
      exact refl heap
    · split at ended <;> cases ended

theorem noted (heap : Heap) (waits : List (Actor × Handle)) (epoch : UInt64) :
    Leads step groups heap { heap with waits := waits, epoch := epoch } := by
  rintro ledger rfl under
  exact ⟨_, .single (Ledger.Handling.noted ledger waits epoch), rfl, under⟩

-- One node is a group of one.
theorem alloc (node : Node) : Moves (Leads step groups) (Heap.alloc node) := by
  intro heap
  rcases alloc_cases node heap with ⟨handle, after, allocated, _⟩ | ⟨limit, refused⟩
  · rw [allocated]
    rintro ledger rfl under
    obtain ⟨opened, opens, closes⟩ := alloc_eq_group allocated
    have first : step ledger _ := Ledger.Handling.openGroup opens
    have second : step { ledger with
        heap := opened
        groups := ⟨1, [handle]⟩ :: ledger.groups
        issued := [handle] ++ ledger.issued } _ := Ledger.Handling.fillGroup rfl closes
    exact ⟨_, (Relation.ReflTransGen.single first).tail second, rfl, under⟩
  · rw [refused]
    exact refl heap

theorem allocGroup (count : UInt64) {build : List Handle → Heap → List Node × Heap}
    (inside : ∀ handles heap, Leads step (⟨count, handles⟩ :: groups) heap (build handles heap).2) :
    Moves (Leads step groups) (Heap.allocGroup count build) := by
  unfold Heap.allocGroup
  split
  · exact Moves.pure []
  · intro heap
    rcases openGroup_cases count heap with ⟨handles, opened, taken, _, _⟩ | ⟨limit, refused⟩
    · rw [bind_ok taken]
      have built : (modifyGet (build handles) : HeapM (List Node)) opened =
          .ok (build handles opened).1 (build handles opened).2 := rfl
      rw [bind_ok built]
      rintro ledger rfl under
      let entered : Ledger := { ledger with
        heap := opened
        groups := ⟨count, handles⟩ :: ledger.groups
        issued := handles ++ ledger.issued }
      have opens : step ledger entered := Ledger.Handling.openGroup taken
      obtain ⟨building, run, heap, under'⟩ := inside handles opened entered rfl (congrArg _ under)
      cases closed : closeGroup count handles (build handles opened).1 (build handles opened).2 with
      | ok _ after =>
        rw [bind_ok closed]
        rw [← heap] at closed
        have closes : step building _ := Ledger.Handling.fillGroup under' closed
        exact ⟨_, (run.head opens).tail closes, rfl, rfl⟩
      | error fault after =>
        rw [bind_error closed]
        rw [← heap] at closed
        have closes : step building _ := Ledger.Handling.dropGroup under' closed
        exact ⟨_, (run.head opens).tail closes, rfl, rfl⟩
    · rw [bind_error refused]
      exact refl heap

instance : Upkeep (Leads step groups) where
  refl := refl
  trans := trans
  alloc := alloc
  allocGroup count build leaves := by
    refine allocGroup count fun handles heap => ?_
    rw [leaves]
    exact refl heap
  transition := transition
  noted := noted

end Leads

theorem Conducts.allocGroup {within : List Group → Prop} (count : UInt64)
    {build : List Handle → Heap → List Node × Heap}
    (inside : ∀ handles heap, Conducts within (⟨count, handles⟩ :: groups) heap (build handles heap).2) :
    Moves (Conducts within groups) (Heap.allocGroup count build) :=
  Leads.allocGroup count inside

end Heap

/-- A call that ends is a run of the ledger, whether it succeeds or fails. -/
theorem Machine.force_conducts {σ : Type} {host : Host σ} {within : List Group → Prop} {groups : List Group}
    (keeps : host.KeepsTo (Heap.Conducts within groups)) {evaluator : Evaluator} {fuel : Nat}
    {root : Handle} {state after : State σ} {result : Except Fault Handle}
    (ended : force host evaluator fuel root state = some (result, after)) :
    Heap.Conducts within groups state.world.heap after.world.heap :=
  @force_upheld σ (Heap.Leads (Ledger.Step within) groups) host _ keeps _ _ _ _ _ _ ended

end LazyGraph

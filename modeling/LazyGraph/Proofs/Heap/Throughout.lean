import LazyGraph.Proofs.Heap.Drift

/-! Properties of slots that hold throughout a heap.

Allocation adds slots of new nodes and collapsing moves targets, wherever the free list
leads, so a property that these have stays with the heap. The one of interest says that
a single actor is at work. -/

set_option autoImplicit false

namespace LazyGraph

namespace Heap

variable {holds : Slot → Prop} {heap heap' : Heap}

def Throughout (holds : Slot → Prop) (heap : Heap) : Prop :=
  ∀ index slot, heap.slotAt? index = some slot → holds slot

/-- Whatever is in progress is in progress for this actor. -/
def Sole (actor : Actor) : Heap → Prop :=
  Throughout fun slot => ∀ owner, slot.state = .inProgress owner → owner = actor

namespace Throughout

theorem lookup (every : heap.Throughout holds) {handle : Handle} {slot : Slot}
    (live : heap.lookup handle = .ok slot) : holds slot := by
  apply every handle.index.toNat
  simp only [slotAt?, lookup_eq_ok.mp live, Option.bind_some]

theorem of_entries (every : heap.Throughout holds) (same : heap'.entries = heap.entries) :
    heap'.Throughout holds := by
  intro index slot found
  apply every index
  rw [← found, slotAt?, slotAt?, same]

theorem put (every : heap.Throughout holds) {slot : Slot} (held : holds slot) (index : Nat) :
    (heap.put index slot).Throughout holds := by
  intro place slot' found
  rw [slotAt?, entries_put] at found
  split at found
  · cases present : heap.entries[place]? with
    | none => simp [present] at found
    | some entry =>
      simp only [present, Option.map_some, Option.bind_some, Option.some.injEq] at found
      exact found ▸ held
  · exact every place slot' found

theorem takeSlot (every : heap.Throughout holds) : heap.takeSlot.2.Throughout holds := by
  unfold Heap.takeSlot
  split
  · exact every.of_entries rfl
  · intro place slot found
    simp only [slotAt?, Array.getElem?_push] at found
    split at found
    · simp at found
    · exact every place slot found

theorem takeSlots (count : Nat) (every : heap.Throughout holds) (taken : List Handle) :
    (Heap.takeSlots count taken heap).2.Throughout holds := by
  induction count generalizing heap taken with
  | zero => exact every
  | succ count ih => exact ih every.takeSlot _

theorem abandon (every : heap.Throughout holds) (handle : Handle) : (heap.abandon handle).Throughout holds := by
  intro place slot found
  apply every place
  rw [← found]
  simp only [slotAt?, Heap.abandon, Array.getElem?_modify]
  split
  · cases heap.entries[place]? <;> rfl
  · rfl

theorem fill (every : heap.Throughout holds) (born : ∀ node, holds (.ofNode node)) (handle : Handle)
    (node : Node) : (heap.fill handle node).Throughout holds :=
  put (every.of_entries rfl) (born node) _

end Throughout

def Preserves (holds : Slot → Prop) (before after : Heap) : Prop :=
  before.Throughout holds → after.Throughout holds

instance : Std.Refl (Preserves holds) := ⟨fun _ every => every⟩

instance : Trans (Preserves holds) (Preserves holds) (Preserves holds) :=
  ⟨fun early late every => late (early every)⟩

theorem reserve_preserves (count : UInt64) : Moves (Preserves holds) (reserve count) := by
  intro heap every
  unfold reserve
  split
  · split
    · exact every
    · exact every.of_entries rfl
  · exact every.of_entries rfl

theorem alloc_preserves (born : ∀ node, holds (.ofNode node)) (node : Node) :
    Moves (Preserves holds) (alloc node) :=
  (reserve_preserves 1).bind fun _ _ every => every.takeSlot.fill born _ node

theorem closeGroup_preserves (born : ∀ node, holds (.ofNode node)) (count : UInt64) (handles : List Handle)
    (nodes : List Node) : Moves (Preserves holds) (closeGroup count handles nodes) := by
  intro heap every
  unfold closeGroup
  split
  · refine List.foldlRecOn (handles.zip nodes) _ every fun heap every pair _ => ?_
    exact every.fill born pair.1 pair.2
  · have dropped : (handles.foldl abandon heap).Throughout holds :=
      List.foldlRecOn handles abandon every fun heap every handle _ => every.abandon handle
    exact dropped.of_entries rfl

theorem allocGroup_preserves (born : ∀ node, holds (.ofNode node)) (count : UInt64)
    (build : List Handle → Heap → List Node × Heap) (leaves : ∀ handles heap, (build handles heap).2 = heap) :
    Moves (Preserves holds) (allocGroup count build) := by
  unfold allocGroup
  split
  · exact Moves.pure []
  · have opened : Moves (Preserves holds) (openGroup count) :=
      (reserve_preserves count).bind fun _ _ every => every.takeSlots count.toNat []
    refine opened.bind fun handles => Moves.bind ?_ fun nodes => ?_
    · intro heap every
      exact every.of_entries (congrArg entries (leaves handles heap))
    · exact (closeGroup_preserves born count handles nodes).bind fun _ => Moves.pure handles

theorem redirect_preserves
    (retargets : ∀ state old new, holds ⟨state, .indirection old⟩ → holds ⟨state, .indirection new⟩)
    (link target : Handle) : Moves (Preserves holds) (redirect link target) := by
  intro heap every
  unfold redirect transition Slot.redirect
  split
  · exact every
  · rename_i slot live
    obtain ⟨state, node⟩ := slot
    cases node with
    | indirection old => exact every.put (retargets state old target (every.lookup live)) _
    | _ => exact every

theorem Throughout.rewrites {node : Handle} {old new : Slot} (every : heap.Throughout holds) (held : holds new)
    (rewrites : heap.Rewrites heap' node old new) : heap'.Throughout holds := by
  intro index slot found
  by_cases same : index = node.index.toNat
  · have live : heap'.lookup node = .ok new := by
      rw [rewrites.lookup, if_pos rfl]
    rw [slotAt?, same, lookup_eq_ok.mp live] at found
    exact Option.some.inj found ▸ held
  · apply every index
    rw [← found, slotAt?, slotAt?, rewrites.entries index same]

end Heap

-- The heap moves on with one actor at work.
def HeapMotion.sole (actor : Actor) : HeapMotion where
  along := Heap.Preserves fun slot => ∀ owner, slot.state = .inProgress owner → owner = actor
  trans := Trans.trans
  same := fun entries _ every => every.of_entries entries
  alloc := Heap.alloc_preserves fun node owner held => by cases node <;> cases held
  allocGroup := Heap.allocGroup_preserves fun node owner held => by cases node <;> cases held
  redirect := Heap.redirect_preserves fun _ _ _ held => held

end LazyGraph

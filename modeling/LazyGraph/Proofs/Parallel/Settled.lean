import LazyGraph.Proofs.Sharing.Suspension

/-! Heaps as they are once written results are marked.

Between the write of a result and the mark a slot is in progress and holds the result already.
Nobody takes it over in this state, so for what the handles stand for it is evaluated. -/

set_option autoImplicit false

namespace LazyGraph

def Slot.settled (slot : Slot) : Slot :=
  if slot.node.tag = .thunk then slot else { slot with state := .evaluated }

@[simp] theorem Slot.node_settled (slot : Slot) : slot.settled.node = slot.node := by
  unfold settled
  split <;> rfl

theorem Slot.settled_of_thunk {slot : Slot} (thunk : slot.node.tag = .thunk) : slot.settled = slot :=
  if_pos thunk

theorem Slot.settled_of_solid {slot : Slot} (solid : slot.node.tag ≠ .thunk) : slot.settled = ⟨.evaluated, slot.node⟩ :=
  if_neg solid

@[simp] theorem Slot.settled_ofNode (node : Node) : (Slot.ofNode node).settled = .ofNode node := by
  cases node <;> rfl

namespace Heap

def settled (heap : Heap) : Heap :=
  { heap with entries := heap.entries.map fun entry => { entry with slot := entry.slot.map Slot.settled } }

variable {heap before after : Heap} {handle node : Handle} {handles : List Handle} {slot old new : Slot} {content : Node}

theorem entry_settled (heap : Heap) (place : Nat) :
    heap.settled.entries[place]? = heap.entries[place]?.map fun entry => ⟨entry.generation, entry.slot.map Slot.settled⟩ :=
  Array.getElem?_map

@[simp] theorem capacity_settled (heap : Heap) : heap.settled.capacity = heap.capacity :=
  Array.size_map

theorem lookup_settled (heap : Heap) (handle : Handle) :
    heap.settled.lookup handle = (heap.lookup handle).map Slot.settled := by
  simp only [lookup, entry_settled]
  cases heap.entries[handle.index.toNat]? with
  | none => rfl
  | some entry =>
    simp only [Option.map_some]
    split
    · cases entry.slot <;> rfl
    · rfl

theorem lookup_settled_of_ok (found : heap.lookup handle = .ok slot) : heap.settled.lookup handle = .ok slot.settled := by
  rw [lookup_settled, found]
  rfl

theorem lookup_settled_eq_ok :
    heap.settled.lookup handle = .ok slot ↔ ∃ real, heap.lookup handle = .ok real ∧ real.settled = slot := by
  rw [lookup_settled]
  cases heap.lookup handle <;> simp [Except.map]

theorem live_settled : heap.settled.Live handle ↔ heap.Live handle := by
  constructor
  · rintro ⟨slot, found⟩
    obtain ⟨real, found, _⟩ := lookup_settled_eq_ok.mp found
    exact ⟨real, found⟩
  · rintro ⟨slot, found⟩
    exact ⟨_, lookup_settled_of_ok found⟩

theorem keeps_settled (isWhnf : content.tag.isWhnf) :
    heap.settled.Keeps handle content ↔ ∃ state, heap.lookup handle = .ok ⟨state, content⟩ := by
  have solid := Tag.ne_thunk_of_whnf isWhnf
  constructor
  · intro keeps
    obtain ⟨⟨state, content'⟩, found, same⟩ := lookup_settled_eq_ok.mp keeps
    obtain rfl : content' = content := by simpa using congrArg Slot.node same
    exact ⟨state, found⟩
  · rintro ⟨state, found⟩
    rw [Keeps, lookup_settled_of_ok found, Slot.settled_of_solid solid]

theorem offers_settled : heap.settled.Offers handle ↔ heap.Offers handle := by
  unfold Offers
  rw [capacity_settled, entry_settled]
  refine or_congr_right (and_congr_right fun _ => ?_)
  cases present : heap.entries[handle.index.toNat]? with
  | none => simp
  | some entry =>
    obtain ⟨generation, slot⟩ := entry
    simp

theorem FreeListSound.settled (sound : heap.FreeListSound) : heap.settled.FreeListSound where
  empty := by
    intro index listed
    obtain ⟨generation, empty⟩ := sound.empty index listed
    exact ⟨generation, by simp [entry_settled, empty]⟩
  distinct := sound.distinct

theorem FreeListSound.of_settled (sound : heap.settled.FreeListSound) : heap.FreeListSound where
  empty := by
    intro index listed
    obtain ⟨generation, empty⟩ := sound.empty index listed
    rw [entry_settled, Option.map_eq_some_iff] at empty
    obtain ⟨⟨generation', slot⟩, present, same⟩ := empty
    obtain ⟨rfl, vacant⟩ := Entry.mk.inj same
    obtain rfl : slot = none := Option.map_eq_none_iff.mp vacant
    exact ⟨generation', present⟩
  distinct := sound.distinct

theorem Gains.settled {added : List (Handle × Node)} (gains : before.Gains after added) :
    before.settled.Gains after.settled added where
  kept := by
    intro handle slot found
    obtain ⟨real, present, rfl⟩ := lookup_settled_eq_ok.mp found
    exact lookup_settled_of_ok (gains.kept present)
  fresh := by
    intro handle slot found
    obtain ⟨real, present, rfl⟩ := lookup_settled_eq_ok.mp found
    rcases gains.fresh present with present | ⟨node, member, rfl⟩
    · exact .inl (lookup_settled_of_ok present)
    · exact .inr ⟨node, member, Slot.settled_ofNode node⟩
  filled := by
    intro handle node member
    rw [lookup_settled_of_ok (gains.filled member), Slot.settled_ofNode]
  dead := by
    intro handle node member slot found
    obtain ⟨real, found, _⟩ := lookup_settled_eq_ok.mp found
    exact gains.dead member real found

theorem Rewrites.settled (rewrites : before.Rewrites after node old new) :
    before.settled.Rewrites after.settled node old.settled new.settled where
  found := lookup_settled_of_ok rewrites.found
  capacity := by simpa using rewrites.capacity
  entries := by
    intro place apart
    rw [entry_settled, entry_settled, rewrites.entries place apart]
  free := rewrites.free
  lookup := by
    intro handle
    rw [lookup_settled, rewrites.lookup, lookup_settled]
    split <;> rfl

end Heap

end LazyGraph

import LazyGraph.Heap.Collect
import LazyGraph.Proofs.Heap.Assignment
import LazyGraph.Proofs.Heap.WellFormed

/-! Heaps that have run out of numbers for their slots.

A new slot is numbered by the count of those before it, as a 32-bit word. When there is a slot
for each word and none is free, the next allocation adds one more, but it fills the first slot
again and hands out the first handle. -/

set_option autoImplicit false

namespace LazyGraph.Heap

variable {heap : Heap} {content : Nat → Node} {front : List Node} {handle : Handle} {slot : Slot}

/-- Without free slots and without a limit, a node goes to the slot that the count is cut down to. -/
theorem alloc_extends (free : heap.free = []) (unlimited : heap.maxNodes = none) (node : Node) :
    ∃ after, alloc node heap = .ok ⟨UInt32.ofNat heap.capacity, 0⟩ after ∧ after.free = [] ∧ after.maxNodes = none ∧
      after.waits = heap.waits ∧ after.entries = (heap.entries.push ⟨0, none⟩).modify (UInt32.ofNat heap.capacity).toNat
        fun entry => { entry with slot := some (.ofNode node) } := by
  obtain ⟨counted, granted, entries, free', unlimited', waits⟩ : ∃ counted : Heap, reserve 1 heap = .ok () counted ∧
      counted.entries = heap.entries ∧ counted.free = [] ∧ counted.maxNodes = none ∧ counted.waits = heap.waits := by
    refine ⟨{ heap with live := heap.live + 1, recent := heap.recent + 1, total := heap.total + 1 }, ?_, rfl, free, unlimited, rfl⟩
    simp only [reserve, unlimited]
  have taken : counted.takeSlot =
      (⟨UInt32.ofNat heap.capacity, 0⟩, { counted with entries := counted.entries.push ⟨0, none⟩ }) := by
    simp only [takeSlot, free', entries, Heap.capacity]
  have ended : alloc node heap = .ok counted.takeSlot.1 (counted.takeSlot.2.fill counted.takeSlot.1 node) := bind_ok granted
  rw [taken] at ended
  exact ⟨_, ended, free', unlimited', waits, by rw [← entries]; rfl⟩

/-! ### Heaps that were only allocated on -/

/-- Each slot holds its node, in the first generation. There is no node limit, and nobody waits. -/
structure Filled (heap : Heap) (content : Nat → Node) : Prop where
  entries : ∀ place < heap.capacity, heap.entries[place]? = some ⟨0, some (.ofNode (content place))⟩
  free : heap.free = []
  unlimited : heap.maxNodes = none
  unawaited : heap.waits = []

theorem Filled.alloc (filled : heap.Filled content) (room : heap.capacity < UInt32.size) :
    (Heap.alloc (content heap.capacity) heap).state.Filled content ∧
      (Heap.alloc (content heap.capacity) heap).state.capacity = heap.capacity + 1 := by
  obtain ⟨after, ended, free, unlimited, waits, entries⟩ := alloc_extends filled.free filled.unlimited (content heap.capacity)
  have last : (UInt32.ofNat heap.capacity).toNat = heap.capacity := UInt32.toNat_ofNat_of_lt' room
  have grown : after.capacity = heap.capacity + 1 := by
    rw [Heap.capacity, entries, Array.size_modify, Array.size_push]
    rfl
  rw [ended]
  refine ⟨⟨fun place within => ?_, free, unlimited, waits.trans filled.unawaited⟩, grown⟩
  replace within : place < heap.capacity + 1 := grown ▸ within
  show after.entries[place]? = _
  rw [entries, Array.getElem?_modify, Array.getElem?_push, last]
  by_cases here : place = heap.capacity
  · subst here
    simp only [Heap.capacity, if_true, Option.map_some]
  · rw [if_neg (Ne.symm here), if_neg (show place ≠ heap.entries.size from here)]
    exact filled.entries place (by omega)

theorem exists_filled {holds : Heap → Prop} (content : Nat → Node) (empty : holds (.ofSettings {}))
    (allocated : ∀ node heap, (Heap.alloc node heap).state.capacity = heap.capacity + 1 → holds heap →
      holds (Heap.alloc node heap).state) {count : Nat} (few : count ≤ UInt32.size) :
    ∃ heap : Heap, heap.capacity = count ∧ heap.Filled content ∧ holds heap := by
  induction count with
  | zero => exact ⟨.ofSettings {}, rfl, ⟨nofun, rfl, rfl, rfl⟩, empty⟩
  | succ count ih =>
    obtain ⟨heap, rfl, filled, held⟩ := ih (Nat.le_of_succ_le few)
    obtain ⟨filled', grown⟩ := filled.alloc few
    exact ⟨_, grown, filled', allocated _ heap grown held⟩

theorem Filled.found (filled : heap.Filled content) (found : heap.lookup handle = .ok slot) :
    slot = .ofNode (content handle.index.toNat) := by
  have present := (lookup_eq_ok.mp found).symm.trans (filled.entries _ (index_lt_of_lookup found))
  simp only [Option.some.injEq, Entry.mk.injEq] at present
  exact present.2

theorem Filled.regular (filled : heap.Filled content) : heap.Regular where
  free := ⟨by simp [filled.free], by simp [filled.free]⟩
  proper := by
    intro handle slot found
    rw [filled.found found]
    cases content handle.index.toNat <;> simp [Slot.Proper, Slot.ofNode, Node.tag]

theorem Filled.wellFormed (filled : heap.Filled content) (closed : ∀ place live, (content place).WellFormed live) :
    heap.WellFormed where
  nodes := by
    intro handle slot found
    rw [filled.found found]
    exact closed _ _
  waits := by simp [filled.unawaited]
  free := filled.regular.free

/-! ### Full heaps -/

/-- There is a slot for each word, and none is free. -/
structure Full (heap : Heap) : Prop where
  capacity : heap.capacity = UInt32.size
  free : heap.free = []
  unlimited : heap.maxNodes = none

/-- The next node takes the place of the first one. -/
theorem Full.alloc {old : Slot} (full : heap.Full) (first : heap.lookup ⟨0, 0⟩ = .ok old) (node : Node) :
    ∃ after, Heap.alloc node heap = .ok ⟨0, 0⟩ after ∧ after.liveSlots ≤ UInt32.size ∧
      ∀ handle, after.lookup handle = if handle = ⟨0, 0⟩ then .ok (.ofNode node) else heap.lookup handle := by
  obtain ⟨after, ended, _, _, _, entries⟩ := alloc_extends full.free full.unlimited node
  rw [full.capacity, show UInt32.ofNat UInt32.size = 0 from rfl] at ended entries
  refine ⟨after, ended, ?_, fun handle => ?_⟩
  · have size : heap.entries.size = UInt32.size := full.capacity
    have grown : after.entries.size = UInt32.size + 1 := by
      rw [entries, Array.size_modify, Array.size_push, size]
    -- the slot that was added stays empty
    have last : after.entries[UInt32.size]? = some ⟨0, none⟩ := by
      rw [entries, Array.getElem?_modify, if_neg (by decide), ← size, Array.getElem?_push_size]
    have fewer : after.liveSlots ≠ after.entries.size := fun same =>
      absurd (Array.countP_eq_size.mp same _ (Array.mem_of_getElem? last)) (by simp)
    have most : after.liveSlots ≤ after.entries.size := Array.countP_le_size
    omega
  · have grown : ∀ handle, ({ heap with entries := heap.entries.push ⟨0, none⟩ } : Heap).lookup handle = heap.lookup handle := by
      intro handle
      have below : handle.index.toNat ≠ heap.entries.size := by
        have word := handle.index.toNat_lt
        have size : heap.entries.size = 2 ^ 32 := full.capacity
        omega
      simp only [Heap.lookup, Array.getElem?_push, if_neg below]
    rw [← grown handle, ← lookup_put_live ((grown ⟨0, 0⟩).trans first)]
    exact lookup_congr (by rw [entries]; rfl) handle

/-- The heap is full: it holds these nodes in front, and a number in each slot that is left. -/
structure Brims (heap : Heap) (front : List Node) : Prop extends heap.Filled fun place => front.getD place (.int 0) where
  capacity : heap.capacity = UInt32.size

/-- There are such heaps, with whatever holds at first and is kept by allocations that add a slot. -/
theorem exists_brims {holds : Heap → Prop} (front : List Node) (empty : holds (.ofSettings {}))
    (allocated : ∀ node heap, (Heap.alloc node heap).state.capacity = heap.capacity + 1 → holds heap →
      holds (Heap.alloc node heap).state) :
    ∃ heap : Heap, heap.Brims front ∧ holds heap := by
  obtain ⟨heap, capacity, filled, held⟩ :=
    exists_filled (fun place => front.getD place (.int 0)) empty allocated (Nat.le_refl UInt32.size)
  exact ⟨heap, ⟨filled, capacity⟩, held⟩

namespace Brims

theorem full (brims : heap.Brims front) : heap.Full :=
  ⟨brims.capacity, brims.free, brims.unlimited⟩

theorem lookup (brims : heap.Brims front) (index : UInt32) :
    heap.lookup ⟨index, 0⟩ = .ok (.ofNode (front.getD index.toNat (.int 0))) :=
  lookup_eq_ok.mpr (brims.entries _ (Nat.lt_of_lt_of_eq index.toNat_lt brims.capacity.symm))

end Brims

end LazyGraph.Heap

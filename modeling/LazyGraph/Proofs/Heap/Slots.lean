import LazyGraph.Proofs.Heap.Assignment
import LazyGraph.Proofs.Heap.Throughout

/-! What the operations do to the entries.

Taking slots uses up free ones before it adds new ones at the end; filling leaves every
generation as it is, and giving back and freeing move it on. -/

set_option autoImplicit false

namespace LazyGraph.Heap

variable {before after heap : Heap} {handle : Handle} {handles : List Handle} {nodes : List Node} {count : UInt64}

def freed (heap : Heap) (roots : List Handle) : List Nat :=
  heap.garbage (heap.mark (heap.roots.map Prod.fst ++ roots)).marks

theorem capacity_takeSlot_free (heap : Heap) :
    heap.takeSlot.2.capacity + heap.free.length = heap.capacity + heap.takeSlot.2.free.length + 1 := by
  unfold takeSlot
  split
  · rename_i listed
    simp only [listed, capacity, List.length_cons]
    omega
  · rename_i listed
    simp [listed, capacity]

theorem entries_takeSlot (heap : Heap) {place : Nat} {entry : Entry}
    (present : heap.takeSlot.2.entries[place]? = some entry) :
    heap.entries[place]? = some entry ∨ (heap.capacity ≤ place ∧ entry = ⟨0, none⟩) := by
  unfold takeSlot at present
  split at present
  · exact .inl present
  · simp only [Array.getElem?_push] at present
    split at present
    · rename_i last
      exact .inr ⟨Nat.le_of_eq last.symm, (Option.some.inj present).symm⟩
    · exact .inl present

theorem capacity_takeSlots_free (taken : Nat) (reversed : List Handle) (heap : Heap) :
    (takeSlots taken reversed heap).2.capacity + heap.free.length =
      heap.capacity + (takeSlots taken reversed heap).2.free.length + taken := by
  induction taken generalizing reversed heap with
  | zero => rfl
  | succ taken ih =>
    have first := heap.capacity_takeSlot_free
    have rest := ih (heap.takeSlot.1 :: reversed) heap.takeSlot.2
    simp only [takeSlots]
    omega

theorem live_takeSlots (taken : Nat) (reversed : List Handle) (heap : Heap) :
    (takeSlots taken reversed heap).2.live = heap.live := by
  induction taken generalizing reversed heap with
  | zero => rfl
  | succ taken ih =>
    have first : heap.takeSlot.2.live = heap.live := by
      unfold takeSlot
      split <;> rfl
    exact (ih _ heap.takeSlot.2).trans first

/-- The slots that were there stay as they are; new ones are empty, of the first generation. -/
theorem entries_takeSlots (taken : Nat) (reversed : List Handle) (heap : Heap) {place : Nat} {entry : Entry}
    (present : (takeSlots taken reversed heap).2.entries[place]? = some entry) :
    heap.entries[place]? = some entry ∨ (heap.capacity ≤ place ∧ entry = ⟨0, none⟩) := by
  induction taken generalizing reversed heap with
  | zero => exact .inl present
  | succ taken ih =>
    rcases ih _ heap.takeSlot.2 present with earlier | ⟨beyond, fresh⟩
    · exact heap.entries_takeSlot earlier
    · exact .inr ⟨Nat.le_trans (capacity_takeSlot heap) beyond, fresh⟩

theorem free_fillAll (pairs : List (Handle × Node)) (heap : Heap) :
    (pairs.foldl (fun heap (handle, node) => heap.fill handle node) heap).free = heap.free := by
  induction pairs generalizing heap with
  | nil => rfl
  | cons pair pairs ih => exact ih _

theorem live_fillAll (pairs : List (Handle × Node)) (heap : Heap) :
    (pairs.foldl (fun heap (handle, node) => heap.fill handle node) heap).live = heap.live := by
  induction pairs generalizing heap with
  | nil => rfl
  | cons pair pairs ih => exact ih _

/-- Filling keeps every generation, and leaves empty what it does not fill. -/
theorem entries_fillAll (pairs : List (Handle × Node)) (heap : Heap) {place : Nat} {entry : Entry}
    (present : (pairs.foldl (fun heap (handle, node) => heap.fill handle node) heap).entries[place]? = some entry) :
    ∃ old, heap.entries[place]? = some old ∧ old.generation = entry.generation ∧
      (entry.slot = none → old.slot = none ∧ place ∉ pairs.map fun pair => pair.1.index.toNat) := by
  induction pairs generalizing heap with
  | nil => exact ⟨entry, present, rfl, fun empty => ⟨empty, by simp⟩⟩
  | cons pair pairs ih =>
    obtain ⟨middle, found, generation, empty⟩ := ih _ present
    simp only [fill, entries_put] at found
    by_cases here : pair.1.index.toNat = place
    · rw [if_pos here] at found
      obtain ⟨old, foundOld, rfl⟩ := Option.map_eq_some_iff.mp found
      exact ⟨old, foundOld, generation, fun isEmpty => by cases (empty isEmpty).1⟩
    · rw [if_neg here] at found
      refine ⟨middle, found, generation, fun isEmpty => ⟨(empty isEmpty).1, ?_⟩⟩
      simp only [List.map_cons, List.mem_cons, not_or]
      exact ⟨Ne.symm here, (empty isEmpty).2⟩

theorem free_abandonAll (handles : List Handle) (heap : Heap) :
    (handles.foldl abandon heap).free = (handles.map Handle.index).reverse ++ heap.free := by
  induction handles generalizing heap with
  | nil => rfl
  | cons handle handles ih =>
    rw [List.foldl_cons, ih]
    simp [abandon]

theorem live_abandonAll (handles : List Handle) (heap : Heap) : (handles.foldl abandon heap).live = heap.live := by
  induction handles generalizing heap with
  | nil => rfl
  | cons handle handles ih => exact ih _

/-- Each slot that is given back moves on to the next generation, and no other does. -/
theorem entries_abandonAll {handles : List Handle} (distinct : (handles.map fun handle => handle.index.toNat).Nodup)
    (heap : Heap) (place : Nat) :
    (handles.foldl abandon heap).entries[place]? =
      if place ∈ handles.map fun handle => handle.index.toNat then
        heap.entries[place]?.map fun entry => { entry with generation := entry.generation + 1 }
      else heap.entries[place]? := by
  induction handles generalizing heap with
  | nil => simp
  | cons handle handles ih =>
    obtain ⟨once, distinct⟩ := List.nodup_cons.mp distinct
    rw [List.foldl_cons, ih distinct]
    simp only [abandon, Array.getElem?_modify, List.map_cons, List.mem_cons]
    by_cases here : handle.index.toNat = place
    · subst here
      simp [once]
    · simp [here, Ne.symm here]

theorem freed_nodup (heap : Heap) (roots : List Handle) : (heap.freed roots).Nodup :=
  (heap.garbage_increasing _).imp Nat.ne_of_lt

theorem mem_freed {roots : List Handle} {place : Nat} (member : place ∈ heap.freed roots) :
    ∃ slot, heap.slotAt? place = some slot :=
  (mem_garbage.mp member).1

/-- Each slot that is freed is emptied under the next generation, and no other is touched. -/
theorem entries_collect (heap : Heap) (roots : List Handle) (place : Nat) :
    (heap.collect roots).2.entries[place]? =
      if place ∈ heap.freed roots then heap.entries[place]?.map fun entry => ⟨entry.generation + 1, none⟩
      else heap.entries[place]? := by
  rw [collect_eq]
  exact heap.entries_freeSlots (heap.freed_nodup roots) place

theorem free_collect (heap : Heap) (roots : List Handle) :
    (heap.collect roots).2.free = ((heap.freed roots).map UInt32.ofNat).reverse ++ heap.free := by
  rw [collect_eq]
  exact heap.free_freeSlots _

theorem live_collect (heap : Heap) (roots : List Handle) :
    (heap.collect roots).2.live = UInt64.ofNat (heap.liveSlots - (heap.freed roots).length) := by
  rw [collect_eq]
  rfl

theorem reserve_live {after : Heap} (granted : reserve count heap = .ok () after) :
    after.entries = heap.entries ∧ after.free = heap.free ∧ after.live = heap.live + count := by
  unfold reserve at granted
  split at granted
  · split at granted
    · cases granted
    · cases granted
      exact ⟨rfl, rfl, rfl⟩
  · cases granted
    exact ⟨rfl, rfl, rfl⟩

/-- A group is opened by taking as many slots as were counted. -/
theorem openGroup_eq_ok {after : Heap} (opened : openGroup count heap = .ok handles after) :
    ∃ counted : Heap, counted.entries = heap.entries ∧ counted.free = heap.free ∧ counted.live = heap.live + count ∧
      takeSlots count.toNat [] counted = (handles, after) := by
  cases granted : reserve count heap with
  | ok _ counted =>
    obtain ⟨entries, free, live⟩ := reserve_live granted
    have ended : openGroup count heap =
        .ok (takeSlots count.toNat [] counted).1 (takeSlots count.toNat [] counted).2 := bind_ok granted
    cases opened.symm.trans ended
    exact ⟨counted, entries, free, live, rfl⟩
  | error fault refused =>
    have ended : openGroup count heap = .error fault refused := bind_error granted
    cases opened.symm.trans ended

theorem alloc_eq_group {node : Node} {after : Heap} (allocated : alloc node heap = .ok handle after) :
    ∃ opened, openGroup 1 heap = .ok [handle] opened ∧ closeGroup 1 [handle] [node] opened = .ok () after := by
  cases granted : reserve 1 heap with
  | ok _ counted =>
    have ended : alloc node heap = .ok counted.takeSlot.1 (counted.takeSlot.2.fill counted.takeSlot.1 node) :=
      bind_ok granted
    cases allocated.symm.trans ended
    exact ⟨counted.takeSlot.2, bind_ok granted, rfl⟩
  | error fault refused =>
    have ended : alloc node heap = .error fault refused := bind_error granted
    cases allocated.symm.trans ended

theorem closeGroup_eq_ok {after : Heap} (filled : closeGroup count handles nodes heap = .ok () after) :
    nodes.length = count.toNat ∧
      after = (handles.zip nodes).foldl (fun heap (handle, node) => heap.fill handle node) heap := by
  unfold closeGroup at filled
  split at filled
  · rename_i exactly
    cases filled
    exact ⟨exactly, rfl⟩
  · cases filled

theorem closeGroup_eq_error {after : Heap} {fault : Fault} (refused : closeGroup count handles nodes heap = .error fault after) :
    after = (handles.foldl abandon heap).unreserve count := by
  unfold closeGroup at refused
  split at refused
  · cases refused
  · cases refused
    rfl

theorem transition_rewrites {change : Slot → Option Slot} {after : Heap}
    (written : transition handle change heap = .ok true after) :
    ∃ old new, heap.Rewrites after handle old new ∧ after.live = heap.live := by
  unfold transition at written
  split at written
  · cases written
  · rename_i old found
    split at written
    · rename_i new _
      cases written
      exact ⟨old, new, put_rewrites found rfl rfl, rfl⟩
    · cases written

/-- A write keeps every generation, and leaves empty what is empty. -/
theorem Rewrites.entry {old new : Slot} (rewrites : before.Rewrites after handle old new) {place : Nat} {entry : Entry}
    (present : after.entries[place]? = some entry) :
    ∃ old, before.entries[place]? = some old ∧ old.generation = entry.generation ∧
      (entry.slot = none → old.slot = none) := by
  by_cases here : place = handle.index.toNat
  · subst here
    have written := lookup_eq_ok.mp ((rewrites.lookup handle).trans (if_pos rfl))
    cases present.symm.trans written
    exact ⟨_, lookup_eq_ok.mp rewrites.found, rfl, nofun⟩
  · exact ⟨entry, (rewrites.entries place here).symm.trans present, rfl, id⟩

/-! ### Heaps of given nodes -/

-- The nodes are allocated one after the other, without a node limit.
def ofNodes (nodes : List Node) : Heap :=
  nodes.foldl (fun heap node => (alloc node heap).state) (.ofSettings {})

theorem ofNodes_induct {holds : Heap → Prop} (empty : holds (.ofSettings {}))
    (allocated : ∀ node heap, holds heap → holds (alloc node heap).state) (nodes : List Node) : holds (ofNodes nodes) := by
  have onward : ∀ (nodes : List Node) (heap : Heap), holds heap →
      holds (nodes.foldl (fun heap node => (alloc node heap).state) heap) := by
    intro nodes
    induction nodes with
    | nil => exact fun _ held => held
    | cons node nodes ih => exact fun heap held => ih _ (allocated node heap held)
  exact onward nodes _ empty

theorem ofNodes_throughout {holds : Slot → Prop} (born : ∀ node, holds (.ofNode node)) (nodes : List Node) :
    (ofNodes nodes).Throughout holds := by
  refine ofNodes_induct (fun index slot found => ?_) (alloc_preserves born) nodes
  simp [slotAt?, ofSettings] at found

theorem ofNodes_regular (nodes : List Node) (fits : (ofNodes nodes).Addressable) : (ofNodes nodes).Regular := by
  have empty : (ofSettings {}).Regular := ⟨⟨nofun, .nil⟩, fun found => by cases found⟩
  have advances : Advances (.ofSettings {}) (ofNodes nodes) :=
    ofNodes_induct (Advances.refl _) (fun node heap early => early.trans (alloc_advances node heap)) nodes
  exact (advances.settles fits empty).regular empty

end LazyGraph.Heap

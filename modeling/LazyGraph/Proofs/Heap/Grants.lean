import LazyGraph.Proofs.Heap.Slots

/-! Handles that allocation may still hand out.

A heap offers the handles of its free slots, of the generation these have now, and those
beyond its last slot. Allocation hands out what was on offer and offers it no more, so a
handle that is not on offer will never name a new node. -/

set_option autoImplicit false

namespace LazyGraph.Heap

variable {before after heap opened : Heap} {handle : Handle} {handles : List Handle} {nodes : List Node}
  {node : Node} {count : UInt64}

def Offers (heap : Heap) (handle : Handle) : Prop :=
  heap.capacity ≤ handle.index.toNat ∨
    handle.index ∈ heap.free ∧ ∃ content, heap.entries[handle.index.toNat]? = some ⟨handle.generation, content⟩

-- The handles come from what was on offer, and what is still on offer was so before.
structure Grants (before after : Heap) (handles : List Handle) : Prop where
  offered : ∀ handle ∈ handles, before.Offers handle
  taken : ∀ handle ∈ handles, ¬ after.Offers handle
  mono : ∀ handle, after.Offers handle → before.Offers handle

theorem Offers.of_entries (offers : after.Offers handle) (entries : after.entries = before.entries)
    (free : after.free = before.free) : before.Offers handle := by
  unfold Offers capacity at offers ⊢
  rwa [entries, free] at offers

/-- A change that keeps the free list and the generations offers nothing new. -/
theorem Offers.of_generations (offers : after.Offers handle) (capacity : after.capacity = before.capacity)
    (free : after.free = before.free)
    (generations : ∀ {place : Nat} {entry : Entry}, after.entries[place]? = some entry →
      ∃ old, before.entries[place]? = some old ∧ old.generation = entry.generation) : before.Offers handle := by
  rcases offers with beyond | ⟨listed, content, present⟩
  · exact .inl (capacity ▸ beyond)
  · obtain ⟨⟨generation, content'⟩, found, same⟩ := generations present
    refine .inr ⟨free ▸ listed, content', ?_⟩
    rw [found]
    exact congrArg (fun generation => some (Entry.mk generation content')) same

theorem Rewrites.offers {old new : Slot} (rewrites : before.Rewrites after handle old new) {other : Handle}
    (offers : after.Offers other) : before.Offers other :=
  offers.of_generations rewrites.capacity rewrites.free fun present => by
    obtain ⟨entry, found, generation, _⟩ := rewrites.entry present
    exact ⟨entry, found, generation⟩

theorem transition_offers {change : Slot → Option Slot} {other : Handle}
    (offers : (transition handle change heap).state.Offers other) : heap.Offers other := by
  unfold transition at offers
  split at offers
  · exact offers
  · rename_i slot found
    split at offers
    · exact (put_rewrites found rfl rfl : heap.Rewrites _ handle slot _).offers offers
    · exact offers

theorem takeSlot_grants (sound : heap.FreeListSound) (fits : heap.takeSlot.2.Addressable) :
    Grants heap heap.takeSlot.2 [heap.takeSlot.1] := by
  unfold takeSlot at fits ⊢
  split
  · rename_i index free listed
    obtain ⟨generation, empty⟩ := sound.empty index (by simp [listed])
    have bound : index.toNat < heap.capacity := (Array.getElem?_eq_some_iff.mp empty).1
    have distinct := sound.distinct
    rw [listed, List.nodup_cons] at distinct
    refine ⟨List.forall_mem_singleton.mpr ?_, List.forall_mem_singleton.mpr ?_, ?_⟩
    · exact .inr ⟨by simp [listed], none, by simp [empty]⟩
    · rintro (beyond | ⟨again, _⟩)
      · exact absurd bound (Nat.not_lt_of_le beyond)
      · exact distinct.1 again
    · rintro other (beyond | ⟨again, present⟩)
      · exact .inl beyond
      · exact .inr ⟨by simp [listed, show other.index ∈ free from again], present⟩
  · rename_i listed
    have short : heap.capacity + 1 ≤ UInt32.size := by simpa [Addressable, capacity, listed] using fits
    have index : (UInt32.ofNat heap.capacity).toNat = heap.capacity := UInt32.toNat_ofNat_of_lt' short
    refine ⟨List.forall_mem_singleton.mpr (.inl (Nat.le_of_eq index.symm)), List.forall_mem_singleton.mpr ?_, ?_⟩
    · rintro (beyond | ⟨again, _⟩)
      · have beyond : heap.capacity + 1 ≤ (UInt32.ofNat heap.capacity).toNat := by simpa [capacity] using beyond
        omega
      · simp [listed] at again
    · rintro other (beyond | ⟨again, _⟩)
      · have beyond : heap.capacity + 1 ≤ other.index.toNat := by simpa [capacity] using beyond
        exact .inl (Nat.le_of_succ_le beyond)
      · simp [listed] at again

theorem takeSlots_grants (taken : Nat) {reversed : List Handle} (sound : heap.FreeListSound)
    (reserved : heap.Reserved reversed) (fits : (takeSlots taken reversed heap).2.Addressable) :
    ∃ granted, (takeSlots taken reversed heap).1 = reversed.reverse ++ granted ∧
      Grants heap (takeSlots taken reversed heap).2 granted := by
  induction taken generalizing reversed heap with
  | zero => exact ⟨[], by simp [takeSlots], nofun, nofun, fun _ => id⟩
  | succ taken ih =>
    have early : heap.takeSlot.2.Addressable := fits.mono (capacity_takeSlots taken _ _)
    obtain ⟨sound', reserved', _⟩ := takeSlot_reserved sound reserved early
    have first := takeSlot_grants sound early
    obtain ⟨granted, same, rest⟩ := ih sound' reserved' fits
    refine ⟨heap.takeSlot.1 :: granted, by simp [takeSlots, same], ?_, ?_, fun other => first.mono other ∘ rest.mono other⟩
    · refine List.forall_mem_cons.mpr ⟨first.offered _ (.head _), fun other member => ?_⟩
      exact first.mono other (rest.offered other member)
    · exact List.forall_mem_cons.mpr ⟨fun again => first.taken _ (.head _) (rest.mono _ again), rest.taken⟩

theorem openGroup_grants (sound : heap.FreeListSound) (opens : openGroup count heap = .ok handles opened)
    (fits : opened.Addressable) : Grants heap opened handles := by
  obtain ⟨counted, entries, free, _, taken⟩ := openGroup_eq_ok opens
  have fits' : (takeSlots count.toNat [] counted).2.Addressable := by rwa [taken]
  obtain ⟨granted, same, grants⟩ := takeSlots_grants count.toNat (sound.of_entries entries free) (.nil counted) fits'
  rw [taken] at same grants
  obtain rfl : handles = granted := by simpa using same
  refine ⟨fun handle member => ?_, grants.taken, fun handle offers => ?_⟩
  · exact (grants.offered handle member).of_entries entries free
  · exact (grants.mono handle offers).of_entries entries free

theorem closeGroup_offers (closes : closeGroup count handles nodes opened = .ok () after) (offers : after.Offers handle) :
    opened.Offers handle := by
  obtain ⟨_, closed⟩ := closeGroup_eq_ok closes
  rw [closed] at offers
  refine offers.of_generations (capacity_fillAll _ opened) (free_fillAll _ opened) fun present => ?_
  obtain ⟨entry, found, generation, _⟩ := entries_fillAll _ opened present
  exact ⟨entry, found, generation⟩

theorem group_grants (sound : heap.FreeListSound) (opens : openGroup count heap = .ok handles opened)
    (closes : closeGroup count handles nodes opened = .ok () after) (fits : after.Addressable) :
    Grants heap after handles := by
  have capacity : after.capacity = opened.capacity := by
    obtain ⟨_, closed⟩ := closeGroup_eq_ok closes
    rw [closed]
    exact capacity_fillAll _ opened
  have grants := openGroup_grants sound opens (fits.mono (Nat.le_of_eq capacity.symm))
  refine ⟨grants.offered, fun handle member offers => ?_, fun handle offers => ?_⟩
  · exact grants.taken handle member (closeGroup_offers closes offers)
  · exact grants.mono handle (closeGroup_offers closes offers)

theorem Reserved.unoffered (reserved : heap.Reserved handles) (member : handle ∈ handles) : ¬ heap.Offers handle := by
  rintro (beyond | ⟨listed, _⟩)
  · have bound : handle.index.toNat < heap.capacity := (Array.getElem?_eq_some_iff.mp (reserved.vacant handle member)).1
    omega
  · exact reserved.unlisted handle member listed

theorem alloc_grants (sound : heap.FreeListSound) (allocated : alloc node heap = .ok handle after)
    (fits : after.Addressable) : Grants heap after [handle] := by
  obtain ⟨opened, opens, closes⟩ := alloc_eq_group allocated
  exact group_grants sound opens closes fits

theorem Reserved.nodup (reserved : heap.Reserved handles) : handles.Nodup :=
  (List.pairwise_map.mp reserved.distinct).imp fun apart same => apart (congrArg Handle.index same)

structure Brings (before after : Heap) (count : UInt64) (handles : List Handle) (nodes : List Node) : Prop where
  length : handles.length = count.toNat
  exactly : nodes.length = count.toNat
  distinct : handles.Nodup
  free : after.FreeListSound
  gains : Gains before after (handles.zip nodes)
  grants : Grants before after handles

theorem allocGroup_brings {build : List Handle → List Node} (sound : heap.FreeListSound)
    (allocated : allocGroup count (fun handles heap => (build handles, heap)) heap = .ok handles after)
    (nonempty : count ≠ 0) (fits : after.Addressable) : Brings heap after count handles (build handles) := by
  unfold allocGroup at allocated
  rw [if_neg nonempty] at allocated
  rcases openGroup_cases count heap with ⟨taken, opened, opens, length, enlarges⟩ | ⟨limit, refused⟩
  · have built : (modifyGet fun heap : Heap => (build taken, heap) : HeapM (List Node)) opened =
        .ok (build taken) opened := rfl
    rw [bind_ok opens, bind_ok built] at allocated
    rcases closeGroup_cases length (build taken) opened with ⟨filled, exactly, closes, closing⟩ | ⟨dropped, _, refused, _⟩
    · rw [bind_ok closes] at allocated
      cases allocated
      obtain ⟨free, gains⟩ := (enlarges.trans closing).result fits sound
      obtain ⟨_, reserved, _⟩ := enlarges.gains (fits.mono closing.grows) sound (.nil heap)
      rw [List.append_nil] at reserved
      exact ⟨length, exactly, reserved.nodup, free, gains, group_grants sound opens closes fits⟩
    · rw [bind_error refused] at allocated
      cases allocated
  · rw [bind_error refused] at allocated
    cases allocated

end LazyGraph.Heap

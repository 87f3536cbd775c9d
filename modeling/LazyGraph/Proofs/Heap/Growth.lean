import LazyGraph.Proofs.Heap.Drift

/-! What allocation adds to a heap, exactly.

Slots that are taken cannot be read until they are filled, and then read as what they
were filled with. All other handles read as before, and slots that somebody else has
reserved meanwhile stay reserved. -/

set_option autoImplicit false

namespace LazyGraph

-- The law that forbids nothing.
def SlotLaw.any : SlotLaw where
  allowed _ _ := True
  born _ := True
  refl _ := trivial
  trans _ _ := trivial
  retarget _ _ _ := trivial
  born_ofNode _ := trivial
  born_allowed _ _ := trivial

namespace Heap

/-- The heap reads as before, and the new handles, which named nothing, read as their nodes. -/
structure Gains (before after : Heap) (added : List (Handle × Node)) : Prop where
  kept : ∀ {handle slot}, before.lookup handle = .ok slot → after.lookup handle = .ok slot
  fresh : ∀ {handle slot}, after.lookup handle = .ok slot →
    before.lookup handle = .ok slot ∨ ∃ node, (handle, node) ∈ added ∧ slot = .ofNode node
  filled : ∀ {handle node}, (handle, node) ∈ added → after.lookup handle = .ok (.ofNode node)
  dead : ∀ {handle node}, (handle, node) ∈ added → ∀ slot, before.lookup handle ≠ .ok slot

variable {before middle after heap : Heap} {handle : Handle} {node : Node} {handles others rest : List Handle}
  {nodes : List Node} {count : UInt64} {fault : Fault}

theorem Gains.of_same (same : ∀ handle slot, after.lookup handle = .ok slot ↔ before.lookup handle = .ok slot) :
    Gains before after [] where
  kept := (same _ _).mpr
  fresh := fun found => .inl ((same _ _).mp found)
  filled := nofun
  dead := nofun

theorem Gains.trans {early late : List (Handle × Node)} (first : Gains before middle early)
    (second : Gains middle after late) : Gains before after (early ++ late) where
  kept := fun found => second.kept (first.kept found)
  fresh := by
    intro handle slot found
    rcases second.fresh found with found | ⟨node, member, same⟩
    · rcases first.fresh found with found | ⟨node, member, same⟩
      · exact .inl found
      · exact .inr ⟨node, List.mem_append_left _ member, same⟩
    · exact .inr ⟨node, List.mem_append_right _ member, same⟩
  filled := by
    intro handle node member
    rcases List.mem_append.mp member with member | member
    · exact second.kept (first.filled member)
    · exact second.filled member
  dead := by
    intro handle node member slot found
    rcases List.mem_append.mp member with member | member
    · exact first.dead member slot found
    · exact second.dead member slot (first.kept found)

/-! ### Reserved slots -/

theorem Reserved.perm (reserved : heap.Reserved handles) (perm : handles.Perm others) : heap.Reserved others where
  vacant := fun handle member => reserved.vacant handle (perm.mem_iff.mpr member)
  unlisted := fun handle member => reserved.unlisted handle (perm.mem_iff.mpr member)
  distinct := (perm.map Handle.index).nodup_iff.mp reserved.distinct

theorem Reserved.of_entries (reserved : before.Reserved handles) (entries : after.entries = before.entries)
    (free : after.free = before.free) : after.Reserved handles where
  vacant := entries ▸ reserved.vacant
  unlisted := free ▸ reserved.unlisted
  distinct := reserved.distinct

theorem Reserved.rewrites {old new : Slot} (reserved : before.Reserved handles)
    (rewrites : before.Rewrites after handle old new) : after.Reserved handles where
  vacant := by
    intro other member
    have vacant := reserved.vacant other member
    have apart : other.index.toNat ≠ handle.index.toNat := by
      intro same
      have present := lookup_eq_ok.mp rewrites.found
      rw [← same, vacant] at present
      simp at present
    rw [rewrites.entries _ apart, vacant]
  unlisted := rewrites.free ▸ reserved.unlisted
  distinct := reserved.distinct

theorem FreeListSound.of_entries (sound : before.FreeListSound) (entries : after.entries = before.entries)
    (free : after.free = before.free) : after.FreeListSound where
  empty := by simpa [entries, free] using sound.empty
  distinct := free ▸ sound.distinct

theorem takeSlots_apart (taken : Nat) {reversed : List Handle} (sound : heap.FreeListSound)
    (reserved : heap.Reserved (reversed ++ others)) (fits : (takeSlots taken reversed heap).2.Addressable) :
    (takeSlots taken reversed heap).2.FreeListSound ∧
      (takeSlots taken reversed heap).2.Reserved ((takeSlots taken reversed heap).1 ++ others) ∧
      ∀ handle slot, (takeSlots taken reversed heap).2.lookup handle = .ok slot ↔ heap.lookup handle = .ok slot := by
  induction taken generalizing reversed heap with
  | zero =>
    have reordered : (reversed ++ others).Perm (reversed.reverse ++ others) :=
      (List.reverse_perm reversed).symm.append_right others
    exact ⟨sound, reserved.perm reordered, fun _ _ => Iff.rfl⟩
  | succ taken ih =>
    have early : heap.takeSlot.2.Addressable := fits.mono (capacity_takeSlots taken _ _)
    obtain ⟨sound', reserved', same⟩ := takeSlot_reserved sound reserved early
    obtain ⟨sound'', reserved'', same'⟩ := ih sound' reserved' fits
    exact ⟨sound'', reserved'', fun handle slot => (same' handle slot).trans (same handle slot)⟩

theorem length_takeSlots (taken : Nat) (reversed : List Handle) (heap : Heap) :
    (takeSlots taken reversed heap).1.length = taken + reversed.length := by
  induction taken generalizing reversed heap with
  | zero => simp [takeSlots]
  | succ taken ih =>
    rw [takeSlots, ih, List.length_cons]
    omega

theorem lookup_fill (vacant : heap.entries[handle.index.toNat]? = some ⟨handle.generation, none⟩) (node : Node)
    (other : Handle) :
    (heap.fill handle node).lookup other = if other = handle then .ok (.ofNode node) else heap.lookup other := by
  by_cases same : other = handle
  · subst same
    rw [if_pos rfl]
    exact lookup_put_self vacant
  · rw [if_neg same]
    by_cases index : other.index.toNat = handle.index.toNat
    · -- the index is shared, so the other handle is stale before and after
      have generation : ¬ handle.generation = other.generation := by
        intro generation
        apply same
        obtain ⟨leftIndex, leftGeneration⟩ := other
        obtain ⟨rightIndex, rightGeneration⟩ := handle
        have sameIndex : leftIndex = rightIndex := UInt32.toNat_inj.mp index
        rw [sameIndex]
        exact congrArg _ generation.symm
      simp [lookup, fill, entries_put, index, vacant, generation]
    · exact lookup_put_ne index

theorem fill_gains (node : Node) (reserved : heap.Reserved (handle :: rest)) :
    Gains heap (heap.fill handle node) [(handle, node)] := by
  have vacant := reserved.vacant handle (.head _)
  have dead : ∀ slot, heap.lookup handle ≠ .ok slot := by
    intro slot found
    rw [lookup_eq_ok, vacant] at found
    simp at found
  constructor
  · intro other slot found
    have apart : other ≠ handle := by
      rintro rfl
      exact dead slot found
    rw [lookup_fill vacant, if_neg apart, found]
  · intro other slot found
    rw [lookup_fill vacant] at found
    split at found
    · rename_i same
      cases found
      exact .inr ⟨node, by simp [same], rfl⟩
    · exact .inl found
  · intro other node' member
    obtain ⟨rfl, rfl⟩ := Prod.mk.inj (List.mem_singleton.mp member)
    rw [lookup_fill vacant, if_pos rfl]
  · intro other node' member
    obtain ⟨rfl, rfl⟩ := Prod.mk.inj (List.mem_singleton.mp member)
    exact dead

theorem fillAll_gains (sound : heap.FreeListSound) (reserved : heap.Reserved (handles ++ others))
    (fits : handles.length = nodes.length) :
    let filled := (handles.zip nodes).foldl (fun heap (handle, node) => heap.fill handle node) heap
    filled.FreeListSound ∧ Gains heap filled (handles.zip nodes) ∧ filled.Reserved others := by
  induction handles generalizing heap nodes with
  | nil => exact ⟨sound, .of_same fun _ _ => Iff.rfl, reserved⟩
  | cons handle handles ih =>
    cases nodes with
    | nil => cases fits
    | cons node nodes =>
      have ⟨(kept : Kept .any heap (heap.fill handle node)), reserved'⟩ := fill_reserved sound reserved
      obtain ⟨sound'', gains, reserved''⟩ := ih kept.free reserved' (Nat.succ.inj fits)
      exact ⟨sound'', (fill_gains node reserved).trans gains, reserved''⟩

theorem lookup_abandon (vacant : heap.entries[handle.index.toNat]? = some ⟨handle.generation, none⟩)
    (other : Handle) (slot : Slot) : (heap.abandon handle).lookup other = .ok slot ↔ heap.lookup other = .ok slot := by
  rw [lookup_eq_ok, lookup_eq_ok, abandon, Array.getElem?_modify]
  split
  · rename_i same
    simp [← same, vacant]
  · rfl

theorem abandonAll_apart (sound : heap.FreeListSound) (reserved : heap.Reserved (handles ++ others)) :
    (handles.foldl abandon heap).FreeListSound ∧ (handles.foldl abandon heap).Reserved others ∧
      ∀ handle slot, (handles.foldl abandon heap).lookup handle = .ok slot ↔ heap.lookup handle = .ok slot := by
  induction handles generalizing heap with
  | nil => exact ⟨sound, reserved, fun _ _ => Iff.rfl⟩
  | cons handle handles ih =>
    have ⟨(kept : Kept .any heap (heap.abandon handle)), reserved'⟩ := abandon_reserved sound reserved
    obtain ⟨sound'', reserved'', same⟩ := ih kept.free reserved'
    have here := lookup_abandon (reserved.vacant handle (.head _))
    exact ⟨sound'', reserved'', fun other slot => (same other slot).trans (here other slot)⟩

/-! ### Operations that add nodes -/

/-- Nodes are added, with slots reserved before in `taken` and after in `left`; what others
have reserved stays so. -/
structure Enlarges (taken left : List Handle) (added : List (Handle × Node)) (before after : Heap) : Prop where
  grows : before.capacity ≤ after.capacity
  waits : after.waits = before.waits
  registry : after.nextActor = before.nextActor
  gains : ∀ {others}, after.Addressable → before.FreeListSound → before.Reserved (taken ++ others) →
    after.FreeListSound ∧ after.Reserved (left ++ others) ∧ Gains before after added

variable {taken between left : List Handle} {early late added : List (Handle × Node)}

theorem Enlarges.trans (first : Enlarges taken between early before middle)
    (second : Enlarges between left late middle after) : Enlarges taken left (early ++ late) before after where
  grows := Nat.le_trans first.grows second.grows
  waits := second.waits.trans first.waits
  registry := second.registry.trans first.registry
  gains := by
    intro others fits sound reserved
    obtain ⟨sound', reserved', gains⟩ := first.gains (fits.mono second.grows) sound reserved
    obtain ⟨sound'', reserved'', gains'⟩ := second.gains fits sound' reserved'
    exact ⟨sound'', reserved'', gains.trans gains'⟩

theorem Enlarges.of_entries (taken : List Handle) (entries : after.entries = before.entries)
    (free : after.free = before.free) (waits : after.waits = before.waits)
    (registry : after.nextActor = before.nextActor) : Enlarges taken taken [] before after where
  grows := by simp [capacity, entries]
  waits := waits
  registry := registry
  gains := by
    intro others _ sound reserved
    refine ⟨sound.of_entries entries free, reserved.of_entries entries free, .of_same fun handle slot => ?_⟩
    rw [lookup_congr entries]

/-- Without a reservation of its own an operation leaves all reservations alone. -/
theorem Enlarges.result (enlarges : Enlarges [] [] added before after) (fits : after.Addressable)
    (sound : before.FreeListSound) : after.FreeListSound ∧ Gains before after added := by
  obtain ⟨sound', _, gains⟩ := enlarges.gains fits sound (.nil before)
  exact ⟨sound', gains⟩

theorem reserve_cases (count : UInt64) (heap : Heap) :
    (∃ after, reserve count heap = .ok () after ∧ Enlarges taken taken [] heap after) ∨
      ∃ limit, reserve count heap = .error (.exhausted (.heap limit)) heap := by
  unfold reserve
  split
  · split
    · exact .inr ⟨_, rfl⟩
    · exact .inl ⟨_, rfl, .of_entries taken rfl rfl rfl rfl⟩
  · exact .inl ⟨_, rfl, .of_entries taken rfl rfl rfl rfl⟩

theorem waits_takeSlot (heap : Heap) : heap.takeSlot.2.waits = heap.waits := by
  unfold takeSlot
  split <;> rfl

theorem waits_takeSlots (count : Nat) (reversed : List Handle) (heap : Heap) :
    (takeSlots count reversed heap).2.waits = heap.waits := by
  induction count generalizing reversed heap with
  | zero => rfl
  | succ count ih => exact (ih _ _).trans (waits_takeSlot heap)

theorem nextActor_takeSlots (count : Nat) (reversed : List Handle) (heap : Heap) :
    (takeSlots count reversed heap).2.nextActor = heap.nextActor := by
  induction count generalizing reversed heap with
  | zero => rfl
  | succ count ih =>
    have first : heap.takeSlot.2.nextActor = heap.nextActor := by
      unfold takeSlot
      split <;> rfl
    exact (ih _ heap.takeSlot.2).trans first

theorem maxNodes_takeSlots (count : Nat) (reversed : List Handle) (heap : Heap) :
    (takeSlots count reversed heap).2.maxNodes = heap.maxNodes := by
  induction count generalizing reversed heap with
  | zero => rfl
  | succ count ih =>
    have first : heap.takeSlot.2.maxNodes = heap.maxNodes := by
      unfold takeSlot
      split <;> rfl
    exact (ih _ heap.takeSlot.2).trans first

theorem takeSlots_enlarges (count : Nat) (heap : Heap) :
    Enlarges [] (takeSlots count [] heap).1 [] heap (takeSlots count [] heap).2 where
  grows := capacity_takeSlots count [] heap
  waits := waits_takeSlots count [] heap
  registry := nextActor_takeSlots count [] heap
  gains := by
    intro others fits sound reserved
    obtain ⟨sound', reserved', same⟩ := takeSlots_apart count sound reserved fits
    exact ⟨sound', reserved', .of_same same⟩

theorem waits_fillAll (pairs : List (Handle × Node)) (heap : Heap) :
    (pairs.foldl (fun heap (handle, node) => heap.fill handle node) heap).waits = heap.waits := by
  induction pairs generalizing heap with
  | nil => rfl
  | cons pair pairs ih => exact ih _

theorem waits_abandonAll (handles : List Handle) (heap : Heap) : (handles.foldl abandon heap).waits = heap.waits := by
  induction handles generalizing heap with
  | nil => rfl
  | cons handle handles ih => exact ih _

theorem nextActor_fillAll (pairs : List (Handle × Node)) (heap : Heap) :
    (pairs.foldl (fun heap (handle, node) => heap.fill handle node) heap).nextActor = heap.nextActor := by
  induction pairs generalizing heap with
  | nil => rfl
  | cons pair pairs ih => exact ih _

theorem nextActor_abandonAll (handles : List Handle) (heap : Heap) :
    (handles.foldl abandon heap).nextActor = heap.nextActor := by
  induction handles generalizing heap with
  | nil => rfl
  | cons handle handles ih => exact ih _

theorem maxNodes_fillAll (pairs : List (Handle × Node)) (heap : Heap) :
    (pairs.foldl (fun heap (handle, node) => heap.fill handle node) heap).maxNodes = heap.maxNodes := by
  induction pairs generalizing heap with
  | nil => rfl
  | cons pair pairs ih => exact ih _

theorem maxNodes_abandonAll (handles : List Handle) (heap : Heap) :
    (handles.foldl abandon heap).maxNodes = heap.maxNodes := by
  induction handles generalizing heap with
  | nil => rfl
  | cons handle handles ih => exact ih _

theorem fillAll_enlarges (fits : handles.length = nodes.length) (heap : Heap) :
    Enlarges handles [] (handles.zip nodes) heap
      ((handles.zip nodes).foldl (fun heap (handle, node) => heap.fill handle node) heap) where
  grows := Nat.le_of_eq (capacity_fillAll _ heap).symm
  waits := waits_fillAll _ heap
  registry := nextActor_fillAll _ heap
  gains := by
    intro others _ sound reserved
    obtain ⟨sound', gains, reserved'⟩ := fillAll_gains sound reserved fits
    exact ⟨sound', reserved', gains⟩

theorem alloc_cases (node : Node) (heap : Heap) :
    (∃ handle after, alloc node heap = .ok handle after ∧ Enlarges [] [] [(handle, node)] heap after) ∨
      ∃ limit, alloc node heap = .error (.exhausted (.heap limit)) heap := by
  rcases reserve_cases 1 heap with ⟨counted, granted, enlarges⟩ | ⟨limit, refused⟩
  · refine .inl ⟨_, _, bind_ok granted, ?_⟩
    have filled : Enlarges [counted.takeSlot.1] [] [(counted.takeSlot.1, node)] counted.takeSlot.2
        (counted.takeSlot.2.fill counted.takeSlot.1 node) :=
      @fillAll_enlarges [counted.takeSlot.1] [node] rfl counted.takeSlot.2
    exact enlarges.trans ((takeSlots_enlarges 1 counted).trans filled)
  · exact .inr ⟨limit, bind_error refused⟩

theorem openGroup_cases (count : UInt64) (heap : Heap) :
    (∃ handles opened, openGroup count heap = .ok handles opened ∧ handles.length = count.toNat ∧
        Enlarges [] handles [] heap opened) ∨
      ∃ limit, openGroup count heap = .error (.exhausted (.heap limit)) heap := by
  rcases reserve_cases count heap with ⟨counted, granted, enlarges⟩ | ⟨limit, refused⟩
  · refine .inl ⟨_, _, bind_ok granted, ?_, enlarges.trans (takeSlots_enlarges count.toNat counted)⟩
    exact length_takeSlots count.toNat [] counted
  · exact .inr ⟨limit, bind_error refused⟩

theorem closeGroup_cases (fits : handles.length = count.toNat) (nodes : List Node) (heap : Heap) :
    (∃ after, nodes.length = count.toNat ∧ closeGroup count handles nodes heap = .ok () after ∧
        Enlarges handles [] (handles.zip nodes) heap after) ∨
      ∃ after, nodes.length ≠ count.toNat ∧
        closeGroup count handles nodes heap = .error (.malformed (.groupSize nodes.length count)) after ∧
        Enlarges handles [] [] heap after := by
  unfold closeGroup
  split
  · rename_i exact'
    exact .inl ⟨_, exact', rfl, fillAll_enlarges (fits.trans exact'.symm) heap⟩
  · rename_i other
    refine .inr ⟨_, other, rfl, Nat.le_of_eq (capacity_abandonAll handles heap).symm, waits_abandonAll handles heap,
      nextActor_abandonAll handles heap, ?_⟩
    intro others _ sound reserved
    obtain ⟨sound', reserved', same⟩ := abandonAll_apart sound reserved
    exact ⟨sound'.of_entries rfl rfl, reserved'.of_entries rfl rfl, .of_same same⟩

/-- How a group is allocated: its slots are reserved, the nodes are built, which may use the
heap, and the slots are filled or given back. -/
theorem allocGroup_cases (count : UInt64) (build : List Handle → Heap → List Node × Heap) (heap : Heap) :
    (count = 0 ∧ allocGroup count build heap = .ok [] heap) ∨
    (∃ limit, allocGroup count build heap = .error (.exhausted (.heap limit)) heap) ∨
    ∃ handles opened, handles.length = count.toNat ∧ Enlarges [] handles [] heap opened ∧
      ((∃ after, (build handles opened).1.length = count.toNat ∧ allocGroup count build heap = .ok handles after ∧
          Enlarges handles [] (handles.zip (build handles opened).1) (build handles opened).2 after) ∨
        ∃ fault after, (build handles opened).1.length ≠ count.toNat ∧
          allocGroup count build heap = .error fault after ∧
          Enlarges handles [] [] (build handles opened).2 after) := by
  unfold allocGroup
  split
  · rename_i none
    exact .inl ⟨none, rfl⟩
  · rcases openGroup_cases count heap with ⟨handles, opened, granted, length, enlarges⟩ | ⟨limit, refused⟩
    · refine .inr (.inr ⟨handles, opened, length, enlarges, ?_⟩)
      have built : (modifyGet (build handles) : HeapM (List Node)) opened =
          .ok (build handles opened).1 (build handles opened).2 := rfl
      rw [bind_ok granted, bind_ok built]
      rcases closeGroup_cases length (build handles opened).1 (build handles opened).2 with
        ⟨after, exactly, closed, filled⟩ | ⟨after, other, closed, dropped⟩
      · rw [bind_ok closed]
        exact .inl ⟨after, exactly, rfl, filled⟩
      · rw [bind_error closed]
        exact .inr ⟨_, after, other, rfl, dropped⟩
    · exact .inr (.inl ⟨limit, bind_error refused⟩)

/-- A group whose nodes are as many as its handles, and are built without the heap. -/
theorem allocGroup_built {build : List Handle → List Node}
    (exactly : ∀ handles, (build handles).length = count.toNat) (heap : Heap) :
    (∃ handles after, handles.length = count.toNat ∧
        allocGroup count (fun handles heap => (build handles, heap)) heap = .ok handles after ∧
        Enlarges [] [] (handles.zip (build handles)) heap after) ∨
      ∃ limit, allocGroup count (fun handles heap => (build handles, heap)) heap =
        .error (.exhausted (.heap limit)) heap := by
  rcases allocGroup_cases count (fun handles heap => (build handles, heap)) heap with
    ⟨rfl, ended⟩ | refused | ⟨handles, opened, length, opens, ended⟩
  · exact .inl ⟨[], heap, rfl, ended, .of_entries [] rfl rfl rfl rfl⟩
  · exact .inr refused
  · rcases ended with ⟨after, _, ended, closes⟩ | ⟨_, _, other, _⟩
    · exact .inl ⟨handles, after, length, ended, opens.trans closes⟩
    · exact absurd (exactly handles) other

end Heap

end LazyGraph

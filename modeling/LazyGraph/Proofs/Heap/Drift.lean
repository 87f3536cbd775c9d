import LazyGraph.Proofs.Heap.Lookup
import LazyGraph.Proofs.Moves

/-! How a heap drifts while nothing in it is claimed, completed or freed.

Allocation fills empty slots, collapsing moves the targets of indirections, and the
rest is bookkeeping. A law says which changes of a live slot are meant, and a drift
under the law keeps every live handle live. Two provisos come with allocation: the
free list names empty slots, each once, and no slot lies beyond the indices that a
handle can hold. -/

set_option autoImplicit false

namespace LazyGraph

structure SlotLaw where
  allowed : Slot → Slot → Prop
  born : Slot → Prop
  refl : ∀ slot, allowed slot slot
  trans : ∀ {first second third}, allowed first second → allowed second third → allowed first third
  retarget : ∀ state old new, allowed ⟨state, .indirection old⟩ ⟨state, .indirection new⟩
  born_ofNode : ∀ node, born (.ofNode node)
  born_allowed : ∀ {slot slot'}, born slot → allowed slot slot' → born slot'

namespace Heap

def Addressable (heap : Heap) : Prop := heap.capacity ≤ UInt32.size

instance (heap : Heap) : Decidable heap.Addressable :=
  inferInstanceAs (Decidable (heap.capacity ≤ UInt32.size))

structure FreeListSound (heap : Heap) : Prop where
  empty : ∀ index ∈ heap.free, ∃ generation, heap.entries[index.toNat]? = some ⟨generation, none⟩
  distinct : heap.free.Nodup

theorem FreeListSound.rewrites {before after : Heap} {node : Handle} {old new : Slot}
    (sound : before.FreeListSound) (rewrites : before.Rewrites after node old new) : after.FreeListSound where
  empty := by
    intro index listed
    rw [rewrites.free] at listed
    obtain ⟨generation, empty⟩ := sound.empty index listed
    refine ⟨generation, ?_⟩
    rw [rewrites.entries, empty]
    intro same
    have present := lookup_eq_ok.mp rewrites.found
    rw [← same, empty] at present
    simp at present
  distinct := rewrites.free ▸ sound.distinct

/-- Live handles stay live and their slots change by the law; what appears obeys it. -/
structure Kept (law : SlotLaw) (before after : Heap) : Prop where
  free : after.FreeListSound
  live : ∀ {handle slot}, before.lookup handle = .ok slot →
    ∃ slot', after.lookup handle = .ok slot' ∧ law.allowed slot slot'
  fresh : ∀ {handle slot}, after.lookup handle = .ok slot →
    (∃ old, before.lookup handle = .ok old) ∨ law.born slot

structure Drift (law : SlotLaw) (before after : Heap) : Prop where
  grows : before.capacity ≤ after.capacity
  kept : after.Addressable → before.FreeListSound → Kept law before after

variable {law : SlotLaw} {before middle after : Heap}

theorem Addressable.mono (fits : after.Addressable) (grows : before.capacity ≤ after.capacity) :
    before.Addressable :=
  Nat.le_trans grows fits

theorem Kept.trans (first : Kept law before middle) (second : Kept law middle after) :
    Kept law before after where
  free := second.free
  live := by
    intro handle slot found
    obtain ⟨next, foundNext, step⟩ := first.live found
    obtain ⟨last, foundLast, step'⟩ := second.live foundNext
    exact ⟨last, foundLast, law.trans step step'⟩
  fresh := by
    intro handle slot found
    rcases second.fresh found with ⟨next, foundNext⟩ | isBorn
    · rcases first.fresh foundNext with old | isBorn
      · exact .inl old
      · obtain ⟨last, foundLast, step⟩ := second.live foundNext
        have same : last = slot := Except.ok.inj (foundLast.symm.trans found)
        exact .inr (law.born_allowed isBorn (same ▸ step))
    · exact .inr isBorn

theorem Drift.trans (first : Drift law before middle) (second : Drift law middle after) :
    Drift law before after where
  grows := Nat.le_trans first.grows second.grows
  kept := by
    intro fits sound
    have early := first.kept (fits.mono second.grows) sound
    exact early.trans (second.kept fits early.free)

theorem Kept.of_lookup (free : after.FreeListSound)
    (same : ∀ handle slot, after.lookup handle = .ok slot ↔ before.lookup handle = .ok slot) :
    Kept law before after where
  free := free
  live := fun {_ slot} found => ⟨slot, (same _ _).mpr found, law.refl slot⟩
  fresh := fun found => .inl ⟨_, (same _ _).mp found⟩

/-- Bookkeeping around the entries and the free list is no change at all. -/
theorem Drift.of_entries (entries : after.entries = before.entries) (free : after.free = before.free) :
    Drift law before after where
  grows := by simp [capacity, entries]
  kept := by
    intro _ sound
    apply Kept.of_lookup
    · exact ⟨by simpa [entries, free] using sound.empty, free ▸ sound.distinct⟩
    · intro handle slot
      rw [lookup_congr entries]

theorem Drift.refl (heap : Heap) : Drift law heap heap :=
  Drift.of_entries rfl rfl

instance : Std.Refl (Drift law) := ⟨Drift.refl⟩

instance : Trans (Drift law) (Drift law) (Drift law) := ⟨Drift.trans⟩

/-! ### Slots taken and not yet filled -/

/-- The handles name empty slots that are off the free list, each slot once. -/
structure Reserved (heap : Heap) (handles : List Handle) : Prop where
  vacant : ∀ handle ∈ handles, heap.entries[handle.index.toNat]? = some ⟨handle.generation, none⟩
  unlisted : ∀ handle ∈ handles, handle.index ∉ heap.free
  distinct : (handles.map Handle.index).Nodup

theorem Reserved.nil (heap : Heap) : heap.Reserved [] :=
  ⟨by simp, by simp, by simp⟩

theorem Reserved.reverse {heap : Heap} {handles : List Handle} (reserved : heap.Reserved handles) :
    heap.Reserved handles.reverse where
  vacant := by simpa using reserved.vacant
  unlisted := by simpa using reserved.unlisted
  distinct := by
    rw [List.map_reverse]
    exact List.pairwise_reverse.mpr (reserved.distinct.imp Ne.symm)

theorem Reserved.tail {heap : Heap} {handle : Handle} {handles : List Handle}
    (reserved : heap.Reserved (handle :: handles)) : heap.Reserved handles where
  vacant := fun other member => reserved.vacant other (.tail _ member)
  unlisted := fun other member => reserved.unlisted other (.tail _ member)
  distinct := (List.nodup_cons.mp reserved.distinct).2

theorem Reserved.index_ne {heap : Heap} {handle other : Handle} {handles : List Handle}
    (reserved : heap.Reserved (handle :: handles)) (member : other ∈ handles) :
    handle.index.toNat ≠ other.index.toNat := by
  intro same
  have apart := (List.nodup_cons.mp reserved.distinct).1
  exact apart (List.mem_map.mpr ⟨other, member, (UInt32.toNat_inj.mp same).symm⟩)

theorem capacity_takeSlot (heap : Heap) : heap.capacity ≤ heap.takeSlot.2.capacity := by
  unfold takeSlot
  split <;> simp [capacity]

-- A handle off the free list, or one past the last slot: either is reserved beside those taken before.
theorem Reserved.recycle {heap : Heap} {taken : List Handle} {index : UInt32} {free : List UInt32}
    {generation : UInt32} (sound : heap.FreeListSound) (reserved : heap.Reserved taken)
    (listed : heap.free = index :: free)
    (present : heap.entries[index.toNat]? = some ⟨generation, none⟩) :
    { heap with free := free }.FreeListSound ∧ { heap with free := free }.Reserved (⟨index, generation⟩ :: taken) := by
  obtain ⟨indexOff, restDistinct⟩ := List.nodup_cons.mp (listed ▸ sound.distinct)
  refine ⟨⟨?_, restDistinct⟩, ⟨?_, ?_, ?_⟩⟩
  · exact fun other member => sound.empty other (by simp [listed, member])
  · rintro handle member
    rcases List.mem_cons.mp member with rfl | member
    · exact present
    · exact reserved.vacant handle member
  · rintro handle member
    rcases List.mem_cons.mp member with rfl | member
    · exact indexOff
    · have off := reserved.unlisted handle member
      exact fun member => off (by simp [listed, member])
  · refine List.nodup_cons.mpr ⟨?_, reserved.distinct⟩
    intro again
    obtain ⟨handle, member, same⟩ := List.mem_map.mp again
    exact reserved.unlisted handle member (by simp [listed, same])

theorem Reserved.extend {heap : Heap} {taken : List Handle} (reserved : heap.Reserved taken)
    (listed : heap.free = []) (room : heap.entries.size + 1 ≤ UInt32.size) :
    { heap with entries := heap.entries.push ⟨0, none⟩ }.Reserved
      (⟨UInt32.ofNat heap.entries.size, 0⟩ :: taken) := by
  have last : (UInt32.ofNat heap.entries.size).toNat = heap.entries.size :=
    UInt32.toNat_ofNat_of_lt' room
  have below : ∀ handle ∈ taken, handle.index.toNat < heap.entries.size := by
    intro handle member
    exact (Array.getElem?_eq_some_iff.mp (reserved.vacant handle member)).1
  refine ⟨?_, by simp [listed], ?_⟩
  · rintro handle member
    rcases List.mem_cons.mp member with rfl | member
    · simp [last]
    · rw [Array.getElem?_push, if_neg (Nat.ne_of_lt (below handle member))]
      exact reserved.vacant handle member
  · refine List.nodup_cons.mpr ⟨?_, reserved.distinct⟩
    intro again
    obtain ⟨handle, member, same⟩ := List.mem_map.mp again
    have inside := below handle member
    rw [same, last] at inside
    omega

/-- Taking a slot reserves one more; nothing that is live or reserved is touched. -/
theorem takeSlot_reserved {heap : Heap} {taken : List Handle} (sound : heap.FreeListSound)
    (reserved : heap.Reserved taken) (fits : heap.takeSlot.2.Addressable) :
    heap.takeSlot.2.FreeListSound ∧ heap.takeSlot.2.Reserved (heap.takeSlot.1 :: taken) ∧
      ∀ handle slot, heap.takeSlot.2.lookup handle = .ok slot ↔ heap.lookup handle = .ok slot := by
  unfold takeSlot at fits ⊢
  split
  · rename_i index rest listed
    obtain ⟨generation, present⟩ := sound.empty index (by simp [listed])
    simp only [present]
    obtain ⟨sound', reserved'⟩ := reserved.recycle sound listed present
    exact ⟨sound', reserved', fun _ _ => Iff.rfl⟩
  · rename_i listed
    have room : heap.entries.size + 1 ≤ UInt32.size := by
      simpa [Addressable, capacity, listed] using fits
    refine ⟨⟨by simp [listed], by simp [listed]⟩, reserved.extend listed room, ?_⟩
    intro handle slot
    rw [lookup_eq_ok, lookup_eq_ok, Array.getElem?_push]
    split
    · rename_i last
      simp [last]
    · rfl

theorem capacity_takeSlots (count : Nat) (taken : List Handle) (heap : Heap) :
    heap.capacity ≤ (takeSlots count taken heap).2.capacity := by
  induction count generalizing taken heap with
  | zero => exact Nat.le_refl _
  | succ count ih => exact Nat.le_trans (capacity_takeSlot heap) (ih _ _)

theorem takeSlots_reserved (count : Nat) {taken : List Handle} {heap : Heap} (sound : heap.FreeListSound)
    (reserved : heap.Reserved taken) (fits : (takeSlots count taken heap).2.Addressable) :
    (takeSlots count taken heap).2.FreeListSound ∧
      (takeSlots count taken heap).2.Reserved (takeSlots count taken heap).1 ∧
      ∀ handle slot, (takeSlots count taken heap).2.lookup handle = .ok slot ↔
        heap.lookup handle = .ok slot := by
  induction count generalizing taken heap with
  | zero => exact ⟨sound, reserved.reverse, fun _ _ => Iff.rfl⟩
  | succ count ih =>
    have early : heap.takeSlot.2.Addressable := fits.mono (capacity_takeSlots count _ _)
    obtain ⟨sound', reserved', same⟩ := takeSlot_reserved sound reserved early
    obtain ⟨sound'', reserved'', same'⟩ := ih sound' reserved' fits
    exact ⟨sound'', reserved'', fun handle slot => (same' handle slot).trans (same handle slot)⟩

@[simp] theorem capacity_fill (heap : Heap) (handle : Handle) (node : Node) :
    (heap.fill handle node).capacity = heap.capacity := by
  simp [fill, put, capacity]

/-- Filling a reserved slot makes one handle live and touches no other. -/
theorem fill_reserved {heap : Heap} {handle : Handle} {rest : List Handle} {node : Node}
    (sound : heap.FreeListSound) (reserved : heap.Reserved (handle :: rest)) :
    Kept law heap (heap.fill handle node) ∧ (heap.fill handle node).Reserved rest := by
  have vacant := reserved.vacant handle (.head _)
  have elsewhere : ∀ other : Handle, other.index.toNat ≠ handle.index.toNat →
      (heap.fill handle node).lookup other = heap.lookup other :=
    fun other apart => lookup_put_ne apart
  refine ⟨⟨⟨?_, sound.distinct⟩, ?_, ?_⟩, ⟨?_, reserved.tail.unlisted, reserved.tail.distinct⟩⟩
  · intro index member
    have apart : handle.index.toNat ≠ index.toNat := by
      intro same
      have listed : handle.index ∈ heap.free := by
        rw [UInt32.toNat_inj.mp same]
        exact member
      exact reserved.unlisted handle (.head _) listed
    obtain ⟨generation, present⟩ := sound.empty index member
    exact ⟨generation, by simpa [fill, entries_put, apart] using present⟩
  · intro other slot found
    have apart : other.index.toNat ≠ handle.index.toNat := by
      intro same
      rw [lookup_eq_ok, same, vacant] at found
      simp at found
    exact ⟨slot, (elsewhere other apart).trans found, law.refl slot⟩
  · intro other slot found
    by_cases same : other.index.toNat = handle.index.toNat
    · rw [lookup_eq_ok] at found
      simp only [fill, entries_put, same, if_true, vacant, Option.map_some, Option.some.injEq,
        Entry.mk.injEq] at found
      exact .inr (found.2 ▸ law.born_ofNode node)
    · exact .inl ⟨slot, (elsewhere other same).symm.trans found⟩
  · intro other member
    have apart := reserved.index_ne member
    simpa [fill, entries_put, apart] using reserved.vacant other (.tail _ member)

theorem fillAll_reserved {heap : Heap} {handles : List Handle} {nodes : List Node}
    (sound : heap.FreeListSound) (reserved : heap.Reserved handles) :
    Kept law heap
      ((handles.zip nodes).foldl (fun heap (handle, node) => heap.fill handle node) heap) := by
  induction handles generalizing heap nodes with
  | nil => exact Kept.of_lookup sound fun _ _ => Iff.rfl
  | cons handle handles ih =>
    cases nodes with
    | nil => exact Kept.of_lookup sound fun _ _ => Iff.rfl
    | cons node nodes =>
      have ⟨(kept : Kept law heap (heap.fill handle node)), reserved'⟩ := fill_reserved sound reserved
      exact kept.trans (ih kept.free reserved')

theorem capacity_fillAll (pairs : List (Handle × Node)) (heap : Heap) :
    (pairs.foldl (fun heap (handle, node) => heap.fill handle node) heap).capacity = heap.capacity := by
  induction pairs generalizing heap with
  | nil => rfl
  | cons pair pairs ih =>
    rw [List.foldl_cons, ih]
    exact capacity_fill heap pair.1 pair.2

/-- A reserved slot that is given back was dead and stays dead. -/
theorem abandon_reserved {heap : Heap} {handle : Handle} {rest : List Handle}
    (sound : heap.FreeListSound) (reserved : heap.Reserved (handle :: rest)) :
    Kept law heap (heap.abandon handle) ∧ (heap.abandon handle).Reserved rest := by
  have vacant := reserved.vacant handle (.head _)
  have entriesAt : ∀ place, (heap.abandon handle).entries[place]? =
      if handle.index.toNat = place then some ⟨handle.generation + 1, none⟩ else heap.entries[place]? := by
    intro place
    rw [abandon, Array.getElem?_modify]
    split
    · rename_i same
      rw [← same, vacant]
      rfl
    · rfl
  have free : (heap.abandon handle).FreeListSound := by
    constructor
    · intro index member
      rw [entriesAt]
      split
      · exact ⟨_, rfl⟩
      · rename_i apart
        rcases List.mem_cons.mp member with rfl | member
        · exact absurd rfl apart
        · exact sound.empty index member
    · exact List.nodup_cons.mpr ⟨reserved.unlisted handle (.head _), sound.distinct⟩
  refine ⟨Kept.of_lookup free ?_, ⟨?_, ?_, reserved.tail.distinct⟩⟩
  · intro other slot
    rw [lookup_eq_ok, lookup_eq_ok, entriesAt]
    split
    · rename_i same
      simp [← same, vacant]
    · rfl
  · intro other member
    rw [entriesAt, if_neg (reserved.index_ne member)]
    exact reserved.vacant other (.tail _ member)
  · intro other member listed
    rcases List.mem_cons.mp listed with same | listed
    · exact reserved.index_ne member (congrArg UInt32.toNat same).symm
    · exact reserved.unlisted other (.tail _ member) listed

theorem abandonAll_reserved {heap : Heap} {handles : List Handle} (sound : heap.FreeListSound)
    (reserved : heap.Reserved handles) : Kept law heap (handles.foldl abandon heap) := by
  induction handles generalizing heap with
  | nil => exact Kept.of_lookup sound fun _ _ => Iff.rfl
  | cons handle handles ih =>
    have ⟨(kept : Kept law heap (heap.abandon handle)), reserved'⟩ := abandon_reserved sound reserved
    exact kept.trans (ih kept.free reserved')

theorem capacity_abandonAll (handles : List Handle) (heap : Heap) :
    (handles.foldl abandon heap).capacity = heap.capacity := by
  induction handles generalizing heap with
  | nil => rfl
  | cons handle handles ih =>
    rw [List.foldl_cons, ih]
    simp [abandon, capacity]

/-! ### Operations that drift -/

theorem reserve_drifts (count : UInt64) : Moves (Drift law) (reserve count) := by
  intro heap
  unfold reserve
  split
  · split
    · exact Drift.refl heap
    · exact Drift.of_entries rfl rfl
  · exact Drift.of_entries rfl rfl

theorem alloc_drifts (node : Node) : Moves (Drift law) (alloc node) := by
  refine (reserve_drifts 1).bind fun _ heap => ?_
  constructor
  · simpa [EStateM.Result.state] using capacity_takeSlot heap
  · intro fits sound
    have fits' : heap.takeSlot.2.Addressable := by
      simpa [EStateM.Result.state, Addressable] using fits
    obtain ⟨sound', reserved, same⟩ := takeSlot_reserved sound (.nil heap) fits'
    exact (Kept.of_lookup sound' same).trans (fill_reserved sound' reserved).1

theorem closeGroup_drifts (count : UInt64) (heap : Heap) (nodes : List Node) :
    let taken := takeSlots count.toNat [] heap
    Drift law heap (closeGroup count taken.1 nodes taken.2).state := by
  intro taken
  have grows : heap.capacity ≤ taken.2.capacity := capacity_takeSlots count.toNat [] heap
  have ready : taken.2.Addressable → heap.FreeListSound → Kept law heap taken.2 ∧ taken.2.Reserved taken.1 := by
    intro fits sound
    obtain ⟨sound', reserved, same⟩ := takeSlots_reserved count.toNat sound (.nil heap) fits
    exact ⟨Kept.of_lookup sound' same, reserved⟩
  unfold closeGroup
  split
  · refine ⟨by simpa [EStateM.Result.state, capacity_fillAll] using grows, ?_⟩
    intro fits sound
    simp only [EStateM.Result.state, Addressable, capacity_fillAll] at fits
    obtain ⟨kept, reserved⟩ := ready fits sound
    exact kept.trans (fillAll_reserved kept.free reserved)
  · have same : ∀ other : Heap, (other.unreserve count).capacity = other.capacity := fun _ => rfl
    refine ⟨by simpa [EStateM.Result.state, same, capacity_abandonAll] using grows, ?_⟩
    intro fits sound
    simp only [EStateM.Result.state, Addressable, same, capacity_abandonAll] at fits
    obtain ⟨kept, reserved⟩ := ready fits sound
    have dropped : Kept law taken.2 (taken.1.foldl abandon taken.2) := abandonAll_reserved kept.free reserved
    exact kept.trans (dropped.trans (.of_lookup ⟨dropped.free.1, dropped.free.2⟩ fun _ _ => Iff.rfl))

theorem allocGroup_drifts (count : UInt64) (build : List Handle → Heap → List Node × Heap)
    (leaves : ∀ handles heap, (build handles heap).2 = heap) :
    Moves (Drift law) (allocGroup count build) := by
  unfold allocGroup
  split
  · exact Moves.pure []
  · intro heap
    have counted : Drift law heap (reserve count heap).state := reserve_drifts count heap
    cases granted : reserve count heap with
    | error fault refused =>
      rw [granted] at counted
      have refusedGroup : openGroup count heap = .error fault refused := bind_error granted
      rw [bind_error refusedGroup]
      exact counted
    | ok _ next =>
      rw [granted] at counted
      let taken := takeSlots count.toNat [] next
      have opened : openGroup count heap = .ok taken.1 taken.2 := bind_ok granted
      rw [bind_ok opened]
      have closed : Drift law next (closeGroup count taken.1 (build taken.1 taken.2).1 taken.2).state :=
        closeGroup_drifts count next (build taken.1 taken.2).1
      have built : (modifyGet (build taken.1) : HeapM (List Node)) taken.2 =
          .ok (build taken.1 taken.2).1 taken.2 :=
        congrArg (EStateM.Result.ok (build taken.1 taken.2).1) (leaves _ _)
      rw [bind_ok built]
      apply counted.trans
      cases ended : closeGroup count taken.1 (build taken.1 taken.2).1 taken.2 with
      | ok _ last =>
        simp only [taken] at ended closed
        rw [ended] at closed
        rw [bind_ok ended]
        exact closed
      | error fault last =>
        simp only [taken] at ended closed
        rw [ended] at closed
        rw [bind_error ended]
        exact closed

theorem redirect_drifts (link target : Handle) : Moves (Drift law) (redirect link target) := by
  intro heap
  unfold redirect transition Slot.redirect
  split
  · exact Drift.refl heap
  · rename_i slot found
    obtain ⟨state, node⟩ := slot
    cases node with
    | indirection old =>
      refine ⟨by simp [EStateM.Result.state], fun _ sound => ⟨⟨?_, sound.distinct⟩, ?_, ?_⟩⟩
      · intro index member
        obtain ⟨generation, present⟩ := sound.empty index member
        refine ⟨generation, ?_⟩
        have apart : link.index.toNat ≠ index.toNat := by
          intro same
          rw [lookup_eq_ok, same, present] at found
          simp at found
        simpa [EStateM.Result.state, entries_put, apart] using present
      · intro handle slot live
        by_cases same : handle = link
        · subst same
          obtain rfl : slot = ⟨state, .indirection old⟩ := Except.ok.inj (live.symm.trans found)
          exact ⟨_, lookup_put_self (lookup_eq_ok.mp found), law.retarget state old target⟩
        · refine ⟨slot, ?_, law.refl slot⟩
          simpa [EStateM.Result.state, lookup_put_live found, same] using live
      · intro handle slot live
        by_cases same : handle = link
        · exact .inl ⟨_, same ▸ found⟩
        · simp only [EStateM.Result.state, lookup_put_live found, same, if_false] at live
          exact .inl ⟨slot, live⟩
    | _ => exact Drift.refl heap

end Heap

/-- A relation between heaps that allocation, collapsing and bookkeeping stay within. -/
structure HeapMotion where
  along : Heap → Heap → Prop
  trans : ∀ {first second third}, along first second → along second third → along first third
  same : ∀ {before after : Heap}, after.entries = before.entries → after.free = before.free → along before after
  alloc : ∀ node, Moves along (Heap.alloc node)
  allocGroup : ∀ count build, (∀ handles heap, (build handles heap).2 = heap) →
    Moves along (Heap.allocGroup count build)
  redirect : ∀ link target, Moves along (Heap.redirect link target)

namespace HeapMotion

theorem refl (motion : HeapMotion) (heap : Heap) : motion.along heap heap :=
  motion.same rfl rfl

end HeapMotion

def SlotLaw.motion (law : SlotLaw) : HeapMotion where
  along := Heap.Drift law
  trans := Heap.Drift.trans
  same := Heap.Drift.of_entries
  alloc := Heap.alloc_drifts
  allocGroup := Heap.allocGroup_drifts
  redirect := Heap.redirect_drifts

class Pathway (along : Heap → Heap → Prop) : Prop where
  refl : ∀ heap, along heap heap
  trans : ∀ {first second third}, along first second → along second third → along first third
  alloc : ∀ node, Moves along (Heap.alloc node)
  allocGroup : ∀ count build, (∀ handles heap, (build handles heap).2 = heap) →
    Moves along (Heap.allocGroup count build)

/-- A relation between heaps that allocation and bookkeeping stay within. -/
class Course (along : Heap → Heap → Prop) : Prop where
  trans : ∀ {first second third}, along first second → along second third → along first third
  same : ∀ {before after : Heap}, after.entries = before.entries → after.free = before.free → along before after
  alloc : ∀ node, Moves along (Heap.alloc node)
  allocGroup : ∀ count build, (∀ handles heap, (build handles heap).2 = heap) →
    Moves along (Heap.allocGroup count build)

instance {along : Heap → Heap → Prop} [Course along] : Pathway along where
  refl _ := Course.same rfl rfl
  trans := Course.trans
  alloc := Course.alloc
  allocGroup := Course.allocGroup

instance (motion : HeapMotion) : Course motion.along where
  trans := motion.trans
  same := motion.same
  alloc := motion.alloc
  allocGroup := motion.allocGroup

end LazyGraph

import LazyGraph.Proofs.Ledger.Steps
import Mathlib.Data.List.Perm.Subperm

/-! Every slot is live, free or reserved.

A slot without a node is on the free list or belongs to a group that is being built, and
never both, so the three kinds share the slots out among them. The counter of live nodes
follows from that: it and the free list together make up the capacity. -/

set_option autoImplicit false

namespace LazyGraph

namespace Heap

variable {before after heap : Heap} {handle : Handle} {handles others : List Handle} {nodes : List Node} {count : UInt64}

def places (handles : List Handle) : List Nat :=
  handles.map fun handle => handle.index.toNat

def occupied (heap : Heap) : List Nat :=
  (List.range heap.capacity).filter fun place => (heap.slotAt? place).isSome

theorem places_append (left right : List Handle) : places (left ++ right) = places left ++ places right :=
  List.map_append

theorem places_zip (lengths : handles.length = nodes.length) :
    (handles.zip nodes).map (fun pair => pair.1.index.toNat) = places handles := by
  induction handles generalizing nodes with
  | nil => rfl
  | cons handle handles ih =>
    cases nodes with
    | nil => cases lengths
    | cons node nodes => simpa [places] using ih (Nat.succ.inj lengths)

structure Partitioned (heap : Heap) (handles : List Handle) : Prop where
  free : heap.FreeListSound
  reserved : heap.Reserved handles
  covered : ∀ {place entry}, heap.entries[place]? = some entry → entry.slot = none →
    place ∈ heap.free.map UInt32.toNat ∨ place ∈ places handles

namespace Partitioned

theorem perm (parted : heap.Partitioned handles) (perm : handles.Perm others) : heap.Partitioned others where
  free := parted.free
  reserved := parted.reserved.perm perm
  covered := fun present empty => (parted.covered present empty).imp id (perm.map _).mem_iff.mp

theorem of_entries (parted : before.Partitioned handles) (entries : after.entries = before.entries)
    (free : after.free = before.free) : after.Partitioned handles where
  free := parted.free.of_entries entries free
  reserved := parted.reserved.of_entries entries free
  covered := by
    intro place entry present empty
    rw [entries] at present
    rw [free]
    exact parted.covered present empty

theorem takeSlot (parted : heap.Partitioned handles) (fits : heap.takeSlot.2.Addressable) :
    heap.takeSlot.2.Partitioned (heap.takeSlot.1 :: handles) := by
  obtain ⟨free, reserved, _⟩ := takeSlot_reserved parted.free parted.reserved fits
  refine ⟨free, reserved, fun {place entry} present empty => ?_⟩
  rcases heap.entries_takeSlot present with earlier | ⟨beyond, _⟩
  · rcases parted.covered earlier empty with listed | held
    · -- what was on the free list is the slot taken, or is on it still
      unfold Heap.takeSlot
      split
      · rename_i index rest free
        rw [free, List.map_cons, List.mem_cons] at listed
        rcases listed with rfl | listed
        · exact .inr (by simp [places])
        · exact .inl listed
      · rename_i free
        simp [free] at listed
    · exact .inr (List.mem_cons_of_mem _ held)
  · -- the slot is the new one
    right
    have below := (Array.getElem?_eq_some_iff.mp present).1
    unfold Heap.takeSlot at below fits ⊢
    split at below
    · exact absurd below (Nat.not_lt_of_le beyond)
    · rename_i free
      simp only [free, Addressable, capacity, Array.size_push] at fits below beyond
      have last : place = heap.entries.size := by omega
      have small : heap.entries.size < UInt32.size := fits
      simp [places, last, UInt32.toNat_ofNat_of_lt' small]

theorem takeSlots (taken : Nat) {reversed : List Handle} (parted : heap.Partitioned (reversed ++ others))
    (fits : (Heap.takeSlots taken reversed heap).2.Addressable) :
    (Heap.takeSlots taken reversed heap).2.Partitioned ((Heap.takeSlots taken reversed heap).1 ++ others) := by
  induction taken generalizing reversed heap with
  | zero => exact parted.perm ((List.reverse_perm reversed).symm.append_right others)
  | succ taken ih =>
    have early : heap.takeSlot.2.Addressable := fits.mono (capacity_takeSlots taken _ _)
    exact ih (parted.takeSlot early) fits

theorem openGroup (parted : heap.Partitioned others) (opened : Heap.openGroup count heap = .ok handles after)
    (fits : after.Addressable) : after.Partitioned (handles ++ others) := by
  obtain ⟨counted, entries, free, _, taken⟩ := openGroup_eq_ok opened
  have parted' : counted.Partitioned ([] ++ others) := parted.of_entries entries free
  have result := parted'.takeSlots count.toNat (taken ▸ fits)
  rw [taken] at result
  exact result

theorem fillGroup (parted : heap.Partitioned (handles ++ others)) (length : handles.length = count.toNat)
    (filled : closeGroup count handles nodes heap = .ok () after) : after.Partitioned others := by
  obtain ⟨exactly, rfl⟩ := closeGroup_eq_ok filled
  have lengths : handles.length = nodes.length := length.trans exactly.symm
  obtain ⟨free, _, reserved⟩ := fillAll_gains parted.free parted.reserved lengths
  refine ⟨free, reserved, fun {place entry} present empty => ?_⟩
  obtain ⟨old, found, _, vacant⟩ := entries_fillAll _ heap present
  obtain ⟨oldEmpty, unfilled⟩ := vacant empty
  rw [places_zip lengths] at unfilled
  rw [free_fillAll]
  rcases parted.covered found oldEmpty with listed | held
  · exact .inl listed
  · rw [places_append, List.mem_append] at held
    exact .inr (held.resolve_left unfilled)

theorem distinct (parted : heap.Partitioned handles) : (places handles).Nodup := by
  have same : places handles = (handles.map Handle.index).map UInt32.toNat := by simp [places]
  rw [same]
  exact List.pairwise_map.mpr (parted.reserved.distinct.imp fun apart same => apart (UInt32.toNat_inj.mp same))

theorem dropGroup {fault : Fault} (parted : heap.Partitioned (handles ++ others))
    (refused : closeGroup count handles nodes heap = .error fault after) : after.Partitioned others := by
  cases closeGroup_eq_error refused
  obtain ⟨free, reserved, _⟩ := abandonAll_apart parted.free parted.reserved
  have apart := parted.distinct
  rw [places_append] at apart
  have dropped : (handles.foldl abandon heap).Partitioned others := by
    refine ⟨free, reserved, fun {place entry} present empty => ?_⟩
    rw [entries_abandonAll (List.nodup_append.mp apart).1] at present
    rw [free_abandonAll, List.map_append, List.mem_append]
    split at present
    · rename_i given
      exact .inl (.inl (by simpa using given))
    · rename_i other
      rcases parted.covered present empty with listed | held
      · exact .inl (.inr listed)
      · rw [places_append, List.mem_append] at held
        exact .inr (held.resolve_left other)
  exact dropped.of_entries rfl rfl

theorem rewrites {old new : Slot} (parted : before.Partitioned handles)
    (rewrites : before.Rewrites after handle old new) : after.Partitioned handles where
  free := parted.free.rewrites rewrites
  reserved := parted.reserved.rewrites rewrites
  covered := by
    intro place entry present empty
    obtain ⟨old, found, _, vacant⟩ := rewrites.entry present
    rw [rewrites.free]
    exact parted.covered found (vacant empty)

theorem collect (parted : heap.Partitioned handles) (fits : heap.Addressable) (roots : List Handle) :
    (heap.collect roots).2.Partitioned handles := by
  have kept : ∀ {place generation}, heap.entries[place]? = some ⟨generation, none⟩ → place ∉ heap.freed roots := by
    intro place generation empty member
    obtain ⟨slot, present⟩ := mem_freed member
    simp [slotAt?, empty] at present
  refine ⟨(collect_sweeps heap roots).free fits parted.free, ⟨?_, ?_, parted.reserved.distinct⟩, ?_⟩
  · intro handle member
    have vacant := parted.reserved.vacant handle member
    rw [entries_collect, if_neg (kept vacant), vacant]
  · intro handle member listed
    have vacant := parted.reserved.vacant handle member
    rw [free_collect, List.mem_append, List.mem_reverse, List.mem_map] at listed
    rcases listed with ⟨place, freed, same⟩ | listed
    · obtain ⟨slot, present⟩ := mem_freed freed
      obtain ⟨entry, present, _⟩ := Option.bind_eq_some_iff.mp present
      have below : place < UInt32.size :=
        Nat.lt_of_lt_of_le (Array.getElem?_eq_some_iff.mp present).1 fits
      have there : handle.index.toNat = place := by rw [← same, UInt32.toNat_ofNat_of_lt' below]
      exact kept vacant (there ▸ freed)
    · exact parted.reserved.unlisted handle member listed
  · intro place entry present empty
    rw [entries_collect] at present
    rw [free_collect, List.map_append, List.mem_append]
    split at present
    · rename_i freed
      obtain ⟨entry, present, _⟩ := Option.map_eq_some_iff.mp present
      have below : place < UInt32.size :=
        Nat.lt_of_lt_of_le (Array.getElem?_eq_some_iff.mp present).1 fits
      refine .inl (.inl ?_)
      rw [List.mem_map]
      exact ⟨UInt32.ofNat place, by simpa using ⟨place, freed, rfl⟩, UInt32.toNat_ofNat_of_lt' below⟩
    · rcases parted.covered present empty with listed | held
      · exact .inl (.inr listed)
      · exact .inr held

theorem empty (parted : heap.Partitioned handles) {place : Nat}
    (member : place ∈ heap.free.map UInt32.toNat ++ places handles) :
    ∃ generation, heap.entries[place]? = some ⟨generation, none⟩ := by
  rcases List.mem_append.mp member with listed | held
  · obtain ⟨index, free, rfl⟩ := List.mem_map.mp listed
    exact parted.free.empty index free
  · obtain ⟨handle, among, rfl⟩ := List.mem_map.mp held
    exact ⟨_, parted.reserved.vacant handle among⟩

theorem vacant (parted : heap.Partitioned handles) (place : Nat)
    (member : place ∈ heap.free.map UInt32.toNat ++ places handles) : heap.slotAt? place = none := by
  obtain ⟨generation, present⟩ := parted.empty member
  simp [slotAt?, present]

/-- Live, free and reserved slots together are all the slots, each once. -/
theorem shares (parted : heap.Partitioned handles) :
    (List.range heap.capacity).Perm (heap.occupied ++ (heap.free.map UInt32.toNat ++ places handles)) := by
  have freeOnce : (heap.free.map UInt32.toNat).Nodup :=
    List.pairwise_map.mpr (parted.free.distinct.imp fun apart same => apart (UInt32.toNat_inj.mp same))
  have emptyOnce : (heap.free.map UInt32.toNat ++ places handles).Nodup := by
    refine List.nodup_append.mpr ⟨freeOnce, parted.distinct, ?_⟩
    rintro _ listed _ held rfl
    obtain ⟨index, free, same⟩ := List.mem_map.mp listed
    obtain ⟨handle, among, rfl⟩ := List.mem_map.mp held
    exact parted.reserved.unlisted handle among (UInt32.toNat_inj.mp same ▸ free)
  have once : (heap.occupied ++ (heap.free.map UInt32.toNat ++ places handles)).Nodup := by
    refine List.nodup_append.mpr ⟨List.nodup_range.filter _, emptyOnce, ?_⟩
    rintro place holds _ empty rfl
    have filled := (List.mem_filter.mp holds).2
    simp [parted.vacant place empty] at filled
  refine (List.perm_ext_iff_of_nodup List.nodup_range once).mpr fun place => ?_
  rw [List.mem_range, List.mem_append]
  constructor
  · intro below
    have present : heap.entries[place]? = some heap.entries[place] := Array.getElem?_eq_getElem below
    cases content : heap.entries[place].slot with
    | some slot => exact .inl (by simp [occupied, below, slotAt?, present, content])
    | none => exact .inr (List.mem_append.mpr (parted.covered present content))
  · rintro (holds | empty)
    · exact List.mem_range.mp (List.mem_filter.mp holds).1
    · obtain ⟨generation, present⟩ := parted.empty empty
      exact (Array.getElem?_eq_some_iff.mp present).1

end Partitioned

end Heap

end LazyGraph

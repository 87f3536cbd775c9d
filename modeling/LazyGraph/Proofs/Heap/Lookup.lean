import LazyGraph.Heap.Follow
import LazyGraph.Heap.Wait

/-! What handles name before and after a write.

A handle names a slot exactly when the entry at its index carries its generation, so
two live handles of one index are equal and a write through one of them is invisible
to all others. -/

set_option autoImplicit false

namespace LazyGraph.Heap

theorem lookup_eq_ok {heap : Heap} {handle : Handle} {slot : Slot} :
    heap.lookup handle = .ok slot ↔
      heap.entries[handle.index.toNat]? = some ⟨handle.generation, some slot⟩ := by
  unfold lookup
  constructor
  · intro found
    split at found
    · cases found
    · rename_i entry present
      obtain ⟨generation, content⟩ := entry
      split at found
      · rename_i same
        cases content with
        | none => cases found
        | some stored =>
          cases found
          cases same
          exact present
      · cases found
  · intro present
    simp [present]

theorem eq_of_lookup {heap : Heap} {left right : Handle} {slot slot' : Slot}
    (leftLive : heap.lookup left = .ok slot) (rightLive : heap.lookup right = .ok slot')
    (same : left.index.toNat = right.index.toNat) : left = right := by
  rw [lookup_eq_ok] at leftLive rightLive
  rw [same, rightLive] at leftLive
  obtain ⟨leftIndex, leftGeneration⟩ := left
  obtain ⟨rightIndex, rightGeneration⟩ := right
  have sameIndex : leftIndex = rightIndex := UInt32.toNat_inj.mp same
  have sameGeneration : rightGeneration = leftGeneration := by
    simpa using congrArg (Option.map Entry.generation) leftLive
  rw [sameIndex, sameGeneration]

/-- A change of the bookkeeping around the entries leaves every handle as it was. -/
theorem lookup_congr {heap heap' : Heap} (same : heap'.entries = heap.entries) (handle : Handle) :
    heap'.lookup handle = heap.lookup handle := by
  simp only [lookup, same]

-- The integer at a handle that is evaluated.
def int? (heap : Heap) (handle : Handle) : Option Int64 :=
  match heap.lookup handle with
  | .ok ⟨.evaluated, .int value⟩ => some value
  | _ => none

theorem int?_eq_some {heap : Heap} {handle : Handle} {value : Int64} :
    heap.int? handle = some value ↔ heap.lookup handle = .ok ⟨.evaluated, .int value⟩ := by
  unfold int?
  split
  · rename_i found
    simp [found]
  · rename_i other
    exact ⟨nofun, fun found => absurd found (other value)⟩

/-! ### One write -/

@[simp] theorem capacity_put (heap : Heap) (index : Nat) (slot : Slot) :
    (heap.put index slot).capacity = heap.capacity := by
  simp [capacity, put]

theorem entries_put (heap : Heap) (index : Nat) (slot : Slot) (place : Nat) :
    (heap.put index slot).entries[place]? =
      if index = place then heap.entries[place]?.map fun entry => ⟨entry.generation, some slot⟩
      else heap.entries[place]? := by
  simp [put, Array.getElem?_modify]

theorem lookup_put_ne {heap : Heap} {index : Nat} {slot : Slot} {handle : Handle}
    (different : handle.index.toNat ≠ index) :
    (heap.put index slot).lookup handle = heap.lookup handle := by
  have apart : index ≠ handle.index.toNat := Ne.symm different
  simp only [lookup, entries_put, if_neg apart]

/-- After a write the handle of the written slot reads what was written. -/
theorem lookup_put_self {heap : Heap} {handle : Handle} {content : Option Slot} {slot : Slot}
    (present : heap.entries[handle.index.toNat]? = some ⟨handle.generation, content⟩) :
    (heap.put handle.index.toNat slot).lookup handle = .ok slot := by
  simp [lookup_eq_ok, entries_put, present]

theorem lookup_put_live {heap : Heap} {written handle : Handle} {old slot : Slot}
    (live : heap.lookup written = .ok old) :
    (heap.put written.index.toNat slot).lookup handle =
      if handle = written then .ok slot else heap.lookup handle := by
  by_cases same : handle = written
  · subst same
    rw [if_pos rfl]
    exact lookup_put_self (lookup_eq_ok.mp live)
  · rw [if_neg same]
    by_cases index : handle.index.toNat = written.index.toNat
    · -- the index is shared, so the other handle is stale before and after the write
      have present := lookup_eq_ok.mp live
      have generation : ¬ written.generation = handle.generation := by
        intro generation
        apply same
        obtain ⟨leftIndex, leftGeneration⟩ := handle
        obtain ⟨rightIndex, rightGeneration⟩ := written
        have sameIndex : leftIndex = rightIndex := UInt32.toNat_inj.mp index
        rw [sameIndex]
        exact congrArg _ generation.symm
      simp [lookup, entries_put, index, present, generation]
    · exact lookup_put_ne index

structure Rewrites (before after : Heap) (node : Handle) (old new : Slot) : Prop where
  found : before.lookup node = .ok old
  capacity : after.capacity = before.capacity
  entries : ∀ place, place ≠ node.index.toNat → after.entries[place]? = before.entries[place]?
  free : after.free = before.free
  lookup : ∀ handle, after.lookup handle = if handle = node then .ok new else before.lookup handle

theorem put_rewrites {before after : Heap} {node : Handle} {old new : Slot}
    (found : before.lookup node = .ok old) (entries : after.entries = (before.put node.index.toNat new).entries)
    (free : after.free = before.free) : before.Rewrites after node old new where
  found := found
  capacity := by
    rw [Heap.capacity, entries]
    exact capacity_put before _ new
  entries := by
    intro place apart
    rw [entries, entries_put, if_neg (Ne.symm apart)]
  free := free
  lookup := by
    intro handle
    rw [lookup_congr entries]
    exact lookup_put_live found

/-! ### Chains of indirections -/

/-- A chain that lands has reached a live node that is no indirection. -/
theorem followFrom_at {heap : Heap} {marks : Marks} {links : List Handle} {current handle : Handle}
    {slot : Slot} (landed : (heap.followFrom marks links current).landing = .at handle slot) :
    heap.lookup handle = .ok slot ∧ ∀ target, slot.node ≠ .indirection target := by
  fun_induction followFrom heap marks links current with
  | case1 => cases landed
  | case2 => cases landed
  | case3 marks links current slot found target isLink unmet ih => exact ih landed
  | case4 marks links current slot' found noLink =>
    cases landed
    exact ⟨found, noLink⟩

theorem contains_passed (passed : List Handle) (marks : Marks) (index : Nat) :
    (passed.foldl (fun marks link => marks.insert link.index.toNat) marks).contains index = true ↔
      marks.contains index = true ∨ ∃ link ∈ passed, link.index.toNat = index := by
  induction passed generalizing marks with
  | nil => simp
  | cons link passed ih =>
    rw [List.foldl_cons, ih]
    simp only [Marks.contains_insert, Bool.or_eq_true, beq_iff_eq, List.mem_cons, exists_eq_or_imp, or_assoc]
    exact or_left_comm

theorem followFrom_eq (heap : Heap) (marks : Marks) (links : List Handle) (current : Handle) :
    heap.followFrom marks links current = match heap.lookup current with
      | .error fault => ⟨links.reverse, .broken fault⟩
      | .ok slot => match slot.node with
        | .indirection target =>
          if marks.contains current.index.toNat then ⟨links.reverse, .loop current⟩
          else heap.followFrom (marks.insert current.index.toNat) (current :: links) target
        | _ => ⟨links.reverse, .at current slot⟩ := by
  rw [followFrom]
  split
  · rename_i fault found
    rw [found]
  · rename_i slot found
    rw [found]
    rfl

theorem followFrom_congr {heap heap' : Heap} (same : heap'.entries = heap.entries) (marks : Marks)
    (links : List Handle) (current : Handle) :
    heap'.followFrom marks links current = heap.followFrom marks links current := by
  fun_induction followFrom heap marks links current with
  | case1 marks links current fault found =>
    rw [followFrom_eq, lookup_congr same, found]
  | case2 marks links current slot found target isLink met =>
    rw [followFrom_eq, lookup_congr same, found]
    simp only [isLink, met, if_true]
  | case3 marks links current slot found target isLink unmet ih =>
    rw [followFrom_eq, lookup_congr same, found]
    simp only [isLink, unmet, ih]
    rfl
  | case4 marks links current slot found noLink =>
    rw [followFrom_eq, lookup_congr same, found]
    simp only

theorem followOn_congr {heap heap' : Heap} (same : heap'.entries = heap.entries) (passed : List Handle)
    (start : Handle) : heap'.followOn passed start = heap.followOn passed start :=
  followFrom_congr same _ _ _

theorem followOn_at {heap : Heap} {passed : List Handle} {start handle : Handle} {slot : Slot}
    (landed : (heap.followOn passed start).landing = .at handle slot) :
    heap.lookup handle = .ok slot ∧ ∀ target, slot.node ≠ .indirection target :=
  followFrom_at landed

end LazyGraph.Heap

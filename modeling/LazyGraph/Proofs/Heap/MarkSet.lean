import LazyGraph.Heap.Collect
import LazyGraph.Proofs.Heap.Lookup

/-! A collection with the marked slots in a set of their own.

The set does what the bits do, and nothing in the heap changes while it grows, so reachability
is read off it. Both ways of collecting come to the same, and the bits are clear at the end. -/

set_option autoImplicit false

namespace LazyGraph

structure Marking where
  marks : Marks
  peak : Nat

namespace Heap

variable {heap : Heap}

set_option linter.unusedVariables false in
def markFrom (heap : Heap) (marks : Marks) (labels : Labels) (work : Stack Handle) (peak : Nat) : Marking :=
  match popped : work.pop? with
  | none => ⟨marks, peak⟩
  | some (handle, work') =>
    match found : heap.lookup handle with
    | .error _ => markFrom heap marks labels work' peak
    | .ok slot =>
      if met : marks.contains handle.index.toNat then markFrom heap marks labels work' peak
      else
        let named := slot.node.codeReferences labels
        let grown := (work'.pushAll slot.node.references).pushAll named.1
        markFrom heap (marks.insert handle.index.toNat) named.2 grown (max peak grown.depth)
termination_by (marks.unmarked heap.capacity, work.items.length)
decreasing_by
  · apply Prod.Lex.right
    simp [Stack.pop?_eq_some popped]
  · apply Prod.Lex.right
    simp [Stack.pop?_eq_some popped]
  · apply Prod.Lex.left
    exact Marks.unmarked_insert_lt (index_lt_of_lookup found) (by simpa using met)

def mark (heap : Heap) (roots : List Handle) : Marking :=
  heap.markFrom .empty ∅ (.ofList roots) roots.length

def isGarbage (heap : Heap) (marks : Marks) (index : Nat) : Bool :=
  (heap.slotAt? index).isSome && !marks.contains index

def garbage (heap : Heap) (marks : Marks) : List Nat :=
  (List.range heap.capacity).filter (heap.isGarbage marks)

def survivors (heap : Heap) (marks : Marks) : List Tag :=
  (List.range heap.capacity).filterMap fun index =>
    if marks.contains index then (heap.slotAt? index).map fun slot => slot.node.tag else none

def freeSlots (heap : Heap) (indices : List Nat) : Heap :=
  indices.foldl (fun heap index => { heap with
    entries := heap.entries.modify index fun entry => ⟨entry.generation + 1, none⟩
    free := UInt32.ofNat index :: heap.free }) heap

def collectBySet (heap : Heap) (extraRoots : List Handle) : Cycle × Heap :=
  let before := heap.liveSlots
  let roots := heap.roots.map Prod.fst ++ extraRoots
  let marking := heap.mark roots
  let freed := heap.garbage marking.marks
  let kept := heap.survivors marking.marks
  let after := before - freed.length
  let threshold := adaptedThreshold heap.threshold freed.length before
  let cycle : Cycle :=
    { number := heap.collections
      nanoseconds := 0
      liveBefore := before
      liveAfter := after
      collected := freed.length
      rootsScanned := roots.length
      peakMarkStack := marking.peak
      thresholdBefore := heap.threshold
      thresholdAfter := threshold }
  let swept := heap.freeSlots freed
  let telemetry := (kept.foldl Telemetry.recordSurvival swept.telemetry).recordCycle cycle
  (cycle, { swept with
    live := UInt64.ofNat after
    recent := 0
    threshold := threshold
    collections := swept.collections + 1
    telemetry := telemetry })

/-! ### Freeing -/

theorem size_freeSlots (heap : Heap) (indices : List Nat) :
    (heap.freeSlots indices).entries.size = heap.entries.size := by
  induction indices generalizing heap with
  | nil => rfl
  | cons index indices ih =>
    rw [freeSlots, List.foldl_cons]
    exact (ih _).trans (by simp)

theorem free_freeSlots (heap : Heap) (indices : List Nat) :
    (heap.freeSlots indices).free = (indices.map UInt32.ofNat).reverse ++ heap.free := by
  induction indices generalizing heap with
  | nil => rfl
  | cons index indices ih =>
    rw [freeSlots, List.foldl_cons]
    exact (ih _).trans (by simp)

/-- Each slot in the list is emptied under the next generation; no other is touched. -/
theorem entries_freeSlots (heap : Heap) {indices : List Nat} (distinct : indices.Nodup) (place : Nat) :
    (heap.freeSlots indices).entries[place]? =
      if place ∈ indices then heap.entries[place]?.map fun entry => ⟨entry.generation + 1, none⟩
      else heap.entries[place]? := by
  induction indices generalizing heap with
  | nil => rfl
  | cons index indices ih =>
    obtain ⟨once, distinct⟩ := List.nodup_cons.mp distinct
    rw [freeSlots, List.foldl_cons]
    refine (ih _ distinct).trans ?_
    simp only [Array.getElem?_modify, List.mem_cons]
    by_cases here : index = place
    · subst here
      simp [once]
    · simp [here, Ne.symm here]

theorem mem_garbage {marks : Marks} {index : Nat} :
    index ∈ heap.garbage marks ↔ (∃ slot, heap.slotAt? index = some slot) ∧ marks.contains index = false := by
  simp only [garbage, isGarbage, List.mem_filter, List.mem_range, Bool.and_eq_true, Bool.not_eq_true',
    Option.isSome_iff_exists]
  constructor
  · exact And.right
  · rintro ⟨⟨slot, present⟩, unmarked⟩
    refine ⟨?_, ⟨slot, present⟩, unmarked⟩
    obtain ⟨entry, present, _⟩ := Option.bind_eq_some_iff.mp present
    exact (Array.getElem?_eq_some_iff.mp present).1

theorem garbage_increasing (heap : Heap) (marks : Marks) : (heap.garbage marks).Pairwise (· < ·) :=
  List.Pairwise.filter _ List.pairwise_lt_range

end Heap

/-! ### Bits for a set -/

/-- The slots as they are in the heap, and the bits as the set says. -/
structure Arena.Shows (arena : Arena) (heap : Heap) (marks : Marks) : Prop where
  size : arena.cells.size = heap.capacity
  cells : ∀ index, arena.cells[index]? = heap.entries[index]?.map fun entry : Entry => entry.cell (marks.contains index)

namespace Arena

variable {arena : Arena} {heap : Heap} {marks : Marks}

theorem ofEntries_shows (heap : Heap) : (ofEntries heap.entries).Shows heap .empty where
  size := Array.size_map
  cells := by simp [ofEntries]

namespace Shows

theorem content? (shows : arena.Shows heap marks) (index : Nat) :
    arena.content? index = (heap.slotAt? index).map (⟨·, marks.contains index⟩) := by
  rw [Arena.content?, shows.cells, Heap.slotAt?]
  cases heap.entries[index]? <;> rfl

theorem find? (shows : arena.Shows heap marks) (handle : Handle) :
    arena.find? handle = match heap.lookup handle with
      | .ok slot => some ⟨slot, marks.contains handle.index.toNat⟩
      | .error _ => none := by
  rw [Arena.find?, shows.cells, Heap.lookup]
  cases heap.entries[handle.index.toNat]? with
  | none => rfl
  | some entry =>
    by_cases same : entry.generation = handle.generation
    · cases content : entry.slot <;> simp [Entry.cell, same, content]
    · simp [Entry.cell, same]

theorem mark (shows : arena.Shows heap marks) (index : Nat) : (arena.mark index).Shows heap (marks.insert index) where
  size := Array.size_modify.trans shows.size
  cells := by
    intro place
    rw [Arena.mark, Array.getElem?_modify, shows.cells]
    by_cases same : index = place
    · subst same
      cases heap.entries[index]? with
      | none => simp
      | some entry => cases content : entry.slot <;> simp [Entry.cell, Cell.mark, content]
    · have apart : (index == place) = false := beq_eq_false_iff_ne.mpr same
      simp [same, apart]

end Shows

theorem trace_eq (arena : Arena) (labels : Labels) (work : Stack Handle) (peak : Nat) :
    arena.trace labels work peak = match work.pop? with
      | none => (arena, peak)
      | some (handle, rest) => match arena.find? handle with
        | none => arena.trace labels rest peak
        | some content =>
          if content.marked then arena.trace labels rest peak
          else
            let named := content.slot.node.codeReferences labels
            let grown := (rest.pushAll content.slot.node.references).pushAll named.1
            (arena.mark handle.index.toNat).trace named.2 grown (max peak grown.depth) := by
  rw [trace]
  split
  · rename_i popped
    rw [popped]
  · rename_i popped
    rw [popped]
    split <;> simp_all

/-- The bits that tracing sets are the set that marking builds up. -/
theorem Shows.trace (shows : arena.Shows heap marks) (labels : Labels) (work : Stack Handle) (peak : Nat) :
    (arena.trace labels work peak).1.Shows heap (heap.markFrom marks labels work peak).marks ∧
      (arena.trace labels work peak).2 = (heap.markFrom marks labels work peak).peak := by
  fun_induction Heap.markFrom heap marks labels work peak generalizing arena with
  | case1 marks labels work peak popped =>
    rw [trace_eq, popped]
    exact ⟨shows, rfl⟩
  | case2 marks labels work peak handle rest popped fault found ih =>
    rw [trace_eq, popped]
    simp only [shows.find?, found]
    exact ih shows
  | case3 marks labels work peak handle rest popped slot found met ih =>
    rw [trace_eq, popped]
    simp only [shows.find?, found, met, if_true]
    exact ih shows
  | case4 marks labels work peak handle rest popped slot found unmet named grown =>
    rename_i ih
    rw [trace_eq, popped]
    simp only [shows.find?, found, unmet]
    exact ih (shows.mark _)

namespace Shows

theorem unmarked (shows : arena.Shows heap marks) : arena.unmarked = heap.garbage marks := by
  rw [Arena.unmarked, Heap.garbage, shows.size]
  refine List.filter_congr fun index _ => ?_
  rw [isUnmarked, shows.content?, Heap.isGarbage]
  cases heap.slotAt? index <;> simp

theorem survivors (shows : arena.Shows heap marks) : arena.survivors = heap.survivors marks := by
  rw [Arena.survivors, Heap.survivors, shows.size]
  refine congrArg (List.filterMap · _) (funext fun index => ?_)
  rw [shows.content?]
  cases heap.slotAt? index <;> simp

/-- The sweep leaves alone what is empty, frees what is not in the set and clears the rest. -/
theorem sweep (shows : arena.Shows heap marks) :
    arena.sweep = ofEntries (heap.freeSlots (heap.garbage marks)).entries := by
  have distinct : (heap.garbage marks).Nodup := (heap.garbage_increasing marks).imp Nat.ne_of_lt
  refine congrArg Arena.mk (Array.ext_getElem? fun index => ?_)
  have freed : index ∈ heap.garbage marks ↔
      (∃ slot, heap.slotAt? index = some slot) ∧ marks.contains index = false := Heap.mem_garbage
  rw [Array.getElem?_map, Array.getElem?_map, shows.cells, heap.entries_freeSlots distinct]
  rw [Heap.slotAt?] at freed
  cases present : heap.entries[index]? with
  | none => simp
  | some entry =>
    obtain ⟨generation, content⟩ := entry
    cases content with
    | none => simp [freed, present, Entry.cell, Cell.sweep]
    | some slot => cases marked : marks.contains index <;> simp [freed, present, Entry.cell, Cell.sweep, marked]

end Shows

/-- Without bits nothing is lost: clear cells are those of the entries. -/
theorem ofEntries_entries (clear : arena.Clear) : ofEntries (arena.entries clear) = arena := by
  rw [ofEntries, entries, Array.map_map]
  refine congrArg Arena.mk ((Array.map_congr_left fun cell member => ?_).trans (Array.map_id arena.cells))
  obtain ⟨generation, content⟩ := cell
  cases content with
  | none => rfl
  | some content =>
    obtain ⟨slot, marked⟩ := content
    cases clear _ member _ rfl
    rfl

theorem ofEntries_injective {entries entries' : Array Entry} (same : ofEntries entries = ofEntries entries') :
    entries = entries' := by
  have back : ∀ entries : Array Entry, (ofEntries entries).cells.map Cell.entry = entries := by
    intro entries
    rw [ofEntries, Array.map_map]
    refine (Array.map_congr_left fun entry _ => ?_).trans (Array.map_id entries)
    obtain ⟨generation, slot⟩ := entry
    cases slot <;> rfl
  rw [← back entries, same, back]

end Arena

namespace Heap

theorem freeSlots_eq (heap : Heap) (indices : List Nat) :
    heap.freeSlots indices = { heap with
      entries := (heap.freeSlots indices).entries
      free := (heap.freeSlots indices).free } := by
  induction indices generalizing heap with
  | nil => rfl
  | cons index indices ih => exact ih _

theorem trace_shows (heap : Heap) (roots : List Handle) :
    (heap.trace roots).1.Shows heap (heap.mark roots).marks ∧ (heap.trace roots).2 = (heap.mark roots).peak :=
  (Arena.ofEntries_shows heap).trace ∅ _ _

theorem collect_eq (heap : Heap) (extra : List Handle) : heap.collect extra = heap.collectBySet extra := by
  obtain ⟨shows, peak⟩ := heap.trace_shows (heap.roots.map Prod.fst ++ extra)
  have entries : (heap.trace (heap.roots.map Prod.fst ++ extra)).1.sweep.entries (Arena.sweep_clear _) =
      (heap.freeSlots (heap.garbage (heap.mark (heap.roots.map Prod.fst ++ extra)).marks)).entries :=
    Arena.ofEntries_injective ((Arena.ofEntries_entries _).trans shows.sweep)
  rw [collect, collectBySet, freeSlots_eq]
  simp only [peak, shows.unmarked, shows.survivors, entries, free_freeSlots]

end Heap

end LazyGraph

import LazyGraph.Heap.Basic
import LazyGraph.Heap.Marks
import LazyGraph.Stack

/-! The slots while a collection runs.

Marking sets a bit in every slot that it reaches and passes by a slot whose bit is set, so
it has to find all bits clear. The sweep frees the slots without the bit and clears the
others. A heap at rest keeps no bits: an arena turns into entries only when all are clear. -/

set_option autoImplicit false

namespace LazyGraph

structure MarkedSlot where
  slot : Slot
  marked : Bool

structure Cell where
  generation : UInt32
  content : Option MarkedSlot

def Entry.cell (entry : Entry) (marked : Bool) : Cell :=
  ⟨entry.generation, entry.slot.map (⟨·, marked⟩)⟩

namespace Cell

def entry (cell : Cell) : Entry :=
  ⟨cell.generation, cell.content.map MarkedSlot.slot⟩

def mark (cell : Cell) : Cell :=
  { cell with content := cell.content.map ({ · with marked := true }) }

-- A free slot passes to the next generation, a slot that is kept loses its bit.
def sweep : Cell → Cell
  | ⟨generation, none⟩ => ⟨generation, none⟩
  | ⟨generation, some ⟨slot, true⟩⟩ => ⟨generation, some ⟨slot, false⟩⟩
  | ⟨generation, some ⟨_, false⟩⟩ => ⟨generation + 1, none⟩

end Cell

structure Arena where
  cells : Array Cell

namespace Arena

def ofEntries (entries : Array Entry) : Arena :=
  ⟨entries.map (·.cell false)⟩

def content? (arena : Arena) (index : Nat) : Option MarkedSlot :=
  arena.cells[index]?.bind Cell.content

def find? (arena : Arena) (handle : Handle) : Option MarkedSlot :=
  arena.cells[handle.index.toNat]?.bind fun cell =>
    if cell.generation = handle.generation then cell.content else none

def mark (arena : Arena) (index : Nat) : Arena :=
  ⟨arena.cells.modify index Cell.mark⟩

/-! ### Marking -/

/-- The slot is live and its bit is clear. -/
def isUnmarked (arena : Arena) (index : Nat) : Bool :=
  match arena.content? index with
  | some content => !content.marked
  | none => false

def unmarked (arena : Arena) : List Nat :=
  (List.range arena.cells.size).filter arena.isUnmarked

theorem content?_of_find? {arena : Arena} {handle : Handle} {content : MarkedSlot}
    (found : arena.find? handle = some content) : arena.content? handle.index.toNat = some content := by
  obtain ⟨cell, present, same⟩ := Option.bind_eq_some_iff.mp found
  split at same
  · rw [content?, present]
    exact same
  · cases same

theorem content?_mark (arena : Arena) (index place : Nat) :
    (arena.mark index).content? place =
      if index = place then (arena.content? place).map ({ · with marked := true }) else arena.content? place := by
  rw [content?, mark, Array.getElem?_modify, content?]
  split
  · cases arena.cells[place]? <;> rfl
  · rfl

theorem unmarked_mark_lt {arena : Arena} {handle : Handle} {content : MarkedSlot}
    (found : arena.find? handle = some content) (clear : content.marked = false) :
    (arena.mark handle.index.toNat).unmarked.length < arena.unmarked.length := by
  have present := content?_of_find? found
  have below : handle.index.toNat < arena.cells.size := by
    obtain ⟨cell, present, _⟩ := Option.bind_eq_some_iff.mp present
    exact (Array.getElem?_eq_some_iff.mp present).1
  have size : (arena.mark handle.index.toNat).cells.size = arena.cells.size := Array.size_modify
  rw [unmarked, unmarked, size, ← List.countP_eq_length_filter, ← List.countP_eq_length_filter]
  apply Marks.countP_lt_countP (List.mem_range.mpr below)
  · intro place isUnmarked
    rw [Arena.isUnmarked, content?_mark] at isUnmarked
    rw [Arena.isUnmarked]
    by_cases same : handle.index.toNat = place
    · rw [← same, present]
      simp [clear]
    · simpa only [same, if_false] using isUnmarked
  · simp [isUnmarked, present, clear]
  · simp [isUnmarked, content?_mark, present]

set_option linter.unusedVariables false in
/-- Marks from the handles in `work`, the top one first, and tells how many handles were
waiting at most. -/
def trace (arena : Arena) (labels : Labels) (work : Stack Handle) (peak : Nat) : Arena × Nat :=
  match popped : work.pop? with
  | none => (arena, peak)
  | some (handle, work') =>
    match found : arena.find? handle with
    | none => trace arena labels work' peak
    | some content =>
      if met : content.marked then trace arena labels work' peak
      else
        let named := content.slot.node.codeReferences labels
        let grown := (work'.pushAll content.slot.node.references).pushAll named.1
        trace (arena.mark handle.index.toNat) named.2 grown (max peak grown.depth)
termination_by (arena.unmarked.length, work.items.length)
decreasing_by
  · apply Prod.Lex.right
    simp [Stack.pop?_eq_some popped]
  · apply Prod.Lex.right
    simp [Stack.pop?_eq_some popped]
  · apply Prod.Lex.left
    exact unmarked_mark_lt found (by simpa using met)

/-! ### Sweeping -/

-- Tags of the nodes that stay.
def survivors (arena : Arena) : List Tag :=
  (List.range arena.cells.size).filterMap fun index =>
    (arena.content? index).bind fun content => if content.marked then some content.slot.node.tag else none

def sweep (arena : Arena) : Arena :=
  ⟨arena.cells.map Cell.sweep⟩

/-- No bit is set. -/
def Clear (arena : Arena) : Prop :=
  ∀ cell ∈ arena.cells, ∀ content, cell.content = some content → content.marked = false

theorem sweep_clear (arena : Arena) : arena.sweep.Clear := by
  intro cell member content present
  obtain ⟨⟨generation, before⟩, _, rfl⟩ := Array.mem_map.mp member
  match before, present with
  | some ⟨slot, true⟩, rfl => rfl

/-- The entries of a heap at rest. -/
def entries (arena : Arena) (_clear : arena.Clear) : Array Entry :=
  arena.cells.map Cell.entry

end Arena

end LazyGraph

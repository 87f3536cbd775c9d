import LazyGraph.Heap.Slot
import LazyGraph.Heap.Telemetry
import LazyGraph.Settings

/-! The heap: slots of fixed identity, their generations and the free list.

A handle is good while its slot holds a node of the handle's generation. Slots
return to the free list with a new generation, so old handles never come to name a
later node. Counters are 64-bit words. -/

set_option autoImplicit false

namespace LazyGraph

/-- A place for a node. It is empty while free, and while reserved for a group of
nodes that is still being built. -/
structure Entry where
  generation : UInt32
  slot : Option Slot

structure Heap where
  entries : Array Entry
  -- Free slots; the first is used next.
  free : List UInt32
  roots : List (Handle × Nat)
  -- Nodes live or reserved.
  live : UInt64
  -- Allocations since the last collection.
  recent : UInt64
  total : UInt64
  collections : Nat
  threshold : UInt64
  enabled : Bool
  maxNodes : Option UInt64
  nextActor : UInt32
  -- The node each blocked actor waits on.
  waits : List (Actor × Handle)
  -- Counts completions and releases, so that a waiter can tell that something changed.
  epoch : UInt64
  telemetry : Telemetry

/-- Heap operations. A fault leaves the heap as the operation left it. -/
abbrev HeapM := EStateM Fault Heap

namespace Heap

def ofSettings (settings : HeapSettings) : Heap where
  entries := #[]
  free := []
  roots := []
  live := 0
  recent := 0
  total := 0
  collections := 0
  threshold := settings.threshold
  enabled := settings.enabled
  maxNodes := settings.maxNodes
  nextActor := 1
  waits := []
  epoch := 0
  telemetry := {}

def capacity (heap : Heap) : Nat := heap.entries.size

def minThreshold : UInt64 := 1024

def maxThreshold : UInt64 := 1000000

def setThreshold (heap : Heap) (threshold : UInt64) : Heap :=
  { heap with threshold := max threshold minThreshold }

def setEnabled (heap : Heap) (enabled : Bool) : Heap :=
  { heap with enabled := enabled }

def shouldCollect (heap : Heap) : Bool :=
  heap.enabled && heap.threshold ≤ heap.recent

/-! ### Reading -/

def slotAt? (heap : Heap) (index : Nat) : Option Slot :=
  heap.entries[index]?.bind Entry.slot

def lookup (heap : Heap) (handle : Handle) : Except Fault Slot :=
  match heap.entries[handle.index.toNat]? with
  | none => .error (.malformed (.dangling handle.index))
  | some entry =>
    if entry.generation = handle.generation then
      match entry.slot with
      | some slot => .ok slot
      | none => .error (.malformed (.unallocated handle.index))
    else .error (.malformed (.stale handle))

def node (heap : Heap) (handle : Handle) : Except Fault Node :=
  (heap.lookup handle).map Slot.node

def state (heap : Heap) (handle : Handle) : Except Fault SlotState :=
  (heap.lookup handle).map Slot.state

def tag (heap : Heap) (handle : Handle) : Except Fault Tag :=
  (heap.node handle).map Node.tag

def contains (heap : Heap) (handle : Handle) : Bool :=
  (heap.lookup handle).isOk

theorem index_lt_of_lookup {heap : Heap} {handle : Handle} {slot : Slot}
    (found : heap.lookup handle = .ok slot) : handle.index.toNat < heap.capacity := by
  unfold lookup at found
  split at found
  · cases found
  · rename_i entry present
    exact (Array.getElem?_eq_some_iff.mp present).1

/-! ### Writing -/

def put (heap : Heap) (index : Nat) (slot : Slot) : Heap :=
  { heap with entries := heap.entries.modify index fun entry => { entry with slot := some slot } }

def transition (handle : Handle) (change : Slot → Option Slot) : HeapM Bool := fun heap =>
  match heap.lookup handle with
  | .error fault => .error fault heap
  | .ok slot =>
    match change slot with
    | some slot => .ok true (heap.put handle.index.toNat slot)
    | none => .ok false heap

def notify (heap : Heap) : Heap :=
  { heap with epoch := heap.epoch + 1 }

def claim (handle : Handle) (actor : Actor) : HeapM Bool :=
  transition handle (Slot.claim actor)

def complete (handle : Handle) (actor : Actor) (result : Node) : HeapM Bool := do
  let written ← transition handle (Slot.complete actor result)
  modify notify
  return written

def release (handle : Handle) (actor : Actor) : HeapM Bool := do
  let released ← transition handle (Slot.release actor)
  modify notify
  return released

def redirect (handle target : Handle) : HeapM Bool :=
  transition handle (Slot.redirect target)

/-! ### Allocation -/

def reserve (count : UInt64) : HeapM Unit := fun heap =>
  let counted : Heap :=
    { heap with live := heap.live + count, recent := heap.recent + count, total := heap.total + count }
  match heap.maxNodes with
  | some limit =>
    if limit < heap.live + count then .error (.exhausted (.heap limit)) heap else .ok () counted
  | none => .ok () counted

def unreserve (heap : Heap) (count : UInt64) : Heap :=
  { heap with live := heap.live - count, recent := heap.recent - count, total := heap.total - count }

/-- Takes the first free slot, or a new one. -/
def takeSlot (heap : Heap) : Handle × Heap :=
  match heap.free with
  | index :: free =>
    let generation := match heap.entries[index.toNat]? with
      | some entry => entry.generation
      | none => 0
    (⟨index, generation⟩, { heap with free := free })
  | [] =>
    (⟨UInt32.ofNat heap.entries.size, 0⟩, { heap with entries := heap.entries.push ⟨0, none⟩ })

def fill (heap : Heap) (handle : Handle) (node : Node) : Heap :=
  { heap with telemetry := heap.telemetry.recordAllocation node.tag }.put handle.index.toNat (.ofNode node)

def alloc (node : Node) : HeapM Handle := do
  reserve 1
  fun heap =>
    let (handle, heap) := heap.takeSlot
    .ok handle (heap.fill handle node)

/-- Takes slots one after the other; `taken` holds those taken before, last first. -/
def takeSlots : (count : Nat) → (taken : List Handle) → Heap → List Handle × Heap
  | 0, taken, heap => (taken.reverse, heap)
  | count + 1, taken, heap =>
    let (handle, heap) := heap.takeSlot
    takeSlots count (handle :: taken) heap

/-- Reserves slots for a group of nodes that may refer to each other. They cannot be
read until the group is closed. -/
def openGroup (count : UInt64) : HeapM (List Handle) := do
  reserve count
  fun heap =>
    -- room for all the handles is set aside before the first slot is taken
    let none := (Array.emptyWithCapacity count.toNat).toList
    let (handles, heap) := takeSlots count.toNat none heap
    .ok handles heap

def abandon (heap : Heap) (handle : Handle) : Heap :=
  { heap with
    entries := heap.entries.modify handle.index.toNat fun entry =>
      { entry with generation := entry.generation + 1 }
    free := handle.index :: heap.free }

/-- Fills the reserved slots. The wrong number of nodes gives them all back. -/
def closeGroup (count : UInt64) (handles : List Handle) (nodes : List Node) : HeapM Unit := fun heap =>
  if nodes.length = count.toNat then
    .ok () ((handles.zip nodes).foldl (fun heap (handle, node) => heap.fill handle node) heap)
  else
    .error (.malformed (.groupSize nodes.length count))
      ((handles.foldl abandon heap).unreserve count)

/-- Allocates nodes that may refer to each other. `build` is given their handles and
returns the nodes in the same order; it may use the heap meanwhile. -/
def allocGroup (count : UInt64) (build : List Handle → Heap → List Node × Heap) : HeapM (List Handle) :=
  if count = 0 then pure [] else do
    let handles ← openGroup count
    let nodes ← modifyGet (build handles)
    closeGroup count handles nodes
    return handles

/-! ### Roots and actors -/

def insertRoot (handle : Handle) : List (Handle × Nat) → List (Handle × Nat)
  | [] => [(handle, 1)]
  | (root, times) :: rest =>
    if root = handle then (root, times + 1) :: rest else (root, times) :: insertRoot handle rest

def eraseRoot (handle : Handle) : List (Handle × Nat) → List (Handle × Nat)
  | [] => []
  | (root, times) :: rest =>
    if root = handle then
      if 1 < times then (root, times - 1) :: rest else rest
    else (root, times) :: eraseRoot handle rest

def addRoot (heap : Heap) (handle : Handle) : Heap :=
  { heap with roots := insertRoot handle heap.roots }

def removeRoot (heap : Heap) (handle : Handle) : Bool × Heap :=
  ((heap.roots.lookup handle).isSome, { heap with roots := eraseRoot handle heap.roots })

def rootList (heap : Heap) : List Handle :=
  (heap.roots.map Prod.fst).mergeSort Handle.le

def registerActor (heap : Heap) : Actor × Heap :=
  (⟨heap.nextActor⟩, { heap with nextActor := heap.nextActor + 1 })

end Heap

end LazyGraph

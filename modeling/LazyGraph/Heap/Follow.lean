import LazyGraph.Heap.Basic
import LazyGraph.Heap.Marks

/-! Following indirections to the node they stand for. -/

set_option autoImplicit false

namespace LazyGraph

inductive Landing where
  | at (handle : Handle) (slot : Slot)
  | loop (handle : Handle)
  | broken (fault : Fault)

/-- The indirections passed, first to last, and the end. -/
structure Chain where
  links : List Handle
  landing : Landing

namespace Heap

set_option linter.unusedVariables false in
/-- Goes on from `current`; `links` holds the indirections passed, last first. -/
def followFrom (heap : Heap) (marks : Marks) (links : List Handle) (current : Handle) : Chain :=
  match found : heap.lookup current with
  | .error fault => ⟨links.reverse, .broken fault⟩
  | .ok slot =>
    match slot.node with
    | .indirection target =>
      if met : marks.contains current.index.toNat then ⟨links.reverse, .loop current⟩
      else followFrom heap (marks.insert current.index.toNat) (current :: links) target
    | _ => ⟨links.reverse, .at current slot⟩
termination_by marks.unmarked heap.capacity
decreasing_by exact Marks.unmarked_insert_lt (index_lt_of_lookup found) (by simpa using met)

/-- Goes on from `start` after the indirections in `passed`, first to last. -/
def followOn (heap : Heap) (passed : List Handle) (start : Handle) : Chain :=
  heap.followFrom (passed.foldl (fun marks link => marks.insert link.index.toNat) .empty) passed.reverse start

def follow (heap : Heap) (start : Handle) : Chain :=
  heap.followOn [] start

/-- The node that `start` stands for. Nothing is forced. A chain that never ends is a
fault of the handle it was asked for. -/
def resolveSlot (heap : Heap) (start : Handle) : Except Fault (Handle × Slot) :=
  match (heap.follow start).landing with
  | .at handle slot => .ok (handle, slot)
  | .loop _ => .error (.nonTermination start)
  | .broken fault => .error fault

def resolve (heap : Heap) (start : Handle) : Except Fault Handle :=
  (heap.resolveSlot start).map Prod.fst

/-- The value at the end of the chain; none when it ends in a thunk. -/
def value (heap : Heap) (start : Handle) : Except Fault (Option Value) :=
  (heap.resolveSlot start).map fun (_, slot) => slot.node.value?

def ordinal (heap : Heap) (start : Handle) : Except Fault UInt32 := do
  let (_, slot) ← heap.resolveSlot start
  slot.node.ordinal

/-- Two handles show the same value, or the same absence of one, or the same fault. -/
def sameValue (heap : Heap) (left right : Handle) : Bool :=
  match heap.value left, heap.value right with
  | .ok (some left), .ok (some right) => left.same right
  | .ok none, .ok none => true
  | .error left, .error right => left == right
  | _, _ => false

end Heap

end LazyGraph

import LazyGraph.Heap.Basic
import LazyGraph.Heap.Marks

/-! Depth-first visits of the graph under a root.

Children are visited from left to right, each before the next; a node met again is
noted and not entered, so shared and cyclic graphs are visited finitely. -/

set_option autoImplicit false

namespace LazyGraph

inductive Sight where
  | dead
  | again (slot : Slot)
  | first (slot : Slot)

structure Visit where
  handle : Handle
  depth : Nat
  sight : Sight

namespace Heap

set_option linter.unusedVariables false in
/-- Visits the handles in `work`, first one first; `visited` holds the visits made, last first. -/
def visitFrom (heap : Heap) (children : Node → List Handle) (marks : Marks) (work : List (Handle × Nat))
    (visited : List Visit) : List Visit :=
  match work with
  | [] => visited.reverse
  | (handle, depth) :: rest =>
    match found : heap.lookup handle with
    | .error _ => visitFrom heap children marks rest (⟨handle, depth, .dead⟩ :: visited)
    | .ok slot =>
      if met : marks.contains handle.index.toNat then
        visitFrom heap children marks rest (⟨handle, depth, .again slot⟩ :: visited)
      else
        visitFrom heap children (marks.insert handle.index.toNat)
          ((children slot.node).map (·, depth + 1) ++ rest) (⟨handle, depth, .first slot⟩ :: visited)
termination_by (marks.unmarked heap.capacity, work.length)
decreasing_by
  · apply Prod.Lex.right
    simp
  · apply Prod.Lex.right
    simp
  · apply Prod.Lex.left
    exact Marks.unmarked_insert_lt (index_lt_of_lookup found) (by simpa using met)

/-- Every visit, in order, where `children` says which handles of a node are entered. -/
def visits (heap : Heap) (children : Node → List Handle) (root : Handle) : List Visit :=
  heap.visitFrom children .empty [(root, 0)] []

end Heap

end LazyGraph

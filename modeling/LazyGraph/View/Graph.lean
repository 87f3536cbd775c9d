import LazyGraph.View.Visit

/-! The graph as data: each live node reachable from a root, once, with its edges. -/

set_option autoImplicit false

namespace LazyGraph

structure NodeView where
  handle : Handle
  tag : Tag
  summary : String
  state : SlotState
  references : List Handle

def Visit.view? (visit : Visit) : Option NodeView :=
  match visit.sight with
  | .first slot => some
      { handle := visit.handle
        tag := slot.node.tag
        summary := slot.node.brief
        state := slot.state
        references := slot.node.edges }
  | _ => none

/-- Live nodes reachable from `root` along the edges that collection follows, in
depth-first order. -/
def Heap.graph (heap : Heap) (root : Handle) : List NodeView :=
  (heap.visits Node.edges root).filterMap Visit.view?

def Handle.document (handle : Handle) : Document :=
  .record [("index", .nat handle.index.toNat), ("generation", .nat handle.generation.toNat)]

def SlotState.document : SlotState → Document
  | .unevaluated => .text "unevaluated"
  | .inProgress owner => .record [("in_progress", .record [("actor", .nat owner.number.toNat)])]
  | .evaluated => .text "evaluated"

def NodeView.document (view : NodeView) : Document :=
  .record
    [("id", view.handle.document),
     ("data_type", .text view.tag.label),
     ("summary", .text view.summary),
     ("state", view.state.document),
     ("references", .list (view.references.map Handle.document))]

end LazyGraph

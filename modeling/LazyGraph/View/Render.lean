import LazyGraph.View.Visit

/-! Text pictures of the graph. Nothing here forces or claims a node. -/

set_option autoImplicit false

namespace LazyGraph

/-- What a node shows after its tag and handle. Characters and names stand as they are. -/
def Slot.payload (slot : Slot) : String :=
  match slot.node with
  | .char value => "<" ++ value.toString ++ ">"
  | .int value => "<" ++ toString value.toInt ++ ">"
  | .double value => "<" ++ Decimal.showDouble value ++ ">"
  | .object (.text value) => "<" ++ Text.quoted value ++ ">"
  | .object (.foreign _) => "<opaque>"
  | .data ordinal name _ => name ++ "#" ++ toString ordinal.toNat
  | .function code bound => code.name ++ "/" ++ toString (code.remaining bound)
  | .indirection target => "-> " ++ target.text
  | .thunk .. =>
    match slot.state with
    | .inProgress owner => "<in progress: " ++ owner.text ++ ">"
    | _ => "<unevaluated>"

def Node.drawnChildren : Node → List Handle
  | .thunk .. => []
  | node => node.references

def Handle.danglingText (handle : Handle) : String :=
  "<dangling " ++ handle.text ++ ">"

def Visit.line (indent : Nat) (visit : Visit) : String :=
  Text.spaces (indent + 2 * visit.depth) ++
    match visit.sight with
    | .dead => visit.handle.danglingText
    | .again slot => "^" ++ slot.node.tag.label ++ visit.handle.text
    | .first slot => slot.node.tag.label ++ visit.handle.text ++ " " ++ slot.payload

namespace Heap

def renderLines (heap : Heap) (root : Handle) (indent : Nat) : List String :=
  (heap.visits Node.drawnChildren root).map (Visit.line indent)

/-- The graph under `root`, a node to a line, children two spaces deeper. A node met
again is a back-reference. -/
def render (heap : Heap) (root : Handle) (indent : Nat) : String :=
  "\n".intercalate (heap.renderLines root indent)

def brief (heap : Heap) (handle : Handle) : String :=
  match heap.node handle with
  | .ok node => node.brief
  | .error _ => handle.danglingText

def describe (heap : Heap) (handle : Handle) : String :=
  match heap.node handle with
  | .ok node => node.tag.label ++ handle.text ++ " " ++ node.brief
  | .error _ => handle.danglingText

end Heap

end LazyGraph

import LazyGraph.Heap.Basic

/-! Waiting for a node that another actor holds.

An actor registers the node it waits on. A wait that would lead back to the waiting
actor, through the owners of nodes and the nodes they wait on, is refused. -/

set_option autoImplicit false

namespace LazyGraph.Heap

def leadsBack (heap : Heap) (actor : Actor) : (hops : Nat) → (current : Handle) → Except Fault Bool
  | 0, _ => .ok false
  | hops + 1, current =>
    match heap.state current with
    | .error fault => .error fault
    | .ok (.inProgress owner) =>
      if owner = actor then .ok true
      else match heap.waits.lookup owner with
        | some next => leadsBack heap actor hops next
        | none => .ok false
    | .ok _ => .ok false

def insertWait (actor : Actor) (node : Handle) : List (Actor × Handle) → List (Actor × Handle)
  | [] => [(actor, node)]
  | (waiter, other) :: rest =>
    if waiter = actor then (actor, node) :: rest else (waiter, other) :: insertWait actor node rest

def beginWait (actor : Actor) (node : Handle) : HeapM Unit := fun heap =>
  match heap.leadsBack actor (heap.waits.length + 1) node with
  | .error fault => .error fault heap
  | .ok true => .error (.nonTermination node) heap
  | .ok false => .ok () { heap with waits := insertWait actor node heap.waits }

def endWait (heap : Heap) (actor : Actor) : Heap :=
  { heap with waits := heap.waits.filter fun wait => wait.1 ≠ actor }

end LazyGraph.Heap

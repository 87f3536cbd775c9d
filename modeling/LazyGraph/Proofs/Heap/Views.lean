import LazyGraph.Heap.Follow
import LazyGraph.Proofs.Heap.Lookup
import LazyGraph.View.Graph
import LazyGraph.View.Render

/-! Looking at the graph without forcing it.

Values, pictures and lists of nodes are found by following edges. Two heaps with the same
slots in a region that no edge leaves show the same of every handle there. -/

set_option autoImplicit false

namespace LazyGraph.Heap

variable {heap heap' : Heap} {region : Handle → Prop} {handle target : Handle}

structure AgreeOn (region : Handle → Prop) (heap heap' : Heap) : Prop where
  lookup : ∀ {handle}, region handle → heap'.lookup handle = heap.lookup handle
  closed : ∀ {handle slot target}, region handle → heap.lookup handle = .ok slot → target ∈ slot.node.edges → region target

theorem mem_edges_of_reference {node : Node} (member : target ∈ node.references) : target ∈ node.edges :=
  List.mem_append_left _ member

theorem AgreeOn.followFrom (agree : heap.AgreeOn region heap') (marks : Marks) (links : List Handle) {current : Handle}
    (inside : region current) : heap'.followFrom marks links current = heap.followFrom marks links current := by
  fun_induction Heap.followFrom heap marks links current with
  | case1 marks links current fault found => rw [followFrom_eq, agree.lookup inside, found]
  | case2 marks links current slot found target isLink met =>
    rw [followFrom_eq, agree.lookup inside, found]
    simp only [isLink, met, if_true]
  | case3 marks links current slot found target isLink unmet ih =>
    have next : region target := agree.closed inside found (mem_edges_of_reference (by simp [isLink, Node.references]))
    rw [followFrom_eq, agree.lookup inside, found]
    simp only [isLink, unmet, ih next]
    rfl
  | case4 marks links current slot found noLink =>
    rw [followFrom_eq, agree.lookup inside, found]
    simp only

theorem AgreeOn.resolveSlot (agree : heap.AgreeOn region heap') (inside : region handle) :
    heap'.resolveSlot handle = heap.resolveSlot handle := by
  unfold Heap.resolveSlot follow followOn
  rw [agree.followFrom _ _ inside]

theorem visitFrom_eq (heap : Heap) (children : Node → List Handle) (marks : Marks) (depth : Nat)
    (rest : List (Handle × Nat)) (visited : List Visit) (handle : Handle) :
    heap.visitFrom children marks ((handle, depth) :: rest) visited = match heap.lookup handle with
      | .error _ => heap.visitFrom children marks rest (⟨handle, depth, .dead⟩ :: visited)
      | .ok slot =>
        if marks.contains handle.index.toNat then
          heap.visitFrom children marks rest (⟨handle, depth, .again slot⟩ :: visited)
        else heap.visitFrom children (marks.insert handle.index.toNat)
          ((children slot.node).map (·, depth + 1) ++ rest) (⟨handle, depth, .first slot⟩ :: visited) := by
  rw [visitFrom]
  split
  · rename_i fault found
    rw [found]
  · rename_i slot found
    rw [found]
    rfl

theorem AgreeOn.visitFrom (agree : heap.AgreeOn region heap') {children : Node → List Handle}
    (edges : ∀ node, ∀ child ∈ children node, child ∈ node.edges) (marks : Marks) {work : List (Handle × Nat)}
    (visited : List Visit) (inside : ∀ item ∈ work, region item.1) :
    heap'.visitFrom children marks work visited = heap.visitFrom children marks work visited := by
  fun_induction Heap.visitFrom heap children marks work visited with
  | case1 => rw [Heap.visitFrom]
  | case2 marks visited handle depth rest fault found ih =>
    obtain ⟨here, below⟩ := List.forall_mem_cons.mp inside
    rw [visitFrom_eq, agree.lookup here, found]
    exact ih below
  | case3 marks visited handle depth rest slot found met ih =>
    obtain ⟨here, below⟩ := List.forall_mem_cons.mp inside
    rw [visitFrom_eq, agree.lookup here, found]
    simp only [met, if_true]
    exact ih below
  | case4 marks visited handle depth rest slot found unmet ih =>
    obtain ⟨here, below⟩ := List.forall_mem_cons.mp inside
    rw [visitFrom_eq, agree.lookup here, found]
    simp only [unmet]
    refine ih fun item member => ?_
    rcases List.mem_append.mp member with entered | member
    · obtain ⟨child, isChild, rfl⟩ := List.mem_map.mp entered
      exact agree.closed here found (edges _ child isChild)
    · exact below item member

theorem AgreeOn.visits (agree : heap.AgreeOn region heap') {children : Node → List Handle}
    (edges : ∀ node, ∀ child ∈ children node, child ∈ node.edges) (inside : region handle) :
    heap'.visits children handle = heap.visits children handle :=
  agree.visitFrom edges _ _ (List.forall_mem_singleton.mpr inside)

structure Looks (heap heap' : Heap) (handle : Handle) : Prop where
  node : heap'.node handle = heap.node handle
  state : heap'.state handle = heap.state handle
  value : heap'.value handle = heap.value handle
  ordinal : heap'.ordinal handle = heap.ordinal handle
  render : ∀ indent, heap'.render handle indent = heap.render handle indent
  graph : heap'.graph handle = heap.graph handle

theorem AgreeOn.looks (agree : heap.AgreeOn region heap') (inside : region handle) : heap.Looks heap' handle where
  node := by rw [Heap.node, agree.lookup inside, Heap.node]
  state := by rw [Heap.state, agree.lookup inside, Heap.state]
  value := by rw [Heap.value, agree.resolveSlot inside, Heap.value]
  ordinal := by rw [Heap.ordinal, agree.resolveSlot inside, Heap.ordinal]
  render := by
    intro indent
    have drawn : ∀ node, ∀ child ∈ Node.drawnChildren node, child ∈ node.edges := by
      intro node child member
      cases node with
      | thunk => cases member
      | _ => exact mem_edges_of_reference member
    rw [render, renderLines, agree.visits drawn inside, render, renderLines]
  graph := by rw [graph, agree.visits (fun _ _ => id) inside, graph]

end LazyGraph.Heap

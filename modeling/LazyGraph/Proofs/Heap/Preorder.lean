import Mathlib.Algebra.Ring.Nat
import LazyGraph.Proofs.Heap.Collection
import LazyGraph.Proofs.Heap.Views

/-! The graph under a root, in preorder.

The walk that shows a graph keeps a work list and marks slots. It lists what a recursion over
the children lists, which is what can be reached, each node once; and that is what a collection
from the same root keeps. -/

set_option autoImplicit false

namespace LazyGraph

def Visit.entered? (visit : Visit) : Option Handle :=
  match visit.sight with
  | .first _ => some visit.handle
  | _ => none

theorem Visit.map_view? (visit : Visit) : visit.view?.map NodeView.handle = visit.entered? := by
  obtain ⟨handle, depth, sight⟩ := visit
  cases sight <;> rfl

namespace Heap

variable {heap : Heap} {children : Node → List Handle} {met forest listed : List Handle} {handle : Handle}

/-! ### The recursion -/

/-- What a depth-first recursion lists: for one handle after the other, the handle and then what
its children lead to. One that was met before or names no live node is skipped. -/
inductive Preorder (heap : Heap) (children : Node → List Handle) : (met forest listed : List Handle) → Prop where
  | done {met : List Handle} : Preorder heap children met [] []
  | dead {met forest listed : List Handle} {handle : Handle} {fault : Fault} (gone : heap.lookup handle = .error fault)
      (later : Preorder heap children met forest listed) : Preorder heap children met (handle :: forest) listed
  | again {met forest listed : List Handle} {handle : Handle} (known : handle ∈ met)
      (later : Preorder heap children met forest listed) : Preorder heap children met (handle :: forest) listed
  | first {met forest below listed : List Handle} {handle : Handle} {slot : Slot} (live : heap.lookup handle = .ok slot)
      (fresh : handle ∉ met) (under : Preorder heap children (met ++ [handle]) (children slot.node) below)
      (later : Preorder heap children (met ++ handle :: below) forest listed) :
      Preorder heap children met (handle :: forest) (handle :: (below ++ listed))

namespace Preorder

theorem split {left right : List Handle} (preorder : Preorder heap children met (left ++ right) listed) :
    ∃ early late, listed = early ++ late ∧ Preorder heap children met left early ∧
      Preorder heap children (met ++ early) right late := by
  generalize joined : left ++ right = forest at preorder
  induction preorder generalizing left with
  | done =>
    obtain ⟨rfl, rfl⟩ := List.append_eq_nil_iff.mp joined
    exact ⟨[], [], rfl, .done, .done⟩
  | @dead met forest listed handle fault gone later ih =>
    rcases List.append_eq_cons_iff.mp joined with ⟨rfl, rfl⟩ | ⟨left, rfl, tail⟩
    · exact ⟨[], listed, rfl, .done, (List.append_nil met).symm ▸ .dead gone later⟩
    · obtain ⟨early, late, rfl, before, after⟩ := ih tail.symm
      exact ⟨early, late, rfl, .dead gone before, after⟩
  | @again met forest listed handle known later ih =>
    rcases List.append_eq_cons_iff.mp joined with ⟨rfl, rfl⟩ | ⟨left, rfl, tail⟩
    · exact ⟨[], listed, rfl, .done, (List.append_nil met).symm ▸ .again known later⟩
    · obtain ⟨early, late, rfl, before, after⟩ := ih tail.symm
      exact ⟨early, late, rfl, .again known before, after⟩
  | @first met forest below listed handle slot live fresh under later _ ih =>
    rcases List.append_eq_cons_iff.mp joined with ⟨rfl, rfl⟩ | ⟨left, rfl, tail⟩
    · exact ⟨[], _, rfl, .done, (List.append_nil met).symm ▸ .first live fresh under later⟩
    · obtain ⟨early, late, rfl, before, after⟩ := ih tail.symm
      exact ⟨_, late, by simp, .first live fresh under before, by simpa using after⟩

theorem unique {others : List Handle} (preorder : Preorder heap children met forest listed)
    (again : Preorder heap children met forest others) : others = listed := by
  induction preorder generalizing others with
  | done =>
    cases again
    rfl
  | dead gone _ ih =>
    cases again with
    | dead _ later => exact ih later
    | again _ later => exact ih later
    | first live _ _ _ => cases gone.symm.trans live
  | again known _ ih =>
    cases again with
    | dead _ later => exact ih later
    | again _ later => exact ih later
    | first _ fresh _ _ => exact absurd known fresh
  | first live fresh _ _ inner outer =>
    cases again with
    | dead gone _ => cases gone.symm.trans live
    | again known _ => exact absurd known fresh
    | first live' _ under later =>
      cases live.symm.trans live'
      obtain rfl := inner under
      obtain rfl := outer later
      rfl

theorem nodup (preorder : Preorder heap children met forest listed) : listed.Nodup ∧ ∀ handle ∈ listed, handle ∉ met := by
  induction preorder with
  | done => exact ⟨.nil, nofun⟩
  | dead _ _ ih => exact ih
  | again _ _ ih => exact ih
  | @first met forest below listed handle slot _ fresh _ _ inner outer =>
    have belowFresh : ∀ other ∈ below, other ∉ met ∧ other ≠ handle := by
      intro other member
      simpa using inner.2 other member
    have laterFresh : ∀ other ∈ listed, other ∉ met ∧ other ≠ handle ∧ other ∉ below := by
      intro other member
      simpa using outer.2 other member
    refine ⟨List.nodup_cons.mpr ⟨?_, List.nodup_append.mpr ⟨inner.1, outer.1, ?_⟩⟩, ?_⟩
    · rw [List.mem_append]
      rintro (member | member)
      · exact (belowFresh _ member).2 rfl
      · exact (laterFresh _ member).2.1 rfl
    · rintro other early _ late rfl
      exact (laterFresh _ late).2.2 early
    · intro other member
      rcases List.mem_cons.mp member with rfl | member
      · exact fresh
      · rcases List.mem_append.mp member with member | member
        · exact (belowFresh other member).1
        · exact (laterFresh other member).1

/-- What holds of live handles in the forest, and of live children of what it holds of, holds of
all that is listed. -/
theorem sound {among : Handle → Prop} (preorder : Preorder heap children met forest listed)
    (start : ∀ handle ∈ forest, ∀ slot, heap.lookup handle = .ok slot → among handle)
    (onward : ∀ handle slot, among handle → heap.lookup handle = .ok slot →
      ∀ child ∈ children slot.node, ∀ slot, heap.lookup child = .ok slot → among child) :
    ∀ handle ∈ listed, among handle := by
  induction preorder with
  | done => exact nofun
  | dead _ _ ih => exact ih fun handle member => start handle (.tail _ member)
  | again _ _ ih => exact ih fun handle member => start handle (.tail _ member)
  | @first met forest below listed handle slot live _ _ _ inner outer =>
    have here : among handle := start handle (.head _) slot live
    have inner := inner (onward handle slot here live)
    have outer := outer fun handle member => start handle (.tail _ member)
    intro other member
    rcases List.mem_cons.mp member with rfl | member
    · exact here
    · rcases List.mem_append.mp member with member | member
      · exact inner other member
      · exact outer other member

/-- Every live handle in the forest was met or is listed, and so is every live child of what is
listed. -/
theorem complete (preorder : Preorder heap children met forest listed) :
    (∀ handle ∈ forest, ∀ slot, heap.lookup handle = .ok slot → handle ∈ met ++ listed) ∧
      ∀ handle ∈ listed, ∀ slot, heap.lookup handle = .ok slot →
        ∀ child ∈ children slot.node, ∀ slot, heap.lookup child = .ok slot → child ∈ met ++ listed := by
  induction preorder with
  | done => exact ⟨nofun, nofun⟩
  | @dead met forest listed handle fault gone _ ih =>
    refine ⟨fun other member slot live => ?_, ih.2⟩
    rcases List.mem_cons.mp member with rfl | member
    · cases gone.symm.trans live
    · exact ih.1 other member slot live
  | @again met forest listed handle known _ ih =>
    refine ⟨fun other member slot live => ?_, ih.2⟩
    rcases List.mem_cons.mp member with rfl | member
    · exact List.mem_append_left _ known
    · exact ih.1 other member slot live
  | @first met forest below listed handle slot live _ _ _ inner outer =>
    have within : ∀ {other}, other ∈ (met ++ [handle]) ++ below → other ∈ met ++ handle :: (below ++ listed) := by
      intro other member
      have longer : met ++ handle :: (below ++ listed) = ((met ++ [handle]) ++ below) ++ listed := by simp
      exact longer ▸ List.mem_append_left _ member
    have beyond : ∀ {other}, other ∈ (met ++ handle :: below) ++ listed → other ∈ met ++ handle :: (below ++ listed) := by
      intro other member
      simpa using member
    refine ⟨fun other member slot' live' => ?_, fun other member slot' live' child isChild slot'' live'' => ?_⟩
    · rcases List.mem_cons.mp member with rfl | member
      · simp
      · exact beyond (outer.1 other member slot' live')
    · rcases List.mem_cons.mp member with rfl | member
      · cases live.symm.trans live'
        exact within (inner.1 child isChild slot'' live'')
      · rcases List.mem_append.mp member with member | member
        · exact within (inner.2 other member slot' live' child isChild slot'' live'')
        · exact beyond (outer.2 other member slot' live' child isChild slot'' live'')

end Preorder

/-! ### The walk -/

/-- Of the live handles, those are marked that were met. -/
def Notes (heap : Heap) (marks : Marks) (met : List Handle) : Prop :=
  ∀ handle slot, heap.lookup handle = .ok slot → (marks.contains handle.index.toNat ↔ handle ∈ met)

theorem Notes.insert {marks : Marks} {slot : Slot} (notes : heap.Notes marks met) (live : heap.lookup handle = .ok slot) :
    heap.Notes (marks.insert handle.index.toNat) (met ++ [handle]) := by
  intro other slot' live'
  simp only [Marks.contains_insert, Bool.or_eq_true, beq_iff_eq, List.mem_append, List.mem_singleton]
  rw [notes other slot' live', or_comm]
  refine or_congr_right ⟨fun same => eq_of_lookup live' live same.symm, ?_⟩
  rintro rfl
  rfl

/-- The walk enters what the recursion lists, in the same order. -/
theorem visitFrom_preorder (marks : Marks) (work : List (Handle × Nat)) (visited : List Visit)
    (notes : heap.Notes marks met) :
    ∃ listed, heap.Preorder children met (work.map Prod.fst) listed ∧
      (heap.visitFrom children marks work visited).filterMap Visit.entered? =
        visited.reverse.filterMap Visit.entered? ++ listed := by
  fun_induction Heap.visitFrom heap children marks work visited generalizing met with
  | case1 => exact ⟨[], .done, (List.append_nil _).symm⟩
  | case2 marks visited handle depth rest fault found ih =>
    obtain ⟨listed, preorder, entered⟩ := ih notes
    exact ⟨listed, .dead found preorder, by simpa [Visit.entered?, List.filterMap_cons] using entered⟩
  | case3 marks visited handle depth rest slot found known ih =>
    obtain ⟨listed, preorder, entered⟩ := ih notes
    exact ⟨listed, .again ((notes _ _ found).mp known) preorder, by simpa [Visit.entered?, List.filterMap_cons] using entered⟩
  | case4 marks visited handle depth rest slot found fresh ih =>
    obtain ⟨listed, preorder, entered⟩ := ih (notes.insert found)
    rw [List.map_append, List.map_map] at preorder
    have children : (Prod.fst ∘ fun child => (child, depth + 1)) = (id : Handle → Handle) := rfl
    rw [children, List.map_id] at preorder
    obtain ⟨below, later, rfl, under, after⟩ := preorder.split
    refine ⟨_, .first found (mt (notes _ _ found).mpr fresh) under (by simpa using after), ?_⟩
    simpa [Visit.entered?] using entered

theorem visits_preorder (heap : Heap) (children : Node → List Handle) (root : Handle) :
    heap.Preorder children [] [root] ((heap.visits children root).filterMap Visit.entered?) := by
  have notes : heap.Notes .empty [] := fun handle slot live => by simp
  obtain ⟨listed, preorder, entered⟩ := @visitFrom_preorder heap children [] .empty [(root, 0)] [] notes
  rw [visits, entered]
  exact preorder

theorem visitFrom_shows (marks : Marks) (work : List (Handle × Nat)) {visited : List Visit}
    (shown : ∀ visit ∈ visited, ∀ slot, visit.sight = .first slot → heap.lookup visit.handle = .ok slot) :
    ∀ visit ∈ heap.visitFrom children marks work visited, ∀ slot, visit.sight = .first slot →
      heap.lookup visit.handle = .ok slot := by
  fun_induction Heap.visitFrom heap children marks work visited with
  | case1 => exact fun visit member => shown visit (List.mem_reverse.mp member)
  | case2 marks visited handle depth rest fault found ih => exact ih (List.forall_mem_cons.mpr ⟨by simp, shown⟩)
  | case3 marks visited handle depth rest slot found known ih => exact ih (List.forall_mem_cons.mpr ⟨by simp, shown⟩)
  | case4 marks visited handle depth rest slot found fresh ih =>
    refine ih (List.forall_mem_cons.mpr ⟨?_, shown⟩)
    rintro _ ⟨⟩
    exact found

/-- Every handle that waits is visited once: the first, and those that an entered node leads to. -/
theorem visitFrom_length (marks : Marks) (work : List (Handle × Nat)) (visited : List Visit) :
    (heap.visitFrom Node.edges marks work visited).length +
        ((visited.filterMap Visit.view?).map fun view => view.references.length).sum =
      visited.length + work.length +
        (((heap.visitFrom Node.edges marks work visited).filterMap Visit.view?).map fun view => view.references.length).sum := by
  fun_induction Heap.visitFrom heap Node.edges marks work visited with
  | case1 => simp [List.filterMap_reverse, List.sum_reverse]
  | case2 marks visited handle depth rest fault found ih =>
    simp only [Visit.view?, List.filterMap_cons, List.length_cons] at ih ⊢
    omega
  | case3 marks visited handle depth rest slot found known ih =>
    simp only [Visit.view?, List.filterMap_cons, List.length_cons] at ih ⊢
    omega
  | case4 marks visited handle depth rest slot found fresh ih =>
    simp only [Visit.view?, List.filterMap_cons, List.length_cons, List.map_cons, List.sum_cons, List.length_append,
      List.length_map] at ih ⊢
    omega

/-! ### What is listed -/

theorem mem_edges_iff {slot : Slot} {target : Handle} (oneLabel : heap.OneLabel) (live : heap.lookup handle = .ok slot) :
    target ∈ slot.node.edges ↔ heap.Edge handle target := by
  have unread : Expr.Read heap.HoldsCode [] ∅ fun _ => False := fun e _ met => absurd met (by simp)
  obtain ⟨-, names⟩ := codeReferences_read oneLabel live unread
  rw [Node.edges, List.mem_append]
  constructor
  · rintro (held | named)
    · exact .held live held
    · cases runs : slot.node.code? with
      | none => simp [codeReferences_none runs] at named
      | some code => exact .named live runs ((names code target runs).2 named)
  · rintro (⟨live', held⟩ | ⟨live', runs, named⟩)
    · cases live.symm.trans live'
      exact .inl held
    · cases live.symm.trans live'
      exact .inr (((names _ target runs).1 named).resolve_left id)

theorem Preorder.mem_iff {root : Handle} (oneLabel : heap.OneLabel)
    (preorder : heap.Preorder Node.edges [] [root] listed) : handle ∈ listed ↔ heap.Reachable (· = root) handle := by
  constructor
  · refine preorder.sound ?_ ?_ handle
    · intro handle member slot live
      exact .root (List.mem_singleton.mp member) live
    · intro handle slot reached live child isChild slot' live'
      exact .step reached ((mem_edges_iff oneLabel live).mp isChild) live'
  · intro reached
    obtain ⟨roots, closed⟩ := preorder.complete
    induction reached with
    | root isRoot live => exact roots _ (List.mem_singleton.mpr isRoot) _ live
    | @step source target slot _ edge live ih =>
      have source : ∃ slot, heap.lookup source = .ok slot := by
        cases edge with
        | held live _ => exact ⟨_, live⟩
        | named live _ _ => exact ⟨_, live⟩
      obtain ⟨slot', live'⟩ := source
      exact closed _ ih slot' live' _ ((mem_edges_iff oneLabel live').mpr edge) slot live

theorem Reachable.live {isRoot : Handle → Prop} (reached : heap.Reachable isRoot handle) :
    ∃ slot, heap.lookup handle = .ok slot := by
  cases reached with
  | root _ live => exact ⟨_, live⟩
  | step _ _ live => exact ⟨_, live⟩

/-- A collection keeps what can be reached, as it is, and nothing else. -/
theorem Swept.lookup_iff {isRoot : Handle → Prop} {after : Heap} (swept : Swept isRoot heap after) (handle : Handle)
    (slot : Slot) : after.lookup handle = .ok slot ↔ heap.lookup handle = .ok slot ∧ heap.Reachable isRoot handle := by
  simp only [lookup_eq_ok]
  constructor
  · intro found
    have below : handle.index.toNat < heap.entries.size := swept.size ▸ (Array.getElem?_eq_some_iff.mp found).1
    have present : heap.entries[handle.index.toNat]? = some heap.entries[handle.index.toNat] :=
      Array.getElem?_eq_getElem below
    generalize heap.entries[handle.index.toNat] = entry at present
    obtain ⟨generation, content⟩ := entry
    cases content with
    | none => cases found.symm.trans (swept.empty _ _ present)
    | some old =>
      by_cases kept : heap.KeepsSlot isRoot handle.index.toNat
      · cases found.symm.trans (swept.kept _ _ _ present kept)
        obtain ⟨other, same, reached⟩ := kept
        obtain ⟨slot', live⟩ := reached.live
        obtain rfl := eq_of_lookup live (lookup_eq_ok.mpr present) same
        exact ⟨present, reached⟩
      · have emptied := found.symm.trans (swept.freed _ _ _ present kept)
        simp at emptied
  · rintro ⟨found, reached⟩
    exact swept.kept _ _ _ found ⟨handle, rfl, reached⟩

/-- Showing the graph under a root takes as many rounds as handles are met, and lists each node
that can be reached once, in the order of the recursion over all edges, with its state and the
edges that a collection follows. With no other roots, what is listed is what a collection from
this root keeps. -/
theorem graph_lists_collected (oneLabel : heap.OneLabel) (root : Handle) :
    (heap.visits Node.edges root).length = 1 + ((heap.graph root).map fun view => view.references.length).sum ∧
      (∀ listed, heap.Preorder Node.edges [] [root] listed ↔ listed = (heap.graph root).map NodeView.handle) ∧
      ((heap.graph root).map NodeView.handle).Nodup ∧
      (∀ handle, handle ∈ (heap.graph root).map NodeView.handle ↔ heap.Reachable (· = root) handle) ∧
      (∀ view ∈ heap.graph root, ∃ slot, heap.lookup view.handle = .ok slot ∧ view.state = slot.state ∧
        view.references = slot.node.references ++ (slot.node.codeReferences ∅).1 ∧
        ∀ target, target ∈ view.references ↔ heap.Edge view.handle target) ∧
      (heap.roots = [] → ∀ handle slot, (heap.collect [root]).2.lookup handle = .ok slot ↔
        handle ∈ (heap.graph root).map NodeView.handle ∧ heap.lookup handle = .ok slot) := by
  have listing : (heap.graph root).map NodeView.handle = (heap.visits Node.edges root).filterMap Visit.entered? := by
    simp only [graph, List.map_filterMap, Visit.map_view?]
  have preorder := heap.visits_preorder Node.edges root
  rw [← listing] at preorder
  have members : ∀ handle, handle ∈ (heap.graph root).map NodeView.handle ↔ heap.Reachable (· = root) handle :=
    fun handle => preorder.mem_iff oneLabel
  refine ⟨?_, fun listed => ⟨preorder.unique, ?_⟩, preorder.nodup.1, members, ?_, fun unrooted handle slot => ?_⟩
  · have rounds := heap.visitFrom_length .empty [(root, 0)] []
    simpa [visits, graph] using rounds
  · rintro rfl
    exact preorder
  · intro view member
    obtain ⟨visit, visited, shown⟩ := List.mem_filterMap.mp member
    obtain ⟨handle, depth, sight⟩ := visit
    cases sight with
    | first slot =>
      cases shown
      have live : heap.lookup handle = .ok slot := visitFrom_shows .empty [(root, 0)] (by simp) _ visited slot rfl
      exact ⟨slot, live, rfl, rfl, fun target => mem_edges_iff oneLabel live⟩
    | dead | again => cases shown
  · rw [(collect_swept oneLabel [root]).lookup_iff, members, unrooted, and_comm]
    simp

/-! ### A cycle shown from one of its nodes -/

def unrootedCycle : Heap :=
  { namedCycle with roots := [] }

theorem unrootedCycle_oneLabel : unrootedCycle.OneLabel := by
  have holds : ∀ {e}, unrootedCycle.HoldsCode e → namedCycle.HoldsCode e := by
    intro e held
    induction held with
    | node live runs => exact .node live runs
    | child _ member ih => exact .child ih member
  exact fun e e' held held' => namedCycle_oneLabel e e' (holds held) (holds held')

-- The thunk's environment dangles, and its code leads back; nothing leads to the last node.
theorem graph_lists_collected_cycle :
    (unrootedCycle.graph ⟨1, 0⟩).map NodeView.handle = [⟨1, 0⟩, ⟨0, 0⟩] ∧
      (unrootedCycle.collect [⟨1, 0⟩]).2.lookup ⟨0, 0⟩ = .ok ⟨.unevaluated, .thunk cycleCode [⟨9, 0⟩]⟩ ∧
      ∀ slot, (unrootedCycle.collect [⟨1, 0⟩]).2.lookup ⟨2, 0⟩ ≠ .ok slot := by
  obtain ⟨-, lists, -, -, -, kept⟩ := graph_lists_collected unrootedCycle_oneLabel ⟨1, 0⟩
  have edges : Node.edges (.thunk cycleCode [⟨9, 0⟩]) = [⟨9, 0⟩, ⟨1, 0⟩] := by decide +kernel
  have under : unrootedCycle.Preorder Node.edges [⟨1, 0⟩, ⟨0, 0⟩] (Node.edges (.thunk cycleCode [⟨9, 0⟩])) [] :=
    edges ▸ .dead rfl (.again (by simp) .done)
  have thunk : unrootedCycle.Preorder Node.edges [⟨1, 0⟩] [⟨0, 0⟩] [⟨0, 0⟩] :=
    @Preorder.first _ _ [⟨1, 0⟩] [] [] [] ⟨0, 0⟩ _ rfl (by decide) under .done
  have preorder : unrootedCycle.Preorder Node.edges [] [⟨1, 0⟩] [⟨1, 0⟩, ⟨0, 0⟩] :=
    @Preorder.first _ _ [] [] [⟨0, 0⟩] [] ⟨1, 0⟩ _ rfl (by decide) thunk .done
  have listing := ((lists _).mp preorder).symm
  rw [listing] at kept
  refine ⟨listing, (kept rfl _ _).mpr ⟨by simp, rfl⟩, fun slot found => ?_⟩
  have listed := ((kept rfl _ _).mp found).1
  simp at listed

end Heap

end LazyGraph

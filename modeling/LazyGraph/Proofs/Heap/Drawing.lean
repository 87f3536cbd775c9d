import LazyGraph.Proofs.Heap.Preorder

/-! The picture of a graph, as a recursive printer draws it.

The printer draws a node, then its children one after the other, each with all that is below
it, and remembers what it has drawn. The walk over a work list gives the same lines: what is
met again is noticed when its turn comes, not when it is put on the list. -/

set_option autoImplicit false

namespace LazyGraph

theorem Node.drawnChildren_eq (node : Node) :
    node.drawnChildren = if node.tag = .thunk then [] else node.references := by
  cases node <;> rfl

namespace Heap

variable {heap : Heap} {met drawn others : List Handle} {forest : List (Handle × Nat)} {lines : List String}
  {root handle : Handle} {indent : Nat}

/-- What the recursive printer writes for handles, each at an indentation of its own. `met` holds
the nodes drawn in full before, and `drawn` those that are drawn in full now. -/
inductive Drawing (heap : Heap) :
    (met : List Handle) → (forest : List (Handle × Nat)) → (drawn : List Handle) → (lines : List String) → Prop where
  | done {met : List Handle} : Drawing heap met [] [] []
  | dead {met drawn : List Handle} {forest : List (Handle × Nat)} {lines : List String} {handle : Handle} {indent : Nat}
      {fault : Fault} (gone : heap.lookup handle = .error fault) (later : Drawing heap met forest drawn lines) :
      Drawing heap met ((handle, indent) :: forest) drawn ((Text.spaces indent ++ handle.danglingText) :: lines)
  | again {met drawn : List Handle} {forest : List (Handle × Nat)} {lines : List String} {handle : Handle} {indent : Nat}
      {slot : Slot} (live : heap.lookup handle = .ok slot) (known : handle ∈ met)
      (later : Drawing heap met forest drawn lines) :
      Drawing heap met ((handle, indent) :: forest) drawn
        ((Text.spaces indent ++ ("^" ++ slot.node.tag.label ++ handle.text)) :: lines)
  | first {met below drawn : List Handle} {forest : List (Handle × Nat)} {under lines : List String} {handle : Handle}
      {indent : Nat} {slot : Slot} (live : heap.lookup handle = .ok slot) (fresh : handle ∉ met)
      (inner : Drawing heap (met ++ [handle]) (slot.node.drawnChildren.map (·, indent + 2)) below under)
      (later : Drawing heap (met ++ handle :: below) forest drawn lines) :
      Drawing heap met ((handle, indent) :: forest) (handle :: (below ++ drawn))
        ((Text.spaces indent ++ (slot.node.tag.label ++ handle.text ++ " " ++ slot.payload)) :: (under ++ lines))

def childCount (heap : Heap) (handle : Handle) : Nat :=
  match heap.lookup handle with
  | .ok slot => slot.node.drawnChildren.length
  | .error _ => 0

/-- References lead from the root to the node, and no thunk is passed. -/
inductive InSight (heap : Heap) (root : Handle) : Handle → Prop where
  | root {slot : Slot} (live : heap.lookup root = .ok slot) : InSight heap root root
  | child {node child : Handle} {slot slot' : Slot} (seen : InSight heap root node) (found : heap.lookup node = .ok slot)
      (evaluated : slot.node.tag ≠ .thunk) (member : child ∈ slot.node.references) (live : heap.lookup child = .ok slot') :
      InSight heap root child

namespace Drawing

/-- The nodes drawn in full are those of the recursion over the children. -/
theorem preorder (drawing : heap.Drawing met forest drawn lines) :
    heap.Preorder Node.drawnChildren met (forest.map Prod.fst) drawn := by
  induction drawing with
  | done => exact .done
  | dead gone _ ih => exact .dead gone ih
  | again _ known _ ih => exact .again known ih
  | @first met below drawn forest under lines handle indent slot live fresh _ _ inner outer =>
    have children : (slot.node.drawnChildren.map fun child => (child, indent + 2)).map Prod.fst = slot.node.drawnChildren := by
      simp [Function.comp_def]
    rw [children] at inner
    exact .first live fresh inner outer

theorem split {left right : List (Handle × Nat)} (drawing : heap.Drawing met (left ++ right) drawn lines) :
    ∃ early late above below, drawn = early ++ late ∧ lines = above ++ below ∧
      heap.Drawing met left early above ∧ heap.Drawing (met ++ early) right late below := by
  generalize joined : left ++ right = forest at drawing
  induction drawing generalizing left with
  | done =>
    obtain ⟨rfl, rfl⟩ := List.append_eq_nil_iff.mp joined
    exact ⟨[], [], [], [], rfl, rfl, .done, .done⟩
  | @dead met drawn forest lines handle indent fault gone later ih =>
    rcases List.append_eq_cons_iff.mp joined with ⟨rfl, rfl⟩ | ⟨left, rfl, tail⟩
    · exact ⟨[], drawn, [], _, rfl, rfl, .done, (List.append_nil met).symm ▸ .dead gone later⟩
    · obtain ⟨early, late, above, below, rfl, rfl, before, after⟩ := ih tail.symm
      exact ⟨early, late, _ :: above, below, rfl, rfl, .dead gone before, after⟩
  | @again met drawn forest lines handle indent slot live known later ih =>
    rcases List.append_eq_cons_iff.mp joined with ⟨rfl, rfl⟩ | ⟨left, rfl, tail⟩
    · exact ⟨[], drawn, [], _, rfl, rfl, .done, (List.append_nil met).symm ▸ .again live known later⟩
    · obtain ⟨early, late, above, below, rfl, rfl, before, after⟩ := ih tail.symm
      exact ⟨early, late, _ :: above, below, rfl, rfl, .again live known before, after⟩
  | @first met inside drawn forest under lines handle indent slot live fresh inner later _ ih =>
    rcases List.append_eq_cons_iff.mp joined with ⟨rfl, rfl⟩ | ⟨left, rfl, tail⟩
    · exact ⟨[], _, [], _, rfl, rfl, .done, (List.append_nil met).symm ▸ .first live fresh inner later⟩
    · obtain ⟨early, late, above, below, rfl, rfl, before, after⟩ := ih tail.symm
      refine ⟨_, late, _, below, ?_, ?_, .first live fresh inner before, ?_⟩
      · simp
      · simp
      · simpa using after

theorem unique {written : List String} (drawing : heap.Drawing met forest drawn lines)
    (again : heap.Drawing met forest others written) : others = drawn ∧ written = lines := by
  induction drawing generalizing others written with
  | done =>
    cases again
    exact ⟨rfl, rfl⟩
  | dead gone _ ih =>
    cases again with
    | dead _ later =>
      obtain ⟨rfl, rfl⟩ := ih later
      exact ⟨rfl, rfl⟩
    | again live _ _ => cases gone.symm.trans live
    | first live _ _ _ => cases gone.symm.trans live
  | again live known _ ih =>
    cases again with
    | dead gone _ => cases gone.symm.trans live
    | again live' _ later =>
      cases live.symm.trans live'
      obtain ⟨rfl, rfl⟩ := ih later
      exact ⟨rfl, rfl⟩
    | first _ fresh _ _ => exact absurd known fresh
  | first live fresh _ _ inner outer =>
    cases again with
    | dead gone _ => cases gone.symm.trans live
    | again _ known _ => exact absurd known fresh
    | first live' _ under later =>
      cases live.symm.trans live'
      obtain ⟨rfl, rfl⟩ := inner under
      obtain ⟨rfl, rfl⟩ := outer later
      exact ⟨rfl, rfl⟩

/-- A line for each handle of the forest, and for each child of what is drawn in full. -/
theorem length (drawing : heap.Drawing met forest drawn lines) :
    lines.length = forest.length + (drawn.map heap.childCount).sum := by
  induction drawing with
  | done => rfl
  | dead _ _ ih =>
    simp only [List.length_cons]
    omega
  | again _ _ _ ih =>
    simp only [List.length_cons]
    omega
  | @first met below drawn forest under lines handle indent slot live _ _ _ inner outer =>
    have count : heap.childCount handle = slot.node.drawnChildren.length := by simp [childCount, live]
    simp only [List.length_cons, List.length_append, List.length_map, List.map_cons, List.map_append, List.sum_cons,
      List.sum_append, count] at inner outer ⊢
    omega

end Drawing

theorem visitFrom_drawing (indent : Nat) (marks : Marks) (work : List (Handle × Nat)) (visited : List Visit)
    (notes : heap.Notes marks met) :
    ∃ drawn lines, heap.Drawing met (work.map fun item => (item.1, indent + 2 * item.2)) drawn lines ∧
      (heap.visitFrom Node.drawnChildren marks work visited).map (Visit.line indent) =
        visited.reverse.map (Visit.line indent) ++ lines := by
  fun_induction Heap.visitFrom heap Node.drawnChildren marks work visited generalizing met with
  | case1 => exact ⟨[], [], .done, (List.append_nil _).symm⟩
  | case2 marks visited handle depth rest fault found ih =>
    obtain ⟨drawn, lines, drawing, same⟩ := ih notes
    exact ⟨drawn, _, .dead found drawing, by simpa [Visit.line] using same⟩
  | case3 marks visited handle depth rest slot found known ih =>
    obtain ⟨drawn, lines, drawing, same⟩ := ih notes
    exact ⟨drawn, _, .again found ((notes _ _ found).mp known) drawing, by simpa [Visit.line] using same⟩
  | case4 marks visited handle depth rest slot found fresh ih =>
    obtain ⟨drawn, lines, drawing, same⟩ := ih (notes.insert found)
    have deeper : indent + 2 * (depth + 1) = indent + 2 * depth + 2 := by omega
    simp only [List.map_append, List.map_map, Function.comp_def, deeper] at drawing
    obtain ⟨below, later, under, after, rfl, rfl, inner, outer⟩ := drawing.split
    refine ⟨_, _, .first found (mt (notes _ _ found).mpr fresh) inner (by simpa using outer), ?_⟩
    simpa [Visit.line] using same

theorem renderLines_drawing (heap : Heap) (root : Handle) (indent : Nat) :
    ∃ drawn, heap.Drawing [] [(root, indent)] drawn (heap.renderLines root indent) := by
  have notes : heap.Notes .empty [] := fun handle slot live => by simp
  obtain ⟨drawn, lines, drawing, same⟩ := @visitFrom_drawing heap [] indent .empty [(root, 0)] [] notes
  refine ⟨drawn, ?_⟩
  rw [renderLines, visits, same]
  exact drawing

/-- The recursion that passes no thunk lists what can be seen from the root. -/
theorem Preorder.mem_inSight_iff (preorder : heap.Preorder Node.drawnChildren [] [root] drawn) :
    handle ∈ drawn ↔ heap.InSight root handle := by
  constructor
  · refine preorder.sound ?_ ?_ handle
    · intro handle member slot live
      cases List.mem_singleton.mp member
      exact .root live
    · intro node slot seen found child member slot' live
      rw [Node.drawnChildren_eq] at member
      split at member
      · cases member
      · rename_i evaluated
        exact .child seen found evaluated member live
  · obtain ⟨roots, closed⟩ := preorder.complete
    intro seen
    induction seen with
    | root live => exact roots _ (List.mem_singleton.mpr rfl) _ live
    | child _ found evaluated member live ih =>
      refine closed _ ih _ found _ ?_ _ live
      rw [Node.drawnChildren_eq, if_neg evaluated]
      exact member

/-- A picture consists of the lines that the recursive printer writes for its root. Of the live
nodes, each that references lead to from the root without passing a thunk is drawn in full,
once; and there is a line for the root, and one for each child of a node drawn in full. -/
theorem render_draws_preorder (heap : Heap) (root : Handle) (indent : Nat) :
    heap.render root indent = "\n".intercalate (heap.renderLines root indent) ∧
      ∃ drawn : List Handle,
        (∀ others lines, heap.Drawing [] [(root, indent)] others lines ↔
          others = drawn ∧ lines = heap.renderLines root indent) ∧
        drawn.Nodup ∧ (∀ handle, handle ∈ drawn ↔ heap.InSight root handle) ∧
        (heap.renderLines root indent).length = 1 + (drawn.map heap.childCount).sum := by
  obtain ⟨drawn, drawing⟩ := heap.renderLines_drawing root indent
  refine ⟨rfl, drawn, fun others lines => ⟨drawing.unique, ?_⟩, drawing.preorder.nodup.1, fun handle => drawing.preorder.mem_inSight_iff, ?_⟩
  · rintro ⟨rfl, rfl⟩
    exact drawing
  · exact drawing.length

end Heap

end LazyGraph

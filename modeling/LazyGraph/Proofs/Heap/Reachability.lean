import LazyGraph.Proofs.Code.Names
import LazyGraph.Proofs.Heap.MarkSet

/-! What marking finds: the slots that can be reached from the roots.

A handle is met once it waits or once its slot, if it names one, is marked. Every edge
out of a marked slot leads to a handle that was met, and every label in the set stands
for code whose names were met; when nothing waits any more, the marked slots are closed
under edges. -/

set_option autoImplicit false

namespace LazyGraph.Heap

/-! ### Reachability -/

-- What a live node holds, and what its code names.
inductive Edge (heap : Heap) (source target : Handle) : Prop where
  | held {slot : Slot} (live : heap.lookup source = .ok slot) (member : target ∈ slot.node.references)
  | named {slot : Slot} {code : Expr} (live : heap.lookup source = .ok slot)
      (runs : slot.node.code? = some code) (names : code.Names target)

/-- Edges lead from live roots to live nodes; a stale or dangling handle leads nowhere. -/
inductive Reachable (heap : Heap) (isRoot : Handle → Prop) : Handle → Prop where
  | root {handle : Handle} {slot : Slot} (root : isRoot handle) (live : heap.lookup handle = .ok slot) :
      Reachable heap isRoot handle
  | step {source target : Handle} {slot : Slot} (reached : Reachable heap isRoot source)
      (edge : heap.Edge source target) (live : heap.lookup target = .ok slot) :
      Reachable heap isRoot target

-- The code of live nodes, with all its parts.
inductive HoldsCode (heap : Heap) : Expr → Prop where
  | node {handle : Handle} {slot : Slot} {code : Expr} (live : heap.lookup handle = .ok slot)
      (runs : slot.node.code? = some code) : HoldsCode heap code
  | child {e child : Expr} (inside : HoldsCode heap e) (member : child ∈ e.children) : HoldsCode heap child

/-- A label says which expression of the heap's code is meant. -/
def OneLabel (heap : Heap) : Prop :=
  ∀ e e', heap.HoldsCode e → heap.HoldsCode e' → e.label = e'.label → e = e'

theorem OneLabel.labelled {heap : Heap} (oneLabel : heap.OneLabel) : Expr.Labelled heap.HoldsCode :=
  ⟨.child, oneLabel _ _⟩

/-! ### Marking -/

variable {heap : Heap} {isRoot : Handle → Prop} {marks : Marks} {labels : Labels} {work : List Handle}
  {handle source target : Handle} {slot : Slot}

-- The handle waits, or it needs no more attention.
def Met (heap : Heap) (marks : Marks) (work : List Handle) (handle : Handle) : Prop :=
  handle ∈ work ∨ ∀ slot, heap.lookup handle = .ok slot → marks.contains handle.index.toNat

structure MarkInvariant (heap : Heap) (isRoot : Handle → Prop) (marks : Marks) (labels : Labels)
    (work : List Handle) : Prop where
  sound : ∀ index, marks.contains index → ∃ handle : Handle, handle.index.toNat = index ∧ heap.Reachable isRoot handle
  waiting : ∀ handle ∈ work, isRoot handle ∨ ∃ source, heap.Reachable isRoot source ∧ heap.Edge source handle
  roots : ∀ handle, isRoot handle → heap.Met marks work handle
  edges : ∀ source target, heap.Edge source target → marks.contains source.index.toNat →
    heap.Met marks work target
  code : Expr.Read heap.HoldsCode [] labels (heap.Met marks work)

/-- Past labels read before, a node's code yields all it names that is not known yet. -/
theorem codeReferences_read {known : Handle → Prop} (oneLabel : heap.OneLabel)
    (live : heap.lookup handle = .ok slot) (read : Expr.Read heap.HoldsCode [] labels known) :
    Expr.Read heap.HoldsCode [] (slot.node.codeReferences labels).2
        (fun target => known target ∨ target ∈ (slot.node.codeReferences labels).1) ∧
      ∀ code target, slot.node.code? = some code →
        (code.Names target → known target ∨ target ∈ (slot.node.codeReferences labels).1) ∧
        (target ∈ (slot.node.codeReferences labels).1 → code.Names target) := by
  unfold Node.codeReferences
  cases runs : slot.node.code? with
  | none => exact ⟨read.mono fun target => .inl, fun code target isNone => nomatch isNone⟩
  | some code =>
    obtain ⟨read', names⟩ := Expr.globalsFrom_read oneLabel.labelled (.node live runs) read
    refine ⟨read', ?_⟩
    rintro _ target ⟨⟩
    exact ⟨names target, Expr.names_of_globalsFrom⟩

theorem codeReferences_none (runs : slot.node.code? = none) : (slot.node.codeReferences labels).1 = [] := by
  simp [Node.codeReferences, runs]

namespace MarkInvariant

theorem drop (invariant : MarkInvariant heap isRoot marks labels (handle :: work))
    (settled : ∀ slot, heap.lookup handle = .ok slot → marks.contains handle.index.toNat) :
    MarkInvariant heap isRoot marks labels work := by
  have met : ∀ other, heap.Met marks (handle :: work) other → heap.Met marks work other := by
    rintro other (waits | done)
    · rcases List.mem_cons.mp waits with rfl | waits
      · exact .inr settled
      · exact .inl waits
    · exact .inr done
  exact {
    sound := invariant.sound
    waiting := fun other member => invariant.waiting other (.tail _ member)
    roots := fun other isRoot => met other (invariant.roots other isRoot)
    edges := fun source target edge marked => met target (invariant.edges source target edge marked)
    code := invariant.code.mono met }

theorem reachable (invariant : MarkInvariant heap isRoot marks labels (handle :: work))
    (live : heap.lookup handle = .ok slot) : heap.Reachable isRoot handle := by
  rcases invariant.waiting handle (.head _) with root | ⟨source, reached, edge⟩
  · exact .root root live
  · exact .step reached edge live

theorem enter (oneLabel : heap.OneLabel) (invariant : MarkInvariant heap isRoot marks labels (handle :: work))
    (live : heap.lookup handle = .ok slot) :
    MarkInvariant heap isRoot (marks.insert handle.index.toNat) (slot.node.codeReferences labels).2
      ((slot.node.codeReferences labels).1.reverse ++ (slot.node.references.reverse ++ work)) := by
  obtain ⟨read, names⟩ := codeReferences_read oneLabel live invariant.code
  have met : ∀ other, heap.Met marks (handle :: work) other → heap.Met (marks.insert handle.index.toNat)
      ((slot.node.codeReferences labels).1.reverse ++ (slot.node.references.reverse ++ work)) other := by
    rintro other (waits | done)
    · rcases List.mem_cons.mp waits with rfl | waits
      · exact .inr (by simp)
      · exact .inl (List.mem_append_right _ (List.mem_append_right _ waits))
    · exact .inr fun slot live => by simp [done slot live]
  constructor
  case sound =>
    intro index marked
    by_cases same : handle.index.toNat = index
    · exact ⟨handle, same, invariant.reachable live⟩
    · exact invariant.sound index (by simpa [same] using marked)
  case waiting =>
    intro other member
    rcases List.mem_append.mp member with member | member
    · cases runs : slot.node.code? with
      | none => simp [codeReferences_none runs] at member
      | some code =>
        have named := (names code other runs).2 (List.mem_reverse.mp member)
        exact .inr ⟨handle, invariant.reachable live, .named live runs named⟩
    · rcases List.mem_append.mp member with member | member
      · exact .inr ⟨handle, invariant.reachable live, .held live (List.mem_reverse.mp member)⟩
      · exact invariant.waiting other (.tail _ member)
  case roots => exact fun other isRoot => met other (invariant.roots other isRoot)
  case edges =>
    intro source target edge marked
    by_cases same : handle.index.toNat = source.index.toNat
    · -- the slot just marked: live handles with one index are one handle
      have shared : ∀ {slot'}, heap.lookup source = .ok slot' → slot' = slot := by
        intro slot' live'
        obtain rfl := eq_of_lookup live live' same
        exact Except.ok.inj (live'.symm.trans live)
      cases edge with
      | held live' member =>
        obtain rfl := shared live'
        exact .inl (List.mem_append_right _ (List.mem_append_left _ (List.mem_reverse.mpr member)))
      | named live' runs written =>
        obtain rfl := shared live'
        rcases (names _ target runs).1 written with known | isFound
        · exact met target known
        · exact .inl (List.mem_append_left _ (List.mem_reverse.mpr isFound))
    · exact met target (invariant.edges source target edge (by simpa [same] using marked))
  case code =>
    refine read.mono ?_
    rintro target (known | isFound)
    · exact met target known
    · exact .inl (List.mem_append_left _ (List.mem_reverse.mpr isFound))

/-- When nothing waits, the marked slots are those that can be reached. -/
theorem contains_iff (invariant : MarkInvariant heap isRoot marks labels []) (index : Nat) :
    marks.contains index ↔ ∃ handle : Handle, handle.index.toNat = index ∧ heap.Reachable isRoot handle := by
  refine ⟨invariant.sound index, ?_⟩
  have marked : ∀ handle, heap.Reachable isRoot handle → marks.contains handle.index.toNat := by
    intro handle reached
    induction reached with
    | root isRoot live => exact (invariant.roots _ isRoot).resolve_left (by simp) _ live
    | step _ edge live ih => exact (invariant.edges _ _ edge ih).resolve_left (by simp) _ live
  rintro ⟨handle, rfl, reached⟩
  exact marked handle reached

end MarkInvariant

theorem markFrom_invariant (oneLabel : heap.OneLabel) {work : Stack Handle} (peak : Nat)
    (invariant : MarkInvariant heap isRoot marks labels work.items) :
    ∃ labels', MarkInvariant heap isRoot (heap.markFrom marks labels work peak).marks labels' [] := by
  fun_induction markFrom heap marks labels work peak with
  | case1 marks labels work peak popped =>
    rw [Stack.pop?_eq_none.mp popped] at invariant
    exact ⟨labels, invariant⟩
  | case2 marks labels work peak handle rest popped fault found ih =>
    rw [Stack.pop?_eq_some popped] at invariant
    exact ih (invariant.drop fun slot live => by simp [found] at live)
  | case3 marks labels work peak handle rest popped slot found met ih =>
    rw [Stack.pop?_eq_some popped] at invariant
    exact ih (invariant.drop fun _ _ => met)
  | case4 marks labels work peak handle rest popped slot found unmet named grown ih =>
    rw [Stack.pop?_eq_some popped] at invariant
    have entered := invariant.enter oneLabel found
    exact ih (by simpa [grown, named] using entered)

theorem mark_contains_iff (oneLabel : heap.OneLabel) (roots : List Handle) (index : Nat) :
    (heap.mark roots).marks.contains index ↔
      ∃ handle : Handle, handle.index.toNat = index ∧ heap.Reachable (· ∈ roots) handle := by
  have initial : MarkInvariant heap (· ∈ roots) .empty ∅ (Stack.ofList roots).items := by
    constructor
    case sound => simp
    case waiting => exact fun handle member => .inl (by simpa using member)
    case roots => exact fun handle member => .inl (by simpa using member)
    case edges => simp
    case code => exact fun e _ met => absurd met (by simp)
  obtain ⟨labels, final⟩ := markFrom_invariant oneLabel roots.length initial
  exact final.contains_iff index

end LazyGraph.Heap

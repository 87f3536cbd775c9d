import LazyGraph.Proofs.Heap.Assignment
import LazyGraph.Proofs.Heap.Collection
import LazyGraph.Proofs.Heap.Views
import LazyGraph.Proofs.Renaming.Lockstep
import LazyGraph.Proofs.Sharing.Transparency

/-! Collections do not show in results.

A handle that the heap has issued names the same slot after a collection, or still names
nothing, if the roots lead to it. So nothing that only looks at the graph can tell that a
collection has run. Calls can: new nodes get other handles, in slots that were freed. But the
collected heap is a twin of the heap as it was, with each handle paired with itself, and
evaluators with twin heaps go on in lockstep. -/

set_option autoImplicit false

namespace LazyGraph

namespace Heap

variable {heap before after : Heap} {isRoot : Handle → Prop} {handle source target : Handle} {slot : Slot}

/-! ### What roots lead to -/

/-- The roots, and what is held or named by the nodes that they reach. -/
def Under (heap : Heap) (isRoot : Handle → Prop) (handle : Handle) : Prop :=
  isRoot handle ∨ ∃ source, heap.Reachable isRoot source ∧ heap.Edge source handle

theorem Under.reachable (under : heap.Under isRoot handle) (found : heap.lookup handle = .ok slot) :
    heap.Reachable isRoot handle := by
  rcases under with root | ⟨source, reached, edge⟩
  · exact .root root found
  · exact .step reached edge found

theorem Under.edge (under : heap.Under isRoot source) (edge : heap.Edge source target) : heap.Under isRoot target := by
  have live : ∃ slot, heap.lookup source = .ok slot := by cases edge <;> exact ⟨_, ‹_›⟩
  obtain ⟨slot, found⟩ := live
  exact .inr ⟨source, under.reachable found, edge⟩

theorem Under.trans {isRoot' : Handle → Prop} (under : heap.Under isRoot handle)
    (roots : ∀ root, isRoot root → heap.Under isRoot' root) : heap.Under isRoot' handle := by
  have reached : ∀ {source}, heap.Reachable isRoot source → heap.Under isRoot' source := by
    intro source reached
    induction reached with
    | root root _ => exact roots _ root
    | step _ edge _ ih => exact ih.edge edge
  rcases under with root | ⟨source, reaches, edge⟩
  · exact roots handle root
  · exact (reached reaches).edge edge

/-- What the roots lead to is its own copy, if it calls no host function. -/
theorem Under.node_alike
    (hostFree : ∀ {handle slot code}, heap.Reachable isRoot handle → heap.lookup handle = .ok slot →
      slot.node.code? = some code → code.HostFree)
    (short : ∀ {handle slot code part bindings body}, heap.Reachable isRoot handle → heap.lookup handle = .ok slot →
      slot.node.code? = some code → Expr.Part part code → part.form = .letrec bindings body → bindings.length < UInt64.size)
    (under : heap.Under isRoot handle) (found : heap.lookup handle = .ok slot) :
    slot.node.Alike (heap.Under isRoot) (fun target target' => heap.Under isRoot target ∧ target = target') slot.node := by
  have reached := under.reachable found
  have references : List.Forall₂ (fun target target' => heap.Under isRoot target ∧ target = target')
      slot.node.references slot.node.references :=
    List.forall₂_same.mpr fun target member => ⟨under.edge (.held found member), rfl⟩
  have code : ∀ code, slot.node.code? = some code → code.Sealed (heap.Under isRoot) := fun code runs =>
    ⟨⟨hostFree reached found runs, fun target names => under.edge (.named found runs names)⟩,
      fun _ _ _ => short reached found runs⟩
  generalize slot.node = node at references code
  cases node with
  | char | int | double | object => constructor
  | data => exact .data references
  | function => exact .function (code _ rfl) references
  | indirection => exact .indirection (List.forall₂_cons.mp references).1
  | thunk => exact .thunk (code _ rfl) references

/-- The handle was handed out: its slot has had the generation, and is not free in it. -/
def Issued (heap : Heap) (handle : Handle) : Prop :=
  ∃ entry, heap.entries[handle.index.toNat]? = some entry ∧ handle.generation ≤ entry.generation ∧
    (handle.generation = entry.generation → handle.index ∉ heap.free)

theorem Live.issued (live : heap.Live handle) (sound : heap.FreeListSound) : heap.Issued handle := by
  obtain ⟨slot, found⟩ := live
  refine ⟨_, lookup_eq_ok.mp found, Nat.le_refl _, fun _ listed => ?_⟩
  obtain ⟨generation, empty⟩ := sound.empty _ listed
  cases empty.symm.trans (lookup_eq_ok.mp found)

/-- Each slot can be freed once more under a new generation. -/
def Renewable (heap : Heap) : Prop :=
  ∀ entry ∈ heap.entries, entry.generation < entry.generation + 1

/-! ### Sweeping -/

theorem Issued.granted (issued : heap.Issued handle) : ¬ heap.Offers handle := by
  obtain ⟨entry, present, _, taken⟩ := issued
  rintro (beyond | ⟨listed, content, present'⟩)
  · exact absurd (Array.getElem?_eq_some_iff.mp present).1 (Nat.not_lt_of_le beyond)
  · cases present.symm.trans present'
    exact taken rfl listed

/-- What the roots lead to names what it named, or nothing still. -/
theorem Swept.lookup (swept : Swept isRoot before after) (renewable : before.Renewable) (under : before.Under isRoot handle)
    (issued : before.Issued handle) : after.lookup handle = before.lookup handle := by
  obtain ⟨⟨generation, content⟩, present, past, _⟩ := issued
  cases content with
  | none =>
    have present' := swept.empty _ _ present
    rw [Heap.lookup, Heap.lookup, present, present']
  | some slot =>
    by_cases keeps : before.KeepsSlot isRoot handle.index.toNat
    · have present' := swept.kept _ _ _ present keeps
      rw [Heap.lookup, Heap.lookup, present, present']
    · -- a live handle would be reached, so this one is of an earlier generation
      have stale : generation ≠ handle.generation := by
        rintro rfl
        have found : before.lookup handle = .ok slot := lookup_eq_ok.mpr present
        exact keeps ⟨handle, rfl, under.reachable found⟩
      have present' := swept.freed _ _ _ present keeps
      have later : generation < generation + 1 := renewable _ (Array.mem_of_getElem? present)
      have stale' : generation + 1 ≠ handle.generation := by
        rintro same
        exact absurd (Nat.lt_of_lt_of_le later (same ▸ past)) (Nat.lt_irrefl _)
      simp only [Heap.lookup, present, present', if_neg stale, if_neg stale']

/-- A handle that was issued is not handed out again after a sweep. -/
theorem Swept.granted (swept : Swept isRoot before after) (renewable : before.Renewable) (fits : before.Addressable)
    (free : after.FreeListSound) (issued : before.Issued handle) : ¬ after.Offers handle := by
  obtain ⟨⟨generation, content⟩, present, past, taken⟩ := issued
  have bound := (Array.getElem?_eq_some_iff.mp present).1
  rintro (beyond | ⟨listed, content', present'⟩)
  · exact absurd bound (Nat.not_lt_of_le (swept.size ▸ beyond))
  · cases content with
    | none =>
      cases (swept.empty _ _ present).symm.trans present'
      obtain ⟨freed, _, isFreed, list⟩ := swept.free
      rw [list, List.mem_append, List.mem_reverse, List.mem_map] at listed
      rcases listed with ⟨index, wasFreed, same⟩ | listed
      · obtain ⟨⟨slot, held⟩, _⟩ := (isFreed index).mp wasFreed
        obtain ⟨entry, there, _⟩ := Option.bind_eq_some_iff.mp held
        have below : index < UInt32.size := Nat.lt_of_lt_of_le (Array.getElem?_eq_some_iff.mp there).1 fits
        have place : handle.index.toNat = index := by rw [← same, UInt32.toNat_ofNat_of_lt' below]
        rw [← place, slotAt?, present] at held
        cases held
      · exact taken rfl listed
    | some slot =>
      by_cases keeps : before.KeepsSlot isRoot handle.index.toNat
      · cases (swept.kept _ _ _ present keeps).symm.trans present'
        obtain ⟨_, empty⟩ := free.empty _ listed
        cases present'.symm.trans empty
      · have same := (swept.freed _ _ _ present keeps).symm.trans present'
        simp only [Option.some.injEq, Entry.mk.injEq] at same
        have later : generation < generation + 1 := renewable _ (Array.mem_of_getElem? present)
        exact absurd (Nat.lt_of_lt_of_le later (same.1 ▸ past)) (Nat.lt_irrefl _)

/-! ### The collected heap -/

/-- The heap is at rest and can grow, and what the roots lead to was issued and calls no host function. -/
structure Collectable (heap : Heap) (isRoot : Handle → Prop) : Prop where
  free : heap.FreeListSound
  fits : heap.Addressable
  unbounded : heap.maxNodes = none
  unawaited : heap.waits = []
  oneLabel : heap.OneLabel
  renewable : heap.Renewable
  issued : ∀ {handle}, heap.Under isRoot handle → heap.Issued handle
  hostFree : ∀ {handle slot code}, heap.Reachable isRoot handle → heap.lookup handle = .ok slot →
    slot.node.code? = some code → code.HostFree
  short : ∀ {handle slot code part bindings body}, heap.Reachable isRoot handle → heap.lookup handle = .ok slot →
    slot.node.code? = some code → Expr.Part part code → part.form = .letrec bindings body → bindings.length < UInt64.size

variable {extra : List Handle}

theorem Collectable.lookup (collectable : heap.Collectable isRoot)
    (kept : ∀ root, isRoot root → heap.Under (· ∈ heap.roots.map Prod.fst ++ extra) root) (under : heap.Under isRoot handle) :
    (heap.collect extra).2.lookup handle = heap.lookup handle :=
  (collect_swept collectable.oneLabel extra).lookup collectable.renewable (under.trans kept) (collectable.issued under)

theorem Collectable.agreeOn (collectable : heap.Collectable isRoot)
    (kept : ∀ root, isRoot root → heap.Under (· ∈ heap.roots.map Prod.fst ++ extra) root) :
    heap.AgreeOn (heap.Under isRoot) (heap.collect extra).2 where
  lookup := collectable.lookup kept
  closed := by
    intro handle slot target under found member
    rcases List.mem_append.mp member with held | named
    · exact under.edge (.held found held)
    · cases runs : slot.node.code? with
      | none =>
        rw [codeReferences_none runs] at named
        cases named
      | some code =>
        rw [Node.codeReferences, runs] at named
        exact under.edge (.named found runs (Expr.names_of_globalsFrom named))

theorem Collectable.node_alike (collectable : heap.Collectable isRoot) (under : heap.Under isRoot handle)
    (found : heap.lookup handle = .ok slot) :
    slot.node.Alike (heap.Under isRoot) (fun target target' => heap.Under isRoot target ∧ target = target') slot.node :=
  under.node_alike collectable.hostFree collectable.short found

theorem Collectable.twins (collectable : heap.Collectable isRoot)
    (kept : ∀ root, isRoot root → heap.Under (· ∈ heap.roots.map Prod.fst ++ extra) root) :
    heap.Twins Eq (heap.Under isRoot) (fun handle handle' => heap.Under isRoot handle ∧ handle = handle')
      (heap.collect extra).2 where
  free := ⟨collectable.free, (collect_sweeps heap extra).free collectable.fits collectable.free⟩
  unbounded := ⟨collectable.unbounded, collectable.unbounded⟩
  exactly := by
    rintro handle _ other _ ⟨_, rfl⟩ ⟨_, rfl⟩
    exact Iff.rfl
  named := fun _ under => ⟨under, rfl⟩
  slots := by
    rintro handle _ ⟨under, rfl⟩
    rw [collectable.lookup kept under]
    cases found : heap.lookup handle with
    | error fault => exact rfl
    | ok slot =>
      refine ⟨?_, collectable.node_alike under found⟩
      cases slot.state with
      | unevaluated => exact .unevaluated
      | inProgress owner => exact .inProgress rfl
      | evaluated => exact .evaluated
  granted := by
    rintro handle _ ⟨under, rfl⟩
    have issued := collectable.issued under
    exact ⟨issued.granted, (collect_swept collectable.oneLabel extra).granted collectable.renewable collectable.fits
      ((collect_sweeps heap extra).free collectable.fits collectable.free) issued⟩
  waits := by
    have same : (heap.collect extra).2.waits = heap.waits := rfl
    rw [same, collectable.unawaited]
    exact .nil

end Heap

end LazyGraph

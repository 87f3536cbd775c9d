import LazyGraph.Proofs.Heap.Waiting
import LazyGraph.Proofs.Renaming.Abreast

/-! Heaps that differ in the names of their nodes.

In twin heaps paired handles name slots that are alike, or both name nothing. No handle has
two partners, so walks along indirections take the same turns, and one slot is claimed,
completed, released or redirected when its partner is. -/

set_option autoImplicit false

namespace LazyGraph

section

variable (peers : Actor → Actor → Prop) (known : Handle → Prop) (pairs : Pairing)

inductive SlotState.Alike : SlotState → SlotState → Prop where
  | unevaluated : Alike .unevaluated .unevaluated
  | inProgress {owner owner' : Actor} (both : peers owner owner') : Alike (.inProgress owner) (.inProgress owner')
  | evaluated : Alike .evaluated .evaluated

structure Slot.Alike (slot slot' : Slot) : Prop where
  state : SlotState.Alike peers slot.state slot'.state
  node : slot.node.Alike known pairs slot'.node

structure Heap.Twins (left right : Heap) : Prop where
  free : left.FreeListSound ∧ right.FreeListSound
  unbounded : left.maxNodes = none ∧ right.maxNodes = none
  exactly : OneToOne pairs
  named : ∀ handle, known handle → pairs handle handle
  slots : ∀ {handle handle'}, pairs handle handle' →
    Coincide (Slot.Alike peers known pairs) (left.lookup handle) (right.lookup handle')
  granted : ∀ {handle handle'}, pairs handle handle' → ¬ left.Offers handle ∧ ¬ right.Offers handle'
  waits : List.Forall₂ (fun wait wait' => peers wait.1 wait'.1 ∧ pairs wait.2 wait'.2) left.waits right.waits

inductive Landing.Alike : Landing → Landing → Prop where
  | at {handle handle' : Handle} {slot slot' : Slot} (both : pairs handle handle')
      (alike : slot.Alike peers known pairs slot') : Alike (.at handle slot) (.at handle' slot')
  | loop {handle handle' : Handle} (both : pairs handle handle') : Alike (.loop handle) (.loop handle')
  | broken {fault fault' : Fault} (kind : fault.kind = fault'.kind) : Alike (.broken fault) (.broken fault')

end

variable {peers : Actor → Actor → Prop} {known : Handle → Prop} {pairs pairs' : Pairing} {left right left' right' : Heap}
  {handle handle' : Handle} {slot slot' : Slot}

theorem Slot.Alike.mono (alike : slot.Alike peers known pairs slot') (wider : pairs.Extends pairs') :
    slot.Alike peers known pairs' slot' :=
  ⟨alike.state, alike.node.mono wider⟩

theorem SlotState.Alike.heldByOther {state state' : SlotState} {actor actor' : Actor} (states : state.Alike peers state')
    (exactly : OneToOne peers) (actors : peers actor actor') : state.heldByOther actor = state'.heldByOther actor' := by
  cases states with
  | unevaluated | evaluated => rfl
  | inProgress owners => simp [SlotState.heldByOther, exactly owners actors]

theorem Slot.ofNode_alike {node node' : Node} (alike : node.Alike known pairs node') :
    (Slot.ofNode node).Alike peers known pairs (.ofNode node') := by
  refine ⟨?_, alike⟩
  cases alike with
  | thunk => exact .unevaluated
  | _ => exact .evaluated

theorem Heap.lookup_error_kind {heap : Heap} {fault : Fault} (broken : heap.lookup handle = .error fault) :
    fault.kind = .malformed := by
  obtain ⟨defect, rfl⟩ := lookup_error broken
  rfl

theorem Heap.Gains.error {before after : Heap} {handles : List Handle} {nodes : List Node} {fault : Fault}
    (gains : before.Gains after (handles.zip nodes)) (old : handle ∉ handles)
    (broken : before.lookup handle = .error fault) : ∃ fault', after.lookup handle = .error fault' := by
  cases found : after.lookup handle with
  | error fault' => exact ⟨fault', rfl⟩
  | ok slot =>
    rcases gains.fresh found with found' | ⟨node, added, _⟩
    · cases broken.symm.trans found'
    · exact absurd (List.of_mem_zip added).1 old

/-! ### Nodes that are added to both heaps -/

namespace Heap.Adds

variable {handles handles' : List Handle} {nodes nodes' : List Node}

theorem zip_exactly (distinct : handles.Nodup) (distinct' : handles'.Nodup)
    {other other' : Handle} (both : (handle, handle') ∈ handles.zip handles')
    (both' : (other, other') ∈ handles.zip handles') : handle = other ↔ handle' = other' := by
  obtain ⟨place, present⟩ := List.mem_iff_getElem?.mp both
  obtain ⟨place', present'⟩ := List.mem_iff_getElem?.mp both'
  obtain ⟨here, there⟩ := List.getElem?_zip_eq_some.mp present
  obtain ⟨here', there'⟩ := List.getElem?_zip_eq_some.mp present'
  obtain ⟨_, here⟩ := List.getElem?_eq_some_iff.mp here
  obtain ⟨_, there⟩ := List.getElem?_eq_some_iff.mp there
  obtain ⟨_, here'⟩ := List.getElem?_eq_some_iff.mp here'
  obtain ⟨_, there'⟩ := List.getElem?_eq_some_iff.mp there'
  simp only at here there here' there'
  rw [← here, ← there, ← here', ← there', distinct.getElem_inj_iff, distinct'.getElem_inj_iff]

/-- What is paired is not on offer, and so not among the new handles. -/
theorem unpaired (adds : left.Adds left' handles nodes) (adds' : right.Adds right' handles' nodes')
    (granted : ∀ {handle handle'}, pairs handle handle' → ¬ left.Offers handle ∧ ¬ right.Offers handle')
    (both : pairs handle handle') : handle ∉ handles ∧ handle' ∉ handles' :=
  ⟨fun member => (granted both).1 (adds.grants.offered _ member),
    fun member => (granted both).2 (adds'.grants.offered _ member)⟩

theorem exactly (adds : left.Adds left' handles nodes) (adds' : right.Adds right' handles' nodes')
    (granted : ∀ {handle handle'}, pairs handle handle' → ¬ left.Offers handle ∧ ¬ right.Offers handle')
    (exactly : OneToOne pairs) : OneToOne (pairs.adding handles handles') := by
  have apart : ∀ {handle handle' other other'}, pairs handle handle' → (other, other') ∈ handles.zip handles' →
      handle ≠ other ∧ handle' ≠ other' := by
    intro handle handle' other other' both added
    obtain ⟨old, old'⟩ := adds.unpaired adds' granted both
    obtain ⟨new, new'⟩ := List.of_mem_zip added
    exact ⟨fun same => old (same ▸ new), fun same => old' (same ▸ new')⟩
  rintro handle handle' other other' (both | added) (both' | added')
  · exact exactly both both'
  · exact iff_of_false (apart both added').1 (apart both added').2
  · exact iff_of_false (apart both' added).1.symm (apart both' added).2.symm
  · exact zip_exactly adds.distinct adds'.distinct added added'

theorem granted (adds : left.Adds left' handles nodes) (adds' : right.Adds right' handles' nodes')
    (granted : ∀ {handle handle'}, pairs handle handle' → ¬ left.Offers handle ∧ ¬ right.Offers handle')
    (both : pairs.adding handles handles' handle handle') : ¬ left'.Offers handle ∧ ¬ right'.Offers handle' := by
  rcases both with both | added
  · exact ⟨fun offers => (granted both).1 (adds.grants.mono _ offers),
      fun offers => (granted both).2 (adds'.grants.mono _ offers)⟩
  · obtain ⟨new, new'⟩ := List.of_mem_zip added
    exact ⟨adds.grants.taken _ new, adds'.grants.taken _ new'⟩

theorem alike (adds : left.Adds left' handles nodes) (adds' : right.Adds right' handles' nodes')
    (alike : List.Forall₂ (Node.Alike known pairs) nodes nodes') (added : (handle, handle') ∈ handles.zip handles') :
    ∃ slot slot', left'.lookup handle = .ok slot ∧ right'.lookup handle' = .ok slot' ∧ slot.Alike peers known pairs slot' := by
  obtain ⟨place, present⟩ := List.mem_iff_getElem?.mp added
  obtain ⟨here, there⟩ := List.getElem?_zip_eq_some.mp present
  rcases forall₂_getElem? alike place with ⟨node, node', content, content', both⟩ | ⟨absent, _⟩
  · have filled : (handle, node) ∈ handles.zip nodes :=
      List.mem_iff_getElem?.mpr ⟨place, List.getElem?_zip_eq_some.mpr ⟨here, content⟩⟩
    have filled' : (handle', node') ∈ handles'.zip nodes' :=
      List.mem_iff_getElem?.mpr ⟨place, List.getElem?_zip_eq_some.mpr ⟨there, content'⟩⟩
    exact ⟨_, _, adds.gains.filled filled, adds'.gains.filled filled', Slot.ofNode_alike both⟩
  · have below := (List.getElem?_eq_some_iff.mp here).1
    rw [adds.lengths] at below
    exact absurd below (Nat.not_lt_of_le (List.getElem?_eq_none_iff.mp absent))

end Heap.Adds

namespace Heap.Twins

theorem ok (twins : left.Twins peers known pairs right) (both : pairs handle handle') (found : left.lookup handle = .ok slot) :
    ∃ slot', right.lookup handle' = .ok slot' ∧ slot.Alike peers known pairs slot' := by
  have coincide := twins.slots both
  rw [found] at coincide
  cases found' : right.lookup handle' with
  | ok slot' =>
    rw [found'] at coincide
    exact ⟨slot', rfl, coincide⟩
  | error fault =>
    rw [found'] at coincide
    cases coincide

theorem error (twins : left.Twins peers known pairs right) (both : pairs handle handle') {fault : Fault}
    (broken : left.lookup handle = .error fault) : ∃ fault', right.lookup handle' = .error fault' := by
  have coincide := twins.slots both
  rw [broken] at coincide
  cases broken' : right.lookup handle' with
  | ok slot' =>
    rw [broken'] at coincide
    cases coincide
  | error fault' => exact ⟨fault', rfl⟩

/-! ### New nodes -/

theorem adds {handles handles' : List Handle} {nodes nodes' : List Node} (twins : left.Twins peers known pairs right)
    (adds : left.Adds left' handles nodes) (adds' : right.Adds right' handles' nodes')
    (alike : List.Forall₂ (Node.Alike known (pairs.adding handles handles')) nodes nodes') :
    left'.Twins peers known (pairs.adding handles handles') right' where
  free := ⟨adds.free, adds'.free⟩
  unbounded := ⟨adds.unbounded, adds'.unbounded⟩
  exactly := adds.exactly adds' twins.granted twins.exactly
  named := fun handle isKnown => .inl (twins.named handle isKnown)
  slots := by
    rintro handle handle' (both | added)
    · cases found : left.lookup handle with
      | ok slot =>
        obtain ⟨slot', found', alike⟩ := twins.ok both found
        rw [adds.gains.kept found, adds'.gains.kept found']
        exact alike.mono (pairs.extends_adding handles handles')
      | error fault =>
        obtain ⟨fault', found'⟩ := twins.error both found
        obtain ⟨old, old'⟩ := adds.unpaired adds' twins.granted both
        obtain ⟨_, broken⟩ := adds.gains.error old found
        obtain ⟨_, broken'⟩ := adds'.gains.error old' found'
        rw [broken, broken']
        exact (lookup_error_kind broken).trans (lookup_error_kind broken').symm
    · obtain ⟨slot, slot', found, found', slots⟩ := adds.alike adds' alike added
      rw [found, found']
      exact slots
  granted := adds.granted adds' twins.granted
  waits := by
    rw [adds.waits, adds'.waits]
    exact twins.waits.imp fun _ _ both => ⟨both.1, .inl both.2⟩

instance : Joint known (Heap.Twins peers known) where
  named twins := twins.named
  free twins := twins.free
  unbounded twins := twins.unbounded
  adds := adds

/-! ### Slots that change -/

theorem rewrites {old old' : Slot} (twins : left.Twins peers known pairs right) (both : pairs handle handle')
    (rewrites : left.Rewrites left' handle old slot) (rewrites' : right.Rewrites right' handle' old' slot')
    (alike : slot.Alike peers known pairs slot') (waits : left'.waits = left.waits) (waits' : right'.waits = right.waits)
    (unbounded : left'.maxNodes = left.maxNodes) (unbounded' : right'.maxNodes = right.maxNodes) :
    left'.Twins peers known pairs right' where
  free := ⟨twins.free.1.rewrites rewrites, twins.free.2.rewrites rewrites'⟩
  unbounded := ⟨unbounded.trans twins.unbounded.1, unbounded'.trans twins.unbounded.2⟩
  exactly := twins.exactly
  named := twins.named
  slots := by
    intro other other' both'
    rw [rewrites.lookup, rewrites'.lookup]
    by_cases same : other = handle
    · rw [if_pos same, if_pos ((twins.exactly both' both).mp same)]
      exact alike
    · rw [if_neg same, if_neg fun same' => same ((twins.exactly both' both).mpr same')]
      exact twins.slots both'
  granted := fun both' => ⟨fun offers => (twins.granted both').1 (rewrites.offers offers),
    fun offers => (twins.granted both').2 (rewrites'.offers offers)⟩
  waits := by
    rw [waits, waits']
    exact twins.waits

theorem noted (twins : left.Twins peers known pairs right) {waits waits' : List (Actor × Handle)} {epoch epoch' : UInt64}
    (each : List.Forall₂ (fun wait wait' => peers wait.1 wait'.1 ∧ pairs wait.2 wait'.2) waits waits') :
    Heap.Twins peers known pairs { left with waits := waits, epoch := epoch }
      { right with waits := waits', epoch := epoch' } where
  free := ⟨twins.free.1.of_entries rfl rfl, twins.free.2.of_entries rfl rfl⟩
  unbounded := twins.unbounded
  exactly := twins.exactly
  named := twins.named
  slots := twins.slots
  granted := twins.granted
  waits := each

end Heap.Twins

/-- Operations on twin heaps that come to related results, or to faults of one kind. -/
inductive Heap.Twined {α : Type} (peers : Actor → Actor → Prop) (known : Handle → Prop) (pairs : Pairing)
    (related : α → α → Prop) : EStateM.Result Fault Heap α → EStateM.Result Fault Heap α → Prop where
  | ok {value value' : α} {left right : Heap} (twins : left.Twins peers known pairs right)
      (both : related value value') : Twined peers known pairs related (.ok value left) (.ok value' right)
  | error {fault fault' : Fault} {left right : Heap} (twins : left.Twins peers known pairs right)
      (kind : fault.kind = fault'.kind) : Twined peers known pairs related (.error fault left) (.error fault' right)

theorem Heap.Twined.notify {operation operation' : HeapM Bool}
    (twined : Twined peers known pairs Eq (operation left) (operation' right)) :
    Twined peers known pairs Eq ((do let done ← operation; modify notify; return done) left)
      ((do let done ← operation'; modify notify; return done) right) := by
  generalize ended : operation left = result at twined
  generalize ended' : operation' right = result' at twined
  cases twined with
  | ok twins both =>
    rw [bind_ok ended, bind_ok ended']
    exact .ok (twins.noted twins.waits) both
  | error twins kind =>
    rw [bind_error ended, bind_error ended']
    exact .error twins kind

theorem Heap.marked_iff {heap : Heap} {marks : Marks} {links : List Handle} {current : Handle} {slot : Slot}
    (live : ∀ link ∈ links, heap.Live link) (found : heap.lookup current = .ok slot)
    (marked : ∀ index, marks.contains index = true ↔ ∃ link ∈ links, link.index.toNat = index) :
    marks.contains current.index.toNat = true ↔ current ∈ links := by
  rw [marked]
  constructor
  · rintro ⟨link, member, same⟩
    obtain ⟨slot', found'⟩ := live link member
    rwa [← eq_of_lookup found' found same]
  · exact fun member => ⟨current, member, rfl⟩

theorem Heap.followFrom_live {heap : Heap} {links : List Handle} (live : ∀ link ∈ links, heap.Live link) (marks : Marks)
    (current : Handle) : ∀ link ∈ (heap.followFrom marks links current).links, heap.Live link := by
  fun_induction Heap.followFrom heap marks links current with
  | case1 | case2 | case4 => exact fun link member => live link (List.mem_reverse.mp member)
  | case3 marks links current slot found _ _ _ ih => exact ih (List.forall_mem_cons.mpr ⟨⟨slot, found⟩, live⟩)

theorem Heap.followOn_live {heap : Heap} {passed : List Handle} (live : ∀ link ∈ passed, heap.Live link) (start : Handle) :
    ∀ link ∈ (heap.followOn passed start).links, heap.Live link :=
  followFrom_live (fun link member => live link (List.mem_reverse.mp member)) _ start

namespace Heap.Twins

theorem transition (twins : left.Twins peers known pairs right) (both : pairs handle handle')
    {change change' : Slot → Option Slot}
    (changes : ∀ {slot slot'}, slot.Alike peers known pairs slot' →
      Option.Rel (Slot.Alike peers known pairs) (change slot) (change' slot')) :
    Twined peers known pairs Eq (Heap.transition handle change left) (Heap.transition handle' change' right) := by
  unfold Heap.transition
  cases found : left.lookup handle with
  | error fault =>
    obtain ⟨fault', found'⟩ := twins.error both found
    rw [found']
    exact .error twins ((lookup_error_kind found).trans (lookup_error_kind found').symm)
  | ok slot =>
    obtain ⟨slot', found', alike⟩ := twins.ok both found
    rw [found']
    dsimp only
    have changed := changes alike
    generalize change slot = new at changed ⊢
    generalize change' slot' = new' at changed ⊢
    cases changed with
    | none => exact .ok twins rfl
    | some alike =>
      exact .ok (twins.rewrites both (put_rewrites found rfl rfl) (put_rewrites found' rfl rfl) alike rfl rfl rfl rfl) rfl

variable {actor actor' : Actor}

theorem claim (twins : left.Twins peers known pairs right) (both : pairs handle handle') (actors : peers actor actor') :
    Twined peers known pairs Eq (Heap.claim handle actor left) (Heap.claim handle' actor' right) := by
  refine twins.transition both fun {slot slot'} alike => ?_
  obtain ⟨state, node⟩ := slot
  obtain ⟨state', node'⟩ := slot'
  obtain ⟨states, nodes⟩ := alike
  cases states with
  | unevaluated => exact .some ⟨.inProgress actors, nodes⟩
  | inProgress | evaluated => exact .none

/-- Only the owner's partner finds the partner of what the owner holds. -/
theorem owned {change change' : Slot → Slot} {slot slot' : Slot}
    (exactly : OneToOne peers) (actors : peers actor actor') (alike : slot.Alike peers known pairs slot')
    (changes : (change slot).Alike peers known pairs (change' slot')) :
    Option.Rel (Slot.Alike peers known pairs) (if slot.state = .inProgress actor then some (change slot) else none)
      (if slot'.state = .inProgress actor' then some (change' slot') else none) := by
  have same : slot.state = .inProgress actor ↔ slot'.state = .inProgress actor' := by
    have states := alike.state
    generalize slot.state = state at states ⊢
    generalize slot'.state = state' at states ⊢
    cases states with
    | unevaluated | evaluated => simp
    | inProgress both => simpa using exactly both actors
  by_cases owned : slot.state = .inProgress actor
  · rw [if_pos owned, if_pos (same.mp owned)]
    exact .some changes
  · rw [if_neg owned, if_neg fun owned' => owned (same.mpr owned')]
    exact .none

theorem complete (twins : left.Twins peers known pairs right) (both : pairs handle handle')
    (exactly : OneToOne peers) (actors : peers actor actor') {result result' : Node} (alike : result.Alike known pairs result') :
    Twined peers known pairs Eq (Heap.complete handle actor result left) (Heap.complete handle' actor' result' right) := by
  refine (twins.transition both fun slots => ?_).notify
  exact @owned _ _ _ _ _ (fun _ => ⟨.evaluated, result⟩) (fun _ => ⟨.evaluated, result'⟩) _ _ exactly actors slots
    ⟨.evaluated, alike⟩

theorem release (twins : left.Twins peers known pairs right) (both : pairs handle handle')
    (exactly : OneToOne peers) (actors : peers actor actor') :
    Twined peers known pairs Eq (Heap.release handle actor left) (Heap.release handle' actor' right) := by
  refine (twins.transition both fun slots => ?_).notify
  exact @owned _ _ _ _ _ (fun slot => { slot with state := .unevaluated })
    (fun slot => { slot with state := .unevaluated }) _ _ exactly actors slots ⟨.unevaluated, slots.node⟩

theorem redirect (twins : left.Twins peers known pairs right) (both : pairs handle handle') {target target' : Handle}
    (targets : pairs target target') :
    Twined peers known pairs Eq (Heap.redirect handle target left) (Heap.redirect handle' target' right) := by
  refine twins.transition both fun {slot slot'} alike => ?_
  obtain ⟨state, node⟩ := slot
  obtain ⟨state', node'⟩ := slot'
  obtain ⟨states, nodes⟩ := alike
  simp only [Slot.redirect]
  cases nodes with
  | indirection => exact .some ⟨states, .indirection targets⟩
  | _ => exact .none

/-! ### Walks -/

theorem biUnique (twins : left.Twins peers known pairs right) : Relator.BiUnique pairs :=
  ⟨fun _ _ _ both both' => (twins.exactly both both').mpr rfl, fun _ _ _ both both' => (twins.exactly both both').mp rfl⟩

theorem live_links (twins : left.Twins peers known pairs right) {links links' : List Handle}
    (each : List.Forall₂ pairs links links') (live : ∀ link ∈ links, left.Live link) : ∀ link ∈ links', right.Live link := by
  induction each with
  | nil => nofun
  | cons both _ ih =>
    obtain ⟨⟨slot, found⟩, rest⟩ := List.forall_mem_cons.mp live
    obtain ⟨slot', found', _⟩ := twins.ok both found
    exact List.forall_mem_cons.mpr ⟨⟨slot', found'⟩, ih rest⟩

theorem followFrom (twins : left.Twins peers known pairs right) {marks marks' : Marks} {links links' : List Handle}
    {current current' : Handle} (each : List.Forall₂ pairs links links') (live : ∀ link ∈ links, left.Live link)
    (marked : ∀ index, marks.contains index = true ↔ ∃ link ∈ links, link.index.toNat = index)
    (marked' : ∀ index, marks'.contains index = true ↔ ∃ link ∈ links', link.index.toNat = index)
    (both : pairs current current') :
    List.Forall₂ pairs (left.followFrom marks links current).links (right.followFrom marks' links' current').links ∧
      Landing.Alike peers known pairs (left.followFrom marks links current).landing
        (right.followFrom marks' links' current').landing := by
  -- the handle met again on one side is met again on the other
  have again : ∀ {marks marks' : Marks} {links links' : List Handle} {current current' : Handle} {slot slot' : Slot}, List.Forall₂ pairs links links' →
      (∀ link ∈ links, left.Live link) → (∀ index, marks.contains index = true ↔ ∃ link ∈ links, link.index.toNat = index) →
      (∀ index, marks'.contains index = true ↔ ∃ link ∈ links', link.index.toNat = index) → pairs current current' →
      left.lookup current = .ok slot → right.lookup current' = .ok slot' →
      marks.contains current.index.toNat = marks'.contains current'.index.toNat := by
    intro marks marks' links links' current current' slot slot' each live marked marked' both found found'
    rw [Bool.eq_iff_iff, marked_iff live found marked, marked_iff (twins.live_links each live) found' marked']
    exact List.rel_mem twins.biUnique both each
  fun_induction Heap.followFrom left marks links current generalizing marks' links' current' with
  | case1 marks links current fault found =>
    obtain ⟨fault', found'⟩ := twins.error both found
    rw [followFrom_eq, found']
    exact ⟨List.rel_reverse each, .broken ((lookup_error_kind found).trans (lookup_error_kind found').symm)⟩
  | case2 marks links current slot found target isLink met =>
    obtain ⟨⟨_, node⟩, found', _, alike⟩ := twins.ok both found
    have met' := (again each live marked marked' both found found').symm.trans met
    rw [followFrom_eq, found']
    rw [isLink] at alike
    cases alike
    simp only [met', if_true]
    exact ⟨List.rel_reverse each, .loop both⟩
  | case3 marks links current slot found target isLink unmet ih =>
    obtain ⟨⟨_, node⟩, found', _, alike⟩ := twins.ok both found
    have unmet' := (again each live marked marked' both found found').symm.trans (Bool.eq_false_iff.mpr unmet)
    rw [followFrom_eq right, found']
    rw [isLink] at alike
    cases alike with
    | indirection targets =>
      simp only [unmet']
      have enters : ∀ {marks : Marks} {links : List Handle} (current : Handle),
          (∀ index, marks.contains index = true ↔ ∃ link ∈ links, link.index.toNat = index) →
          ∀ index, (marks.insert current.index.toNat).contains index = true ↔
            ∃ link ∈ current :: links, link.index.toNat = index := by
        intro marks links current marked index
        simp [marked index]
      exact ih (.cons both each) (List.forall_mem_cons.mpr ⟨⟨slot, found⟩, live⟩) (enters current marked)
        (enters current' marked') targets
  | case4 marks links current slot found noLink =>
    obtain ⟨⟨_, node'⟩, found', states, alike⟩ := twins.ok both found
    have landing : Landing.Alike peers known pairs (.at current slot) (.at current' ⟨_, node'⟩) := .at both ⟨states, alike⟩
    rw [followFrom_eq, found']
    obtain ⟨state, node⟩ := slot
    cases alike with
    | indirection => exact absurd rfl (noLink _)
    | _ => exact ⟨List.rel_reverse each, landing⟩

theorem followOn (twins : left.Twins peers known pairs right) {passed passed' : List Handle} {start start' : Handle}
    (each : List.Forall₂ pairs passed passed') (live : ∀ link ∈ passed, left.Live link) (both : pairs start start') :
    List.Forall₂ pairs (left.followOn passed start).links (right.followOn passed' start').links ∧
      Landing.Alike peers known pairs (left.followOn passed start).landing (right.followOn passed' start').landing := by
  have fromEmpty : ∀ (passed : List Handle) index,
      (passed.foldl (fun marks link => marks.insert link.index.toNat) Marks.empty).contains index = true ↔
        ∃ link ∈ passed.reverse, link.index.toNat = index := by
    intro passed index
    simp [contains_passed passed .empty index]
  exact twins.followFrom (List.rel_reverse each) (fun link member => live link (List.mem_reverse.mp member))
    (fromEmpty passed) (fromEmpty passed') both

/-! ### Waits -/

theorem state (twins : left.Twins peers known pairs right) (both : pairs handle handle') :
    Coincide (SlotState.Alike peers) (left.state handle) (right.state handle') :=
  (twins.slots both).map fun _ _ alike => alike.state

theorem lookup_waits (exactly : OneToOne peers) {waits waits' : List (Actor × Handle)}
    (each : List.Forall₂ (fun wait wait' => peers wait.1 wait'.1 ∧ pairs wait.2 wait'.2) waits waits')
    (actors : peers actor actor') : Option.Rel pairs (waits.lookup actor) (waits'.lookup actor') := by
  induction each with
  | nil => exact .none
  | @cons wait wait' _ _ both _ ih =>
    obtain ⟨waiter, node⟩ := wait
    obtain ⟨waiter', node'⟩ := wait'
    have same := exactly actors both.1
    simp only [List.lookup_cons, beq_eq_decide]
    by_cases here : actor = waiter
    · simp only [here, same.mp here, decide_true]
      exact .some both.2
    · simp only [here, mt same.mpr here, decide_false]
      exact ih

theorem leadsBack (twins : left.Twins peers known pairs right) (exactly : OneToOne peers) (actors : peers actor actor')
    (hops : Nat) (both : pairs handle handle') :
    Coincide Eq (left.leadsBack actor hops handle) (right.leadsBack actor' hops handle') := by
  induction hops generalizing handle handle' with
  | zero => exact rfl
  | succ hops ih =>
    have states := twins.state both
    unfold Heap.leadsBack
    generalize left.state handle = state at states ⊢
    generalize right.state handle' = state' at states ⊢
    cases state <;> cases state'
    · exact states
    · cases states
    · cases states
    · cases states with
      | unevaluated | evaluated => exact rfl
      | @inProgress owner owner' owners =>
        have same := exactly owners actors
        by_cases own : owner = actor
        · simp only [own, same.mp own, if_true]
          exact rfl
        · simp only [own, mt same.mpr own, if_false]
          have next := lookup_waits exactly twins.waits owners
          generalize left.waits.lookup owner = wait at next ⊢
          generalize right.waits.lookup owner' = wait' at next ⊢
          cases next with
          | none => exact rfl
          | some both' => exact ih both'

theorem beginWait (twins : left.Twins peers known pairs right) (exactly : OneToOne peers) (actors : peers actor actor')
    (both : pairs handle handle') :
    Twined peers known pairs Eq (Heap.beginWait actor handle left) (Heap.beginWait actor' handle' right) := by
  have leads := twins.leadsBack exactly actors (left.waits.length + 1) both
  unfold Heap.beginWait
  rw [← twins.waits.length_eq]
  generalize left.leadsBack actor (left.waits.length + 1) handle = outcome at leads ⊢
  generalize right.leadsBack actor' (left.waits.length + 1) handle' = outcome' at leads ⊢
  have inserted : ∀ {waits waits' : List (Actor × Handle)},
      List.Forall₂ (fun wait wait' => peers wait.1 wait'.1 ∧ pairs wait.2 wait'.2) waits waits' →
      List.Forall₂ (fun wait wait' => peers wait.1 wait'.1 ∧ pairs wait.2 wait'.2) (insertWait actor handle waits)
        (insertWait actor' handle' waits') := by
    intro waits waits' each
    induction each with
    | nil => exact .cons ⟨actors, both⟩ .nil
    | @cons wait wait' _ _ first rest ih =>
      obtain ⟨waiter, node⟩ := wait
      obtain ⟨waiter', node'⟩ := wait'
      have same := exactly first.1 actors
      unfold insertWait
      by_cases here : waiter = actor
      · rw [if_pos here, if_pos (same.mp here)]
        exact .cons ⟨actors, both⟩ rest
      · rw [if_neg here, if_neg (mt same.mpr here)]
        exact .cons first ih
  cases outcome <;> cases outcome'
  · exact .error twins leads
  · cases leads
  · cases leads
  · cases leads
    rename_i back
    cases back with
    | true => exact .error twins rfl
    | false => exact .ok (twins.noted (inserted twins.waits)) rfl

theorem endWait (twins : left.Twins peers known pairs right) (exactly : OneToOne peers) (actors : peers actor actor') :
    (left.endWait actor).Twins peers known pairs (right.endWait actor') := by
  refine twins.noted ?_
  have each := twins.waits
  generalize left.waits = waits at each ⊢
  generalize right.waits = waits' at each ⊢
  induction each with
  | nil => exact .nil
  | cons first _ ih =>
    have same := exactly first.1 actors
    simp only [List.filter_cons, decide_not, Bool.not_eq_true', decide_eq_false_iff_not] at ih ⊢
    split
    · rename_i other
      rw [if_pos (mt same.mpr other)]
      exact .cons first ih
    · rename_i own
      rw [if_neg fun other => own (mt same.mp other)]
      exact ih

end Heap.Twins

end LazyGraph

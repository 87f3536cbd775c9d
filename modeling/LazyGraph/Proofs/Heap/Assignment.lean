import LazyGraph.Proofs.Heap.Collection
import LazyGraph.Proofs.Heap.Growth
import LazyGraph.Proofs.Heap.Resolution

/-! Slots that are assigned once.

A thunk stays as it is until it is evaluated, and then it is not a thunk any more; a value
stays for ever, and an indirection stays one. What a handle stands for stays with it: the
chain that starts there may get shorter, and it ends where it did. -/

set_option autoImplicit false

namespace LazyGraph

-- What may become of a slot.
structure Slot.Assigns (before after : Slot) : Prop where
  thunk : before.node.tag = .thunk →
    (after.node = before.node ∧ (after.state = .evaluated → before.state = .evaluated)) ∨
      (after.state = .evaluated ∧ after.node.tag ≠ .thunk)
  done : before.state = .evaluated → after.state = .evaluated
  whnf : before.node.tag.isWhnf → after = before
  link : before.node.tag = .indirection → after.node.tag = .indirection ∧ after.state = before.state

namespace Slot.Assigns

variable {first second third : Slot}

theorem refl (slot : Slot) : Slot.Assigns slot slot :=
  ⟨fun _ => .inl ⟨rfl, id⟩, id, fun _ => rfl, fun isLink => ⟨isLink, rfl⟩⟩

theorem not_thunk (assigns : Slot.Assigns first second) (value : first.node.tag ≠ .thunk) :
    second.node.tag ≠ .thunk := by
  by_cases isLink : first.node.tag = .indirection
  · simp [(assigns.link isLink).1]
  · have isWhnf : first.node.tag.isWhnf := by
      cases tag : first.node.tag <;> simp_all [Tag.isWhnf]
    exact assigns.whnf isWhnf ▸ value

theorem trans (early : Slot.Assigns first second) (late : Slot.Assigns second third) :
    Slot.Assigns first third where
  thunk := by
    intro isThunk
    rcases early.thunk isThunk with ⟨same, unfinished⟩ | ⟨done, value⟩
    · rcases late.thunk (same ▸ isThunk) with ⟨same', unfinished'⟩ | ended
      · exact .inl ⟨same'.trans same, fun done => unfinished (unfinished' done)⟩
      · exact .inr ended
    · exact .inr ⟨late.done done, late.not_thunk value⟩
  done := fun done => late.done (early.done done)
  whnf := by
    intro isWhnf
    have same := early.whnf isWhnf
    exact (late.whnf (same ▸ isWhnf)).trans same
  link := by
    intro isLink
    obtain ⟨isLink', state⟩ := early.link isLink
    obtain ⟨isLink'', state'⟩ := late.link isLink'
    exact ⟨isLink'', state'.trans state⟩

end Slot.Assigns

def Slot.Proper (slot : Slot) : Prop :=
  slot.node.tag = .thunk ↔ slot.state ≠ .evaluated

theorem Slot.Proper.done {slot : Slot} (proper : slot.Proper) (noThunk : slot.node.tag ≠ .thunk) : slot.state = .evaluated :=
  Decidable.byContradiction fun unfinished => noThunk (proper.mpr unfinished)

theorem Slot.Proper.assigns {before after : Slot} (proper : before.Proper) (assigns : Slot.Assigns before after) :
    after.Proper := by
  by_cases isThunk : before.node.tag = .thunk
  · have unfinished := proper.mp isThunk
    rcases assigns.thunk isThunk with ⟨same, stays⟩ | ⟨done, value⟩
    · exact ⟨fun _ done => unfinished (stays done), fun _ => same ▸ isThunk⟩
    · exact ⟨fun isThunk => absurd isThunk value, fun unfinished => absurd done unfinished⟩
  · have done := proper.done isThunk
    exact ⟨fun isThunk' => absurd isThunk' (assigns.not_thunk isThunk),
      fun unfinished => absurd (assigns.done done) unfinished⟩

def SlotLaw.assigning : SlotLaw where
  allowed := Slot.Assigns
  born := Slot.Proper
  refl := Slot.Assigns.refl
  trans := Slot.Assigns.trans
  retarget state old new :=
    ⟨fun isThunk => (nomatch isThunk), id, fun isWhnf => (nomatch isWhnf), fun _ => ⟨rfl, rfl⟩⟩
  born_ofNode node := by
    cases node <;> simp [Slot.Proper, Slot.ofNode, Node.tag]
  born_allowed := Slot.Proper.assigns

namespace Heap

variable {before middle after heap : Heap} {handle node link target : Handle} {old new slot : Slot}

def Direct (heap : Heap) (link target : Handle) : Prop :=
  heap.LinksTo link target ∧ ∃ slot, heap.lookup target = .ok slot ∧ slot.node.tag.isWhnf

/-- Every live slot is assigned once, and a handle stands for the node it stood for. -/
structure Assigns (before after : Heap) : Prop where
  kept : Kept .assigning before after
  finds : ∀ {handle target}, before.Resolves target handle → after.Solid target → after.Resolves target handle
  direct : ∀ {link target}, before.Direct link target → after.Direct link target

/-- Beyond that, nothing in progress is touched, and no reserved slot. -/
structure Settles (before after : Heap) : Prop extends Assigns before after where
  busy : ∀ {handle owner content}, before.lookup handle = .ok ⟨.inProgress owner, content⟩ →
    after.lookup handle = .ok ⟨.inProgress owner, content⟩
  reserved : ∀ {handles}, before.Reserved handles → after.Reserved handles

structure Regular (heap : Heap) : Prop where
  free : heap.FreeListSound
  proper : ∀ {handle slot}, heap.lookup handle = .ok slot → slot.Proper

structure Advances (before after : Heap) : Prop where
  grows : before.capacity ≤ after.capacity
  settles : after.Addressable → before.Regular → Settles before after

theorem Assigns.regular (assigns : Assigns before after) (regular : before.Regular) : after.Regular where
  free := assigns.kept.free
  proper := by
    intro handle slot found
    rcases assigns.kept.fresh found with ⟨old, foundOld⟩ | born
    · obtain ⟨slot', found', change⟩ := assigns.kept.live foundOld
      cases found.symm.trans found'
      exact (regular.proper foundOld).assigns change
    · exact born

theorem Assigns.trans (first : Assigns before middle) (second : Assigns middle after) : Assigns before after where
  kept := first.kept.trans second.kept
  finds := by
    intro handle target resolves solid
    -- an indirection would have stayed one
    have solid' : middle.Solid target := by
      obtain ⟨slot, found, _⟩ := resolves.solid
      obtain ⟨slot', found', _⟩ := first.kept.live found
      refine ⟨slot', found', fun isLink => ?_⟩
      obtain ⟨slot'', found'', assigns⟩ := second.kept.live found'
      obtain ⟨last, foundLast, noLink⟩ := solid
      cases found''.symm.trans foundLast
      exact noLink (assigns.link isLink).1
    exact second.finds (first.finds resolves solid') solid
  direct := fun direct => second.direct (first.direct direct)

theorem Settles.trans (first : Settles before middle) (second : Settles middle after) : Settles before after where
  toAssigns := first.toAssigns.trans second.toAssigns
  busy := fun held => second.busy (first.busy held)
  reserved := fun reserved => second.reserved (first.reserved reserved)

theorem Advances.trans (first : Advances before middle) (second : Advances middle after) : Advances before after where
  grows := Nat.le_trans first.grows second.grows
  settles := by
    intro fits regular
    have early := first.settles (fits.mono second.grows) regular
    exact early.trans (second.settles fits (early.regular regular))

/-! ### Writes -/

theorem FreeListSound.kept_rewrites (sound : before.FreeListSound) (rewrites : before.Rewrites after node old new)
    (change : Slot.Assigns old new) : Kept .assigning before after where
  free := sound.rewrites rewrites
  live := by
    intro handle slot found
    rw [rewrites.lookup]
    by_cases same : handle = node
    · subst same
      cases rewrites.found.symm.trans found
      exact ⟨new, if_pos rfl, change⟩
    · exact ⟨slot, (if_neg same).trans found, .refl slot⟩
  fresh := by
    intro handle slot found
    rw [rewrites.lookup] at found
    split at found
    · rename_i same
      exact .inl ⟨old, same ▸ rewrites.found⟩
    · exact .inl ⟨slot, found⟩

theorem Assigns.of_rewrites (sound : before.FreeListSound) (rewrites : before.Rewrites after node old new)
    (change : Slot.Assigns old new) (noLink : old.node.tag ≠ .indirection) : Assigns before after where
  kept := sound.kept_rewrites rewrites change
  finds := fun resolves solid => resolves.onward rewrites noLink (.here solid)
  direct := by
    rintro link target ⟨⟨state, linked⟩, slot, found, isWhnf⟩
    have apart : link ≠ node := by
      rintro rfl
      cases rewrites.found.symm.trans linked
      exact noLink rfl
    refine ⟨⟨state, by rw [rewrites.lookup, if_neg apart, linked]⟩, ?_⟩
    obtain ⟨slot', found', change'⟩ := (sound.kept_rewrites rewrites change).live found
    obtain rfl := change'.whnf isWhnf
    exact ⟨slot', found', isWhnf⟩

theorem Assigns.of_collapse {state : SlotState} {previous : Handle} (sound : before.FreeListSound)
    (rewrites : before.Rewrites after link ⟨state, .indirection previous⟩ ⟨state, .indirection target⟩)
    (leads : before.Resolves target link) : Assigns before after where
  kept := sound.kept_rewrites rewrites (SlotLaw.assigning.retarget state previous target)
  finds := fun resolves _ => resolves.collapse rewrites leads
  direct := by
    rintro other onto ⟨linked, slot, found, isWhnf⟩
    have noLink := Tag.ne_indirection_of_whnf isWhnf
    refine ⟨?_, slot, ?_, isWhnf⟩
    · by_cases same : other = link
      · subst same
        obtain rfl := leads.unique (.link linked (.here ⟨slot, found, noLink⟩))
        exact ⟨state, by rw [rewrites.lookup, if_pos rfl]⟩
      · obtain ⟨state', linked⟩ := linked
        exact ⟨state', by rw [rewrites.lookup, if_neg same, linked]⟩
    · have apart : onto ≠ link := by
        rintro rfl
        cases rewrites.found.symm.trans found
        exact noLink rfl
      rw [rewrites.lookup, if_neg apart, found]

theorem Settles.rewrites {start : Heap} (settles : Settles start before)
    (rewrites : before.Rewrites after node old new) (assigns : Assigns before after)
    (idle : ∀ owner content, start.lookup node ≠ .ok ⟨.inProgress owner, content⟩) : Settles start after where
  toAssigns := settles.toAssigns.trans assigns
  busy := by
    intro handle owner content held
    have apart : handle ≠ node := by
      rintro rfl
      exact idle owner content held
    rw [rewrites.lookup, if_neg apart, settles.busy held]
  reserved := fun reserved => (settles.reserved reserved).rewrites rewrites

/-! ### Allocation -/

theorem Gains.assigns {added : List (Handle × Node)} (gains : Gains before after added) (free : after.FreeListSound) :
    Assigns before after where
  kept := {
    free := free
    live := fun {_ slot} found => ⟨slot, gains.kept found, .refl slot⟩
    fresh := by
      intro handle slot found
      rcases gains.fresh found with found | ⟨node, _, rfl⟩
      · exact .inl ⟨slot, found⟩
      · exact .inr (SlotLaw.assigning.born_ofNode node) }
  finds := fun resolves _ => resolves.mono gains.kept
  direct := by
    rintro link target ⟨⟨state, linked⟩, slot, found, isWhnf⟩
    exact ⟨⟨state, gains.kept linked⟩, slot, gains.kept found, isWhnf⟩

theorem Enlarges.advances {added : List (Handle × Node)} (enlarges : Enlarges [] [] added before after) :
    Advances before after where
  grows := enlarges.grows
  settles := by
    intro fits regular
    obtain ⟨sound, gains⟩ := enlarges.result fits regular.free
    exact {
      toAssigns := gains.assigns sound
      busy := gains.kept
      reserved := fun reserved => (enlarges.gains fits regular.free reserved).2.1 }

theorem Settles.of_entries (sound : before.FreeListSound) (entries : after.entries = before.entries)
    (free : after.free = before.free) : Settles before after := by
  have same : Gains before after [] := .of_same fun handle slot => by rw [lookup_congr entries]
  exact {
    toAssigns := same.assigns (sound.of_entries entries free)
    busy := same.kept
    reserved := fun reserved => reserved.of_entries entries free }

theorem Settles.refl (sound : heap.FreeListSound) : Settles heap heap :=
  .of_entries sound rfl rfl

theorem Advances.of_entries (entries : after.entries = before.entries) (free : after.free = before.free) :
    Advances before after where
  grows := by simp [capacity, entries]
  settles := fun _ regular => .of_entries regular.free entries free

theorem Advances.refl (heap : Heap) : Advances heap heap :=
  .of_entries rfl rfl

theorem alloc_advances (node : Node) : Moves Advances (alloc node) := by
  intro heap
  rcases alloc_cases node heap with ⟨handle, after, ended, enlarges⟩ | ⟨limit, refused⟩
  · rw [ended]
    exact enlarges.advances
  · rw [refused]
    exact .refl heap

/-- The nodes of a group may be built with the heap in use: what is used meanwhile leaves
the group's slots alone. -/
theorem allocGroup_advances (count : UInt64) {build : List Handle → Heap → List Node × Heap}
    (inside : ∀ handles heap, Advances heap (build handles heap).2) : Moves Advances (allocGroup count build) := by
  intro heap
  have closes : ∀ {handles opened after added}, Enlarges [] handles [] heap opened →
      Enlarges handles [] added (build handles opened).2 after → Advances heap after := by
    intro handles opened after added opens closes
    have meanwhile := inside handles opened
    refine ⟨Nat.le_trans opens.grows (Nat.le_trans meanwhile.grows closes.grows), fun fits regular => ?_⟩
    have fits' := fits.mono closes.grows
    have opened' : Assigns heap opened ∧ Gains heap opened [] := by
      obtain ⟨sound, _, gains⟩ := opens.gains (fits'.mono meanwhile.grows) regular.free (.nil heap)
      exact ⟨gains.assigns sound, gains⟩
    obtain ⟨assigns, gains⟩ := opened'
    have settles := meanwhile.settles fits' (assigns.regular regular)
    have run : ∀ {others}, heap.Reserved others → after.FreeListSound ∧ after.Reserved others ∧
        Gains (build handles opened).2 after added := by
      intro others reserved
      obtain ⟨_, reserved', _⟩ := opens.gains (fits'.mono meanwhile.grows) regular.free reserved
      exact closes.gains fits settles.kept.free (settles.reserved reserved')
    obtain ⟨sound, _, gains'⟩ := run (.nil heap)
    exact {
      toAssigns := assigns.trans (settles.toAssigns.trans (gains'.assigns sound))
      busy := fun held => gains'.kept (settles.busy (gains.kept held))
      reserved := fun reserved => (run reserved).2.1 }
  rcases allocGroup_cases count build heap with ⟨_, none⟩ | ⟨limit, refused⟩ | ⟨handles, opened, _, opens, ended⟩
  · rw [none]
    exact .refl heap
  · rw [refused]
    exact .refl heap
  · rcases ended with ⟨after, _, ended, filled⟩ | ⟨fault, after, _, ended, dropped⟩
    · rw [ended]
      exact closes opens filled
    · rw [ended]
      exact closes opens dropped

instance : Course Advances where
  trans := Advances.trans
  same := Advances.of_entries
  alloc := alloc_advances
  allocGroup count build leaves := by
    refine allocGroup_advances count fun handles heap => ?_
    rw [leaves]
    exact .refl heap

/-! ### Collection -/

-- What a live link leads to is met as soon as the link is marked.
def LinksMet (heap : Heap) (marks : Marks) (work : List Handle) : Prop :=
  ∀ link next, heap.LinksTo link next → marks.contains link.index.toNat → heap.Met marks work next

theorem LinksMet.drop {marks : Marks} {work : List Handle} (met : heap.LinksMet marks (handle :: work))
    (settled : ∀ slot, heap.lookup handle = .ok slot → marks.contains handle.index.toNat) :
    heap.LinksMet marks work := by
  intro link next links marked
  rcases met link next links marked with waits | done
  · rcases List.mem_cons.mp waits with rfl | waits
    · exact .inr settled
    · exact .inl waits
  · exact .inr done

theorem LinksMet.enter {marks : Marks} {work more : List Handle} (met : heap.LinksMet marks (handle :: work))
    (live : heap.lookup handle = .ok slot) (references : ∀ next ∈ slot.node.references, next ∈ more)
    (rest : ∀ other ∈ work, other ∈ more) : heap.LinksMet (marks.insert handle.index.toNat) more := by
  intro link next links marked
  by_cases same : handle.index.toNat = link.index.toNat
  · obtain ⟨state, found⟩ := links
    obtain rfl := eq_of_lookup live found same
    cases live.symm.trans found
    exact .inl (references next (by simp [Node.references]))
  · have marked : marks.contains link.index.toNat := by simpa [same] using marked
    rcases met link next links marked with waits | done
    · rcases List.mem_cons.mp waits with rfl | waits
      · exact .inr (by simp)
      · exact .inl (rest next waits)
    · exact .inr fun slot live => by simp [done slot live]

theorem markFrom_links {marks : Marks} {labels : Labels} {work : Stack Handle} (peak : Nat)
    (met : heap.LinksMet marks work.items) : heap.LinksMet (heap.markFrom marks labels work peak).marks [] := by
  fun_induction markFrom heap marks labels work peak with
  | case1 marks labels work peak popped =>
    rw [Stack.pop?_eq_none.mp popped] at met
    exact met
  | case2 marks labels work peak handle rest popped fault found ih =>
    rw [Stack.pop?_eq_some popped] at met
    exact ih (met.drop fun slot live => by simp [found] at live)
  | case3 marks labels work peak handle rest popped slot found marked ih =>
    rw [Stack.pop?_eq_some popped] at met
    exact ih (met.drop fun _ _ => marked)
  | case4 marks labels work peak handle rest popped slot found unmarked named grown ih =>
    rw [Stack.pop?_eq_some popped] at met
    refine ih (met.enter found ?_ ?_)
    · intro next member
      simp [grown, member]
    · intro other member
      simp [grown, member]

theorem lookup_freeSlots {indices : List Nat} (distinct : indices.Nodup) {handle : Handle} {slot : Slot} :
    (heap.freeSlots indices).lookup handle = .ok slot ↔ heap.lookup handle = .ok slot ∧ handle.index.toNat ∉ indices := by
  rw [lookup_eq_ok, lookup_eq_ok, entries_freeSlots heap distinct]
  split
  · rename_i dropped
    simp [dropped]
  · rename_i stays
    simp [stays]

/-- Occupied slots are not in the free list before they are freed. -/
theorem FreeListSound.freeSlots {indices : List Nat} (sound : heap.FreeListSound) (fits : heap.Addressable)
    (distinct : indices.Nodup) (occupied : ∀ index ∈ indices, ∃ slot, heap.slotAt? index = some slot) :
    (heap.freeSlots indices).FreeListSound := by
  have below : ∀ index ∈ indices, index < heap.capacity := by
    intro index member
    obtain ⟨slot, present⟩ := occupied index member
    obtain ⟨entry, present, _⟩ := Option.bind_eq_some_iff.mp present
    exact (Array.getElem?_eq_some_iff.mp present).1
  have exactly : ∀ index ∈ indices, (UInt32.ofNat index).toNat = index := fun index member =>
    UInt32.toNat_ofNat_of_lt' (Nat.lt_of_lt_of_le (below index member) fits)
  have unlisted : ∀ index ∈ heap.free, index.toNat ∉ indices := by
    intro index listed member
    obtain ⟨generation, empty⟩ := sound.empty index listed
    obtain ⟨slot, present⟩ := occupied _ member
    simp [slotAt?, empty] at present
  constructor
  · intro index listed
    rw [free_freeSlots, List.mem_append, List.mem_reverse, List.mem_map] at listed
    rw [entries_freeSlots heap distinct]
    rcases listed with ⟨place, member, rfl⟩ | listed
    · rw [exactly place member, if_pos member, Array.getElem?_eq_getElem (below place member)]
      exact ⟨_, rfl⟩
    · rw [if_neg (unlisted index listed)]
      exact sound.empty index listed
  · rw [free_freeSlots]
    have apart : (indices.map UInt32.ofNat).Nodup := by
      refine List.pairwise_map.mpr (distinct.imp_of_mem ?_)
      intro left right leftMember rightMember different same
      apply different
      rw [← exactly left leftMember, ← exactly right rightMember, same]
    refine List.nodup_append.mpr ⟨List.pairwise_reverse.mpr (apart.imp Ne.symm), sound.distinct, ?_⟩
    rintro index reused _ listed rfl
    obtain ⟨place, member, rfl⟩ := List.mem_map.mp (List.mem_reverse.mp reused)
    exact unlisted _ listed ((exactly place member).symm ▸ member)

/-- What is left reads as before, and what it links to is left with it. -/
structure Sweeps (before after : Heap) : Prop where
  capacity : after.capacity = before.capacity
  free : before.Addressable → before.FreeListSound → after.FreeListSound
  kept : ∀ {handle slot}, after.lookup handle = .ok slot → before.lookup handle = .ok slot
  links : ∀ {link next slot slot'}, after.lookup link = .ok slot → before.LinksTo link next →
    before.lookup next = .ok slot' → after.lookup next = .ok slot'

theorem collect_sweeps (heap : Heap) (extra : List Handle) : Sweeps heap (heap.collect extra).2 := by
  let roots := heap.roots.map Prod.fst ++ extra
  let garbage := heap.garbage (heap.mark roots).marks
  rw [collect_eq]
  have distinct : garbage.Nodup := (heap.garbage_increasing _).imp Nat.ne_of_lt
  have lookup : ∀ handle slot, (heap.collectBySet extra).2.lookup handle = .ok slot ↔
      heap.lookup handle = .ok slot ∧ handle.index.toNat ∉ garbage := fun _ _ => lookup_freeSlots distinct
  have met : heap.LinksMet (heap.mark roots).marks [] := markFrom_links _ (by simp [LinksMet])
  constructor
  case capacity => exact heap.size_freeSlots garbage
  case kept => exact fun found => ((lookup _ _).mp found).1
  case links =>
    intro link next slot slot' found links foundNext
    obtain ⟨live, stays⟩ := (lookup _ _).mp found
    refine (lookup _ _).mpr ⟨foundNext, fun dropped => ?_⟩
    have present : heap.slotAt? link.index.toNat = some slot := by
      rw [slotAt?, lookup_eq_ok.mp live]
      rfl
    have marked : (heap.mark roots).marks.contains link.index.toNat :=
      Decidable.byContradiction fun unmarked =>
        stays (mem_garbage.mpr ⟨⟨slot, present⟩, by simpa using unmarked⟩)
    have markedNext := (met link next links marked).resolve_left (by simp) slot' foundNext
    rw [(mem_garbage.mp dropped).2] at markedNext
    cases markedNext
  case free =>
    intro fits sound
    exact (sound.freeSlots fits distinct fun _ member => (mem_garbage.mp member).1).of_entries rfl rfl

theorem Sweeps.resolves (sweeps : Sweeps before after) (resolves : before.Resolves target handle)
    (live : after.lookup handle = .ok slot) : after.Resolves target handle := by
  induction resolves generalizing slot with
  | here solid =>
    obtain ⟨slot', found, noLink⟩ := solid
    cases found.symm.trans (sweeps.kept live)
    exact .here ⟨slot, live, noLink⟩
  | @link passed next links rest ih =>
    obtain ⟨slot', found⟩ : ∃ slot', before.lookup next = .ok slot' := by
      cases rest with
      | here solid => exact ⟨_, solid.choose_spec.1⟩
      | link links _ => exact ⟨_, links.choose_spec⟩
    have found' := sweeps.links live links found
    obtain ⟨state, linked⟩ := links
    cases linked.symm.trans (sweeps.kept live)
    exact .link ⟨state, live⟩ (ih found')

end Heap

end LazyGraph

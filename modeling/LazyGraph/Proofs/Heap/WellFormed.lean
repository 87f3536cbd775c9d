import LazyGraph.Proofs.Code.Scope
import LazyGraph.Proofs.Heap.Growth
import LazyGraph.Proofs.Heap.Waiting

/-! Well-formed heaps.

Every handle that a live node holds or names is live, and all code is scoped for the
environment it will run in. Allocation keeps this when the new nodes have it, a write
when the written node has it, and a walk on such a heap never meets a dead handle. -/

set_option autoImplicit false

namespace LazyGraph.Heap

def Live (heap : Heap) (handle : Handle) : Prop :=
  ∃ slot, heap.lookup handle = .ok slot

/-- Nodes refer to live nodes and run scoped code. As on every heap that is in order, the
free list names empty slots and what is waited for is live. -/
structure WellFormed (heap : Heap) : Prop where
  nodes : ∀ {handle slot}, heap.lookup handle = .ok slot → slot.node.WellFormed heap.Live
  waits : ∀ {waiter next}, heap.waits.lookup waiter = some next → heap.Live next
  free : heap.FreeListSound

variable {before after heap : Heap} {handle node link target : Handle} {actor : Actor} {old new : Slot}
  {added : List (Handle × Node)}

theorem Gains.widens (gains : Gains before after added) (handle : Handle) (live : before.Live handle) :
    after.Live handle := by
  obtain ⟨slot, found⟩ := live
  exact ⟨slot, gains.kept found⟩

theorem Rewrites.live_iff (rewrites : before.Rewrites after node old new) (handle : Handle) :
    after.Live handle ↔ before.Live handle := by
  unfold Live
  rw [rewrites.lookup]
  split
  · rename_i same
    exact ⟨fun _ => ⟨old, same ▸ rewrites.found⟩, fun _ => ⟨new, rfl⟩⟩
  · rfl

namespace WellFormed

theorem enlarges (formed : before.WellFormed) (enlarges : Enlarges [] [] added before after)
    (fits : after.Addressable) (each : ∀ {handle node}, (handle, node) ∈ added → node.WellFormed after.Live) :
    after.WellFormed := by
  obtain ⟨free, gains⟩ := enlarges.result fits formed.free
  refine ⟨fun {handle slot} found => ?_, fun registered => ?_, free⟩
  · rcases gains.fresh found with found | ⟨node, member, same⟩
    · exact (formed.nodes found).mono gains.widens
    · subst same
      exact each member
  · rw [enlarges.waits] at registered
    exact gains.widens _ (formed.waits registered)

theorem ofSettings (settings : HeapSettings) : (Heap.ofSettings settings).WellFormed where
  nodes := fun found => by simp [lookup_eq_ok, Heap.ofSettings] at found
  waits := nofun
  free := ⟨nofun, .nil⟩

theorem alloc {content : Node} (formed : heap.WellFormed) (sound : content.WellFormed heap.Live)
    (fits : (Heap.alloc content heap).state.Addressable) : (Heap.alloc content heap).state.WellFormed := by
  rcases alloc_cases content heap with ⟨handle, after, ended, enlarges⟩ | ⟨limit, refused⟩
  · rw [ended] at fits ⊢
    refine formed.enlarges enlarges fits fun added => ?_
    cases List.mem_singleton.mp added
    exact sound.mono (enlarges.result fits formed.free).2.widens
  · rw [refused]
    exact formed

theorem rewrites (formed : before.WellFormed) (rewrites : before.Rewrites after node old new)
    (waits : after.waits = before.waits) (content : new.node.WellFormed before.Live) : after.WellFormed := by
  have widens : ∀ handle, before.Live handle → after.Live handle := fun handle => (rewrites.live_iff handle).mpr
  refine ⟨fun {handle slot} found => ?_, fun registered => ?_, formed.free.rewrites rewrites⟩
  · rw [rewrites.lookup] at found
    split at found
    · cases found
      exact content.mono widens
    · exact (formed.nodes found).mono widens
  · rw [waits] at registered
    exact widens _ (formed.waits registered)

/-- Bookkeeping changes no node; waits may be withdrawn, and entered for what is live. -/
theorem of_entries (formed : before.WellFormed) (entries : after.entries = before.entries)
    (free : after.free = before.free)
    (waits : ∀ {waiter next}, after.waits.lookup waiter = some next → before.Live next) : after.WellFormed := by
  have widens : ∀ handle, before.Live handle → after.Live handle :=
    fun handle ⟨slot, found⟩ => ⟨slot, (lookup_congr entries handle).trans found⟩
  refine ⟨fun {handle slot} found => ?_, fun registered => widens _ (waits registered),
    formed.free.of_entries entries free⟩
  rw [lookup_congr entries] at found
  exact (formed.nodes found).mono widens

theorem endWait (formed : heap.WellFormed) (actor : Actor) : (heap.endWait actor).WellFormed := by
  refine formed.of_entries rfl rfl fun registered => ?_
  rw [lookup_endWait] at registered
  split at registered
  · cases registered
  · exact formed.waits registered

theorem notify (formed : heap.WellFormed) : heap.notify.WellFormed :=
  formed.of_entries rfl rfl formed.waits

theorem release (formed : heap.WellFormed) (node : Handle) (actor : Actor) :
    (Heap.release node actor heap).state.WellFormed := by
  cases found : heap.lookup node with
  | error fault =>
    have refused : transition node (Slot.release actor) heap = .error fault heap := by
      simp [transition, found]
    rw [Heap.release, bind_error refused]
    exact formed
  | ok slot =>
    rcases transition_cases (Slot.release actor) found with ⟨_, refused⟩ | ⟨slot', changed, written⟩
    · rw [Heap.release, bind_ok refused]
      exact formed.notify
    · rw [Heap.release, bind_ok written]
      have same : slot'.node = slot.node := by
        unfold Slot.release at changed
        split at changed <;> cases changed
        rfl
      have rewritten : (heap.put node.index.toNat slot').WellFormed :=
        formed.rewrites (put_rewrites found rfl rfl) rfl (same ▸ formed.nodes found)
      exact rewritten.notify

theorem redirect (formed : heap.WellFormed) (live : heap.Live link) (isLive : heap.Live target) :
    ∃ done after, Heap.redirect link target heap = .ok done after ∧ after.WellFormed := by
  obtain ⟨slot, found⟩ := live
  rcases transition_cases (Slot.redirect target) found with ⟨_, refused⟩ | ⟨slot', changed, written⟩
  · exact ⟨false, heap, refused, formed⟩
  · refine ⟨true, _, written, formed.rewrites (put_rewrites found rfl rfl) rfl ?_⟩
    unfold Slot.redirect at changed
    split at changed <;> cases changed
    exact .indirection isLive

theorem beginWait (formed : heap.WellFormed) (live : heap.Live node) (actor : Actor) :
    (∃ after, Heap.beginWait actor node heap = .ok () after ∧ after.entries = heap.entries ∧ after.WellFormed) ∨
      Heap.beginWait actor node heap = .error (.nonTermination node) heap := by
  obtain ⟨slot, found⟩ := live
  obtain ⟨back, walked⟩ := leadsBack_live formed.waits found actor (heap.waits.length + 1)
  unfold Heap.beginWait
  rw [walked]
  cases back with
  | true => exact .inr rfl
  | false =>
    refine .inl ⟨_, rfl, rfl, formed.of_entries rfl rfl fun registered => ?_⟩
    rw [lookup_insertWait] at registered
    split at registered
    · cases registered
      exact ⟨slot, found⟩
    · exact formed.waits registered

/-- A walk from a live handle ends at a live node or in a loop, past live links. -/
theorem followFrom (formed : heap.WellFormed) {marks : Marks} {links : List Handle} {current : Handle}
    (live : heap.Live current) (passed : ∀ link ∈ links, heap.Live link) :
    (∀ fault, (heap.followFrom marks links current).landing ≠ .broken fault) ∧
      ∀ link ∈ (heap.followFrom marks links current).links, heap.Live link := by
  have reversed : ∀ link ∈ links.reverse, heap.Live link :=
    fun link member => passed link (List.mem_reverse.mp member)
  fun_induction Heap.followFrom heap marks links current with
  | case1 marks links current fault missing =>
    obtain ⟨slot, found⟩ := live
    cases missing.symm.trans found
  | case2 => exact ⟨by simp, reversed⟩
  | case3 marks links current slot found target isLink unmet ih =>
    have target' := (formed.nodes found).references target (by simp [isLink, Node.references])
    have passed' : ∀ link ∈ current :: links, heap.Live link := by
      intro link member
      rcases List.mem_cons.mp member with rfl | member
      · exact live
      · exact passed link member
    exact ih target' passed' fun link member => passed' link (List.mem_reverse.mp member)
  | case4 => exact ⟨by simp, reversed⟩

end WellFormed

end LazyGraph.Heap

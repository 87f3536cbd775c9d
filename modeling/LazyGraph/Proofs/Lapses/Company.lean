import LazyGraph.Proofs.Heap.Contention
import LazyGraph.Proofs.Heap.Growth

/-! What other actors may do meanwhile.

They read, claim, complete, release and redirect, each step of a completion on its own, and
they allocate single nodes and groups. Whatever they do, a thunk that an actor holds stays its
own, and a value stays where it is. -/

set_option autoImplicit false

namespace LazyGraph

def SlotEvent.actor : SlotEvent → Actor
  | .read actor .. | .claim actor .. | .check actor .. | .write actor .. | .mark actor .. | .release actor ..
  | .redirect actor .. => actor

/-! ### What lasts -/

theorem Heap.Rewrites.state_of {before after : Heap} {node : Handle} {old new : Slot} (rewrites : before.Rewrites after node old new)
    (other : Handle) : after.state other = if other = node then .ok new.state else before.state other := by
  simp only [Heap.state, rewrites.lookup]
  split <;> rfl

theorem Heap.Rewrites.value {before after : Heap} {node : Handle} {old new : Slot} (rewrites : before.Rewrites after node old new)
    (kept : old.node.tag.isWhnf → new.node = old.node) {handle : Handle} {content : Node} (isWhnf : content.tag.isWhnf)
    (found : before.node handle = .ok content) : after.node handle = .ok content := by
  simp only [Heap.node, rewrites.lookup]
  split
  · rename_i same
    rw [same, Heap.node, rewrites.found] at found
    obtain rfl := Except.ok.inj found
    exact congrArg Except.ok (kept isWhnf)
  · exact found

/-- What the actor holds stays its own, and values stay where they are. -/
structure Heap.Respects (actor : Actor) (before after : Heap) : Prop where
  held : ∀ {node}, before.state node = .ok (.inProgress actor) → after.state node = .ok (.inProgress actor)
  value : ∀ {handle node}, node.tag.isWhnf → before.node handle = .ok node → after.node handle = .ok node

namespace Heap.Respects

variable {before middle after : Heap} {actor : Actor} {node : Handle} {old new : Slot}

theorem refl (actor : Actor) (heap : Heap) : heap.Respects actor heap :=
  ⟨id, fun _ => id⟩

theorem trans (early : before.Respects actor middle) (late : middle.Respects actor after) : before.Respects actor after :=
  ⟨fun held => late.held (early.held held), fun isWhnf found => late.value isWhnf (early.value isWhnf found)⟩

theorem of_lookup (kept : ∀ handle slot, before.lookup handle = .ok slot → after.lookup handle = .ok slot) :
    before.Respects actor after where
  held := by
    intro node held
    cases found : before.lookup node with
    | error fault => simp [Heap.state, found, Except.map] at held
    | ok slot => simpa [Heap.state, found, kept node slot found] using held
  value := by
    intro handle node _ present
    cases found : before.lookup handle with
    | error fault => simp [Heap.node, found, Except.map] at present
    | ok slot => simpa [Heap.node, found, kept handle slot found] using present

theorem of_entries (entries : after.entries = before.entries) : before.Respects actor after :=
  of_lookup fun handle _ found => (lookup_congr entries handle).trans found

/-- One slot changes, and neither its owner nor, if it is a value, its node. -/
theorem of_rewrites (rewrites : before.Rewrites after node old new)
    (held : old.state = .inProgress actor → new.state = .inProgress actor)
    (value : old.node.tag.isWhnf → new.node = old.node) : before.Respects actor after where
  held := by
    intro other holds
    rw [rewrites.state_of]
    split
    · rename_i same
      rw [same, Heap.state, rewrites.found] at holds
      exact congrArg Except.ok (held (Except.ok.inj holds))
    · exact holds
  value := rewrites.value value

end Heap.Respects

/-! ### Order among actors -/

namespace Shared

variable {before after : Shared} {event : SlotEvent} {actor : Actor} {node handle : Handle} {heap : Heap}

/-- Who completes a node holds it, and what waits for its value is a thunk. -/
structure Steady (shared : Shared) : Prop where
  completing : ∀ {actor node}, shared.Completes actor node → shared.heap.state node = .ok (.inProgress actor)
  thunk : ∀ {node slot}, shared.Pending node slot → slot.node.tag = .thunk

theorem Steady.consistent (steady : Steady before) : Consistent [] before where
  completing := steady.completing
  thunk := steady.thunk
  untouched := fun _ => rfl
  agreed := nofun
  once := fun _ => Nat.zero_le 1
  settled := nofun
  owned := nofun

theorem Steady.step (steady : Steady before) (step : Step before event after) : Steady after :=
  have consistent := steady.consistent.step step
  ⟨consistent.completing, consistent.thunk⟩

theorem Steady.gains {added : List (Handle × Node)} (steady : Steady before) (gains : before.heap.Gains heap added) :
    Steady { before with heap := heap } where
  completing := by
    intro actor node completes
    have held := steady.completing completes
    cases found : before.heap.lookup node with
    | error fault => simp [Heap.state, found, Except.map] at held
    | ok slot => simpa [Heap.state, found, gains.kept found] using held
  thunk := by
    rintro node slot ⟨found, unfinished, unwritten⟩
    rcases gains.fresh found with found | ⟨content, _, rfl⟩
    · exact steady.thunk ⟨found, unfinished, unwritten⟩
    · cases content with
      | thunk => rfl
      | _ => exact absurd rfl unfinished

/-- A step changes one slot or none; a value stays, and so do the owners of all but the actor's nodes. -/
theorem Step.changes (step : Step before event after) :
    (after.heap.entries = before.heap.entries ∧ after.heap.free = before.heap.free) ∨
      ∃ node old new, before.heap.Rewrites after.heap node old new ∧ (Steady before →
        (old.node.tag.isWhnf → new.node = old.node) ∧
          ∀ other, other ≠ event.actor → old.state = .inProgress other → new.state = .inProgress other) := by
  cases step with
  | read | disown | own => exact .inl ⟨rfl, rfl⟩
  | claim idle answered =>
    rcases claim_answer answered with ⟨_, rfl⟩ | ⟨_, content, rewrites⟩
    · exact .inl ⟨rfl, rfl⟩
    · exact .inr ⟨_, _, _, rewrites, fun _ => ⟨fun _ => rfl, fun other _ held => by cases held⟩⟩
  | @write _ _ result slot seen found =>
    refine .inr ⟨_, _, _, write_rewrites found result, fun steady => ⟨fun isWhnf => ?_, fun other _ held => held⟩⟩
    have pending := steady.consistent.pending_of_seen seen found
    simp [steady.thunk pending, Tag.isWhnf] at isWhnf
  | @mark _ node slot written found =>
    refine .inr ⟨_, _, _, mark_rewrites found, fun steady => ⟨fun _ => rfl, fun other another held => ?_⟩⟩
    have holder := steady.completing (.inl written)
    simp only [Heap.state, found, Except.map, held, Except.ok.injEq, SlotState.inProgress.injEq] at holder
    exact absurd holder another
  | release idle answered =>
    rcases release_answer answered with ⟨_, rfl⟩ | ⟨_, content, rewrites⟩
    · exact .inl ⟨rfl, rfl⟩
    · refine .inr ⟨_, _, _, rewrites, fun _ => ⟨fun _ => rfl, fun other another held => ?_⟩⟩
      cases held
      exact absurd rfl another
  | redirect idle answered =>
    rcases redirect_answer answered with ⟨_, rfl⟩ | ⟨_, state, old, rewrites⟩
    · exact .inl ⟨rfl, rfl⟩
    · exact .inr ⟨_, _, _, rewrites, fun _ => ⟨by simp [Node.tag, Tag.isWhnf], fun other _ held => held⟩⟩

theorem Step.capacity (step : Step before event after) : after.heap.capacity = before.heap.capacity := by
  rcases step.changes with ⟨entries, _⟩ | ⟨_, _, _, rewrites, _⟩
  · exact congrArg Array.size entries
  · exact rewrites.capacity

theorem Step.value {content : Node} (steady : Steady before) (step : Step before event after) (isWhnf : content.tag.isWhnf)
    (found : before.heap.node handle = .ok content) : after.heap.node handle = .ok content := by
  rcases step.changes with ⟨entries, _⟩ | ⟨node, old, new, rewrites, lasts⟩
  · have respects : before.heap.Respects event.actor after.heap := .of_entries entries
    exact respects.value isWhnf found
  · exact rewrites.value (lasts steady).1 isWhnf found

theorem Step.respects (steady : Steady before) (step : Step before event after) (another : actor ≠ event.actor) :
    before.heap.Respects actor after.heap := by
  rcases step.changes with ⟨entries, _⟩ | ⟨node, old, new, rewrites, lasts⟩
  · exact .of_entries entries
  · exact .of_rewrites rewrites ((lasts steady).2 actor another) (lasts steady).1

end Shared

namespace Lapses

/-! ### Moves of others -/

/-- The heap, how far the others have come in completing nodes, and the slots that they have set
aside for groups. -/
structure Surroundings where
  heap : Heap
  phase : Actor → Phase
  pledged : List Handle

namespace Surroundings

inductive Move (actor : Actor) (before : Surroundings) : Surroundings → Prop where
  | slot {event : SlotEvent} {after : Shared} (step : Shared.Step ⟨before.heap, before.phase⟩ event after)
      (another : actor ≠ event.actor) : Move actor before ⟨after.heap, after.phase, before.pledged⟩
  | alloc {handle : Handle} {heap : Heap} (node : Node) (allocated : Heap.alloc node before.heap = .ok handle heap) :
      Move actor before { before with heap := heap }
  | openGroup {count : UInt64} {handles : List Handle} {heap : Heap}
      (opened : Heap.openGroup count before.heap = .ok handles heap) :
      Move actor before { before with heap := heap, pledged := handles ++ before.pledged }
  | closeGroup {count : UInt64} {handles rest : List Handle} (nodes : List Node)
      (own : before.pledged.Perm (handles ++ rest)) (length : handles.length = count.toNat) :
      Move actor before
        { before with heap := (Heap.closeGroup count handles nodes before.heap).state, pledged := rest }
  | aside {heap : Heap} (entries : heap.entries = before.heap.entries) (free : heap.free = before.heap.free) :
      Move actor before { before with heap := heap }

def shared (surroundings : Surroundings) (actor : Actor) (own : Phase) : Shared :=
  ⟨surroundings.heap, Shared.enter ⟨surroundings.heap, surroundings.phase⟩ actor own⟩

/-- The heap is in order, and so are the actors; `mine` is what this one has set aside. -/
structure Orderly (surroundings : Surroundings) (actor : Actor) (own : Phase) (mine : List Handle) : Prop where
  free : surroundings.heap.FreeListSound
  reserved : surroundings.heap.Reserved (mine ++ surroundings.pledged)
  steady : (surroundings.shared actor own).Steady

variable {before after : Surroundings} {actor other : Actor} {own phase : Phase} {mine : List Handle} {event : SlotEvent}

theorem phase_shared (surroundings : Surroundings) (own : Phase) : (surroundings.shared actor own).phase actor = own := by
  simp [shared, Shared.enter]

theorem phase_shared_ne (surroundings : Surroundings) (own : Phase) (another : actor ≠ other) :
    (surroundings.shared actor own).phase other = surroundings.phase other := by
  simp [shared, Shared.enter, Ne.symm another]

theorem enter_shared (before : Surroundings) (own phase : Phase) (heap : Heap) (pledged : List Handle)
    (another : actor ≠ other) :
    Surroundings.shared ⟨heap, Shared.enter ⟨before.heap, before.phase⟩ other phase, pledged⟩ actor own =
      ⟨heap, (before.shared actor own).enter other phase⟩ := by
  refine congrArg (Shared.mk heap) (funext fun third => ?_)
  by_cases mine : third = actor
  · simp [shared, Shared.enter, mine, another]
  · simp [shared, Shared.enter, mine]

/-- Another actor's step is the same step where this actor is somewhere in a completion. -/
theorem step_shared {after : Shared} (step : Shared.Step ⟨before.heap, before.phase⟩ event after)
    (another : actor ≠ event.actor) (own : Phase) (pledged : List Handle) :
    Shared.Step (before.shared actor own) event (Surroundings.shared ⟨after.heap, after.phase, pledged⟩ actor own) := by
  have phases : (before.shared actor own).phase event.actor = before.phase event.actor :=
    before.phase_shared_ne own another
  cases step with
  | read idle found => exact .read (phases.trans idle) found
  | claim idle answered => exact .claim (phases.trans idle) answered
  | disown idle found foreign => exact .disown (phases.trans idle) found foreign
  | @own worker node idle found result =>
    have entered := enter_shared before own (.seen node result) before.heap pledged (show actor ≠ worker from another)
    exact entered ▸ .own (phases.trans idle) found result
  | @write worker node result slot seen found =>
    have entered := enter_shared before own (.written node) (before.heap.put node.index.toNat { slot with node := result })
      pledged (show actor ≠ worker from another)
    exact entered ▸ .write (phases.trans seen) found
  | @mark worker node slot written found =>
    have entered := enter_shared before own .idle
      (before.heap.put node.index.toNat { slot with state := .evaluated }).notify pledged
      (show actor ≠ worker from another)
    exact entered ▸ .mark (phases.trans written) found
  | release idle answered => exact .release (phases.trans idle) answered
  | redirect idle answered => exact .redirect (phases.trans idle) answered

theorem Orderly.step {heap : Heap} {others : Actor → Phase} (orderly : before.Orderly actor own mine)
    (step : Shared.Step (before.shared actor own) event (Surroundings.shared ⟨heap, others, before.pledged⟩ actor phase)) :
    Orderly ⟨heap, others, before.pledged⟩ actor phase mine := by
  have steady := orderly.steady.step step
  rcases step.changes with ⟨entries, free⟩ | ⟨node, old, new, rewrites, _⟩
  · exact ⟨orderly.free.of_entries entries free, orderly.reserved.of_entries entries free, steady⟩
  · exact ⟨orderly.free.rewrites rewrites, orderly.reserved.rewrites rewrites, steady⟩

theorem Orderly.proceed {heap : Heap} (orderly : before.Orderly actor own mine)
    (step : Shared.Step (before.shared actor own) event ⟨heap, (before.shared actor own).enter actor phase⟩) :
    Orderly { before with heap := heap } actor phase mine := by
  have entered : (before.shared actor own).enter actor phase =
      (Surroundings.shared ⟨heap, before.phase, before.pledged⟩ actor phase).phase := by
    funext other
    by_cases same : other = actor
    · simp [shared, Shared.enter, same]
    · simp [shared, Shared.enter, same]
  rw [entered] at step
  exact orderly.step step

theorem Orderly.enlarges {heap : Heap} {taken left others mine' pledged : List Handle} {added : List (Handle × Node)}
    (orderly : before.Orderly actor own mine) (enlarges : Heap.Enlarges taken left added before.heap heap)
    (fits : heap.Addressable) (early : (mine ++ before.pledged).Perm (taken ++ others))
    (late : (left ++ others).Perm (mine' ++ pledged)) :
    Orderly ⟨heap, before.phase, pledged⟩ actor own mine' ∧ before.heap.Respects actor heap := by
  obtain ⟨free, reserved, gains⟩ := enlarges.gains fits orderly.free (orderly.reserved.perm early)
  exact ⟨⟨free, reserved.perm late, orderly.steady.gains gains⟩, .of_lookup fun _ _ => gains.kept⟩

theorem Orderly.aside {heap : Heap} (orderly : before.Orderly actor own mine) (entries : heap.entries = before.heap.entries)
    (free : heap.free = before.heap.free) :
    Orderly ⟨heap, before.phase, before.pledged⟩ actor own mine ∧ before.heap.Respects actor heap := by
  have same : ∀ handle slot, heap.lookup handle = .ok slot ↔ before.heap.lookup handle = .ok slot := by
    intro handle slot
    rw [Heap.lookup_congr entries]
  refine ⟨⟨orderly.free.of_entries entries free, orderly.reserved.of_entries entries free, ?_⟩, .of_entries entries⟩
  exact orderly.steady.gains (.of_same same)

theorem Move.grows (move : Move actor before after) : before.heap.capacity ≤ after.heap.capacity := by
  cases move with
  | slot step another => exact Nat.le_of_eq step.capacity.symm
  | alloc node allocated =>
    rcases Heap.alloc_cases node before.heap with ⟨handle, heap, ended, enlarges⟩ | ⟨limit, refused⟩
    · cases allocated.symm.trans ended
      exact enlarges.grows
    · cases allocated.symm.trans refused
  | @openGroup count handles heap opened =>
    rcases Heap.openGroup_cases count before.heap with ⟨handles', heap', ended, _, enlarges⟩ | ⟨limit, refused⟩
    · cases opened.symm.trans ended
      exact enlarges.grows
    · cases opened.symm.trans refused
  | closeGroup nodes own length =>
    rcases Heap.closeGroup_cases length nodes before.heap with ⟨heap, _, ended, enlarges⟩ | ⟨heap, _, ended, enlarges⟩
    · exact ended ▸ enlarges.grows
    · exact ended ▸ enlarges.grows
  | aside entries free => exact Nat.le_of_eq (congrArg Array.size entries.symm)

/-- What another actor does keeps the order, and respects what this actor holds and the values. -/
theorem Move.keeps (move : Move actor before after) (fits : after.heap.Addressable)
    (orderly : before.Orderly actor own mine) : after.Orderly actor own mine ∧ before.heap.Respects actor after.heap := by
  cases move with
  | slot step another =>
    have shown := step_shared step another own before.pledged
    exact ⟨orderly.step shown, shown.respects orderly.steady another⟩
  | alloc node allocated =>
    rcases Heap.alloc_cases node before.heap with ⟨handle, heap, ended, enlarges⟩ | ⟨limit, refused⟩
    · cases allocated.symm.trans ended
      exact orderly.enlarges enlarges fits (.refl _) (.refl _)
    · cases allocated.symm.trans refused
  | @openGroup count handles heap opened =>
    rcases Heap.openGroup_cases count before.heap with ⟨handles', heap', ended, _, enlarges⟩ | ⟨limit, refused⟩
    · cases opened.symm.trans ended
      refine orderly.enlarges enlarges fits (.refl _) ?_
      simpa using (List.perm_append_comm_assoc handles mine before.pledged)
    · cases opened.symm.trans refused
  | @closeGroup count handles rest nodes own length =>
    have early : (mine ++ before.pledged).Perm (handles ++ (mine ++ rest)) :=
      (own.append_left mine).trans (List.perm_append_comm_assoc mine handles rest)
    rcases Heap.closeGroup_cases length nodes before.heap with ⟨heap, _, ended, enlarges⟩ | ⟨heap, _, ended, enlarges⟩
    · rw [ended] at fits ⊢
      exact orderly.enlarges enlarges fits early (.refl _)
    · rw [ended] at fits ⊢
      exact orderly.enlarges enlarges fits early (.refl _)
  | aside entries free => exact orderly.aside entries free

end Surroundings

end Lapses

end LazyGraph

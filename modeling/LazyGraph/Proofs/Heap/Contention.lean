import LazyGraph.Proofs.Heap.Waiting

/-! Actors that work on the same slots at the same time.

Completing a thunk takes three steps: the actor looks whether it holds the slot, writes
the result, and only then marks the slot evaluated, while others read, claim, release and
redirect in between. What they rely on holds in every order of these steps: between the
write and the mark the slot is still in progress, so nobody else takes it over, and a slot
that can be claimed has the payload it had from the beginning. -/

set_option autoImplicit false

namespace LazyGraph

inductive Phase where
  | idle
  | seen (node : Handle) (result : Node)
  | written (node : Handle)

structure Shared where
  heap : Heap
  phase : Actor → Phase

inductive SlotEvent where
  | read (actor : Actor) (node : Handle) (payload : Node)
  | claim (actor : Actor) (node : Handle) (won : Bool)
  -- The first step of a completion; without the slot it is also the last.
  | check (actor : Actor) (node : Handle) (owned : Bool)
  | write (actor : Actor) (node : Handle) (old new : Node)
  | mark (actor : Actor) (node : Handle)
  | release (actor : Actor) (node : Handle) (done : Bool)
  | redirect (actor : Actor) (link target : Handle) (done : Bool)

def SlotEvent.overwrites (node : Handle) : SlotEvent → Bool
  | .write _ written old _ => written = node ∧ old.tag = .thunk
  | _ => false

namespace Shared

-- The actor goes on to another phase.
def enter (shared : Shared) (actor : Actor) (phase : Phase) : Actor → Phase :=
  fun other => if other = actor then phase else shared.phase other

/-- An actor in the middle of a completion goes on with it; any other may do what it likes. -/
inductive Step (before : Shared) : SlotEvent → Shared → Prop where
  | read {actor : Actor} {node : Handle} {payload : Node} (idle : before.phase actor = .idle)
      (found : before.heap.node node = .ok payload) : Step before (.read actor node payload) before
  | claim {actor : Actor} {node : Handle} {won : Bool} {heap : Heap} (idle : before.phase actor = .idle)
      (answered : Heap.claim node actor before.heap = .ok won heap) :
      Step before (.claim actor node won) { before with heap := heap }
  | disown {actor : Actor} {node : Handle} {state : SlotState} (idle : before.phase actor = .idle)
      (found : before.heap.state node = .ok state) (other : state ≠ .inProgress actor) :
      Step before (.check actor node false) { before with heap := before.heap.notify }
  | own {actor : Actor} {node : Handle} (idle : before.phase actor = .idle)
      (found : before.heap.state node = .ok (.inProgress actor)) (result : Node) :
      Step before (.check actor node true) { before with phase := before.enter actor (.seen node result) }
  | write {actor : Actor} {node : Handle} {result : Node} {slot : Slot}
      (seen : before.phase actor = .seen node result) (found : before.heap.lookup node = .ok slot) :
      Step before (.write actor node slot.node result)
        ⟨before.heap.put node.index.toNat { slot with node := result }, before.enter actor (.written node)⟩
  | mark {actor : Actor} {node : Handle} {slot : Slot} (written : before.phase actor = .written node)
      (found : before.heap.lookup node = .ok slot) :
      Step before (.mark actor node)
        ⟨(before.heap.put node.index.toNat { slot with state := .evaluated }).notify, before.enter actor .idle⟩
  | release {actor : Actor} {node : Handle} {done : Bool} {heap : Heap} (idle : before.phase actor = .idle)
      (answered : Heap.release node actor before.heap = .ok done heap) :
      Step before (.release actor node done) { before with heap := heap }
  | redirect {actor : Actor} {link target : Handle} {done : Bool} {heap : Heap}
      (idle : before.phase actor = .idle) (answered : Heap.redirect link target before.heap = .ok done heap) :
      Step before (.redirect actor link target done) { before with heap := heap }

inductive Run (start : Heap) : List SlotEvent → Shared → Prop where
  | start : Run start [] ⟨start, fun _ => .idle⟩
  | step {past : List SlotEvent} {event : SlotEvent} {before after : Shared} (run : Run start past before)
      (step : Step before event after) : Run start (event :: past) after

/-- The actor has won the node, and has neither released nor completed it since. -/
inductive Owns (actor : Actor) (node : Handle) : List SlotEvent → Prop where
  | claimed {past : List SlotEvent} : Owns actor node (.claim actor node true :: past)
  | later {past : List SlotEvent} {event : SlotEvent} (owns : Owns actor node past)
      (unreleased : event ≠ .release actor node true) (unmarked : event ≠ .mark actor node) :
      Owns actor node (event :: past)

variable {before after now : Shared} {actor other owner : Actor} {node link target : Handle} {event : SlotEvent}
  {events past : List SlotEvent} {heap heap' : Heap}

/-! ### What the steps do to the slots -/

theorem claim_answer {won : Bool} (answered : Heap.claim node actor heap = .ok won heap') :
    (won = false ∧ heap' = heap) ∨
      (won = true ∧ ∃ content, heap.Rewrites heap' node ⟨.unevaluated, content⟩ ⟨.inProgress actor, content⟩) := by
  unfold Heap.claim Heap.transition at answered
  split at answered
  · cases answered
  · rename_i slot found
    obtain ⟨state, content⟩ := slot
    by_cases free : state = .unevaluated
    · subst free
      cases answered
      exact .inr ⟨rfl, content, Heap.put_rewrites found rfl rfl⟩
    · simp only [Slot.claim, free, if_false] at answered
      cases answered
      exact .inl ⟨rfl, rfl⟩

theorem release_answer {done : Bool} (answered : Heap.release node actor heap = .ok done heap') :
    (done = false ∧ heap' = heap.notify) ∨
      (done = true ∧ ∃ content, heap.Rewrites heap' node ⟨.inProgress actor, content⟩ ⟨.unevaluated, content⟩) := by
  cases found : heap.lookup node with
  | error fault =>
    have refused : Heap.transition node (Slot.release actor) heap = .error fault heap := by
      simp [Heap.transition, found]
    rw [Heap.release, bind_error refused] at answered
    cases answered
  | ok slot =>
    obtain ⟨state, content⟩ := slot
    by_cases held : state = .inProgress actor
    · subst held
      have written : Heap.transition node (Slot.release actor) heap =
          .ok true (heap.put node.index.toNat ⟨.unevaluated, content⟩) := by
        simp [Heap.transition, found, Slot.release]
      rw [Heap.release, bind_ok written] at answered
      cases answered
      exact .inr ⟨rfl, content, Heap.put_rewrites found rfl rfl⟩
    · have refused : Heap.transition node (Slot.release actor) heap = .ok false heap := by
        simp [Heap.transition, found, Slot.release, held]
      rw [Heap.release, bind_ok refused] at answered
      cases answered
      exact .inl ⟨rfl, rfl⟩

theorem redirect_answer {done : Bool} (answered : Heap.redirect link target heap = .ok done heap') :
    (done = false ∧ heap' = heap) ∨ (done = true ∧ ∃ state old,
      heap.Rewrites heap' link ⟨state, .indirection old⟩ ⟨state, .indirection target⟩) := by
  unfold Heap.redirect Heap.transition at answered
  split at answered
  · cases answered
  · rename_i slot found
    obtain ⟨state, content⟩ := slot
    cases content with
    | indirection old =>
      cases answered
      exact .inr ⟨rfl, state, old, Heap.put_rewrites found rfl rfl⟩
    | _ =>
      cases answered
      exact .inl ⟨rfl, rfl⟩

theorem write_rewrites {slot : Slot} (found : heap.lookup node = .ok slot) (result : Node) :
    heap.Rewrites (heap.put node.index.toNat { slot with node := result }) node slot { slot with node := result } :=
  Heap.put_rewrites found rfl rfl

theorem mark_rewrites {slot : Slot} (found : heap.lookup node = .ok slot) :
    heap.Rewrites (heap.put node.index.toNat { slot with state := .evaluated }).notify node slot
      { slot with state := .evaluated } :=
  Heap.put_rewrites found rfl rfl

theorem put_put (heap : Heap) (index : Nat) (first second : Slot) :
    (heap.put index first).put index second = heap.put index second := by
  have entries : ((heap.put index first).put index second).entries = (heap.put index second).entries := by
    apply Array.ext_getElem?
    intro place
    simp only [Heap.entries_put]
    split
    · cases heap.entries[place]? <;> rfl
    · rfl
  simp only [Heap.put] at entries ⊢
  rw [entries]

/-- The steps of a completion that nothing comes between are the completion as a whole. -/
theorem complete_parts {first second third : Shared} {old new : Node} (check : Step before (.check actor node true) first)
    (write : Step first (.write actor node old new) second) (mark : Step second (.mark actor node) third) :
    Heap.complete node actor new before.heap = .ok true third.heap := by
  cases check with
  | own idle held result =>
    cases write with
    | @write _ _ _ slot seen found =>
      cases mark with
      | @mark _ _ marked written found' =>
        have rewritten := (write_rewrites found new).lookup node
        rw [if_pos rfl] at rewritten
        cases Except.ok.inj (found'.symm.trans rewritten)
        have holder : slot.state = .inProgress actor := by
          simpa [Heap.state, found, Except.map] using held
        have whole : Heap.transition node (Slot.complete actor new) before.heap =
            .ok true (before.heap.put node.index.toNat ⟨.evaluated, new⟩) := by
          simp [Heap.transition, found, Slot.complete, holder]
        rw [Heap.complete, bind_ok whole]
        simp only [put_put]
        rfl

/-- A completion that stops at the first step has refused to write. -/
theorem complete_disowned (check : Step before (.check actor node false) after) (result : Node) :
    Heap.complete node actor result before.heap = .ok false after.heap := by
  cases check with
  | disown idle held other =>
    cases found : before.heap.lookup node with
    | error fault => simp [Heap.state, found, Except.map] at held
    | ok slot =>
      simp only [Heap.state, found, Except.map, Except.ok.injEq] at held
      have whole : Heap.transition node (Slot.complete actor result) before.heap = .ok false before.heap := by
        simp [Heap.transition, found, Slot.complete, held, other]
      rw [Heap.complete, bind_ok whole]
      rfl

/-! ### What every schedule keeps -/

-- Nobody has written a result into the slot.
def Pending (now : Shared) (node : Handle) (slot : Slot) : Prop :=
  now.heap.lookup node = .ok slot ∧ slot.state ≠ .evaluated ∧ ∀ actor, now.phase actor ≠ .written node

-- The actor is completing the node.
def Completes (now : Shared) (actor : Actor) (node : Handle) : Prop :=
  now.phase actor = .written node ∨ ∃ result, now.phase actor = .seen node result

structure Consistent (events : List SlotEvent) (now : Shared) : Prop where
  completing : ∀ {actor node}, now.Completes actor node → now.heap.state node = .ok (.inProgress actor)
  thunk : ∀ {node slot}, now.Pending node slot → slot.node.tag = .thunk
  untouched : ∀ {node slot}, now.Pending node slot → events.countP (·.overwrites node) = 0
  agreed : ∀ {node slot actor payload}, now.Pending node slot → .read actor node payload ∈ events → payload = slot.node
  once : ∀ node, events.countP (·.overwrites node) ≤ 1
  settled : ∀ {node slot actor payload}, now.heap.lookup node = .ok slot → slot.node.tag = .thunk →
    .read actor node payload ∈ events → payload.tag = .thunk
  owned : ∀ {actor node}, Owns actor node events → now.heap.state node = .ok (.inProgress actor)

namespace Consistent

theorem start {start : Heap} (settled : ∀ node slot, start.lookup node = .ok slot → slot.state ≠ .evaluated →
    slot.node.tag = .thunk) : Consistent [] ⟨start, fun _ => .idle⟩ where
  completing := by
    rintro actor node (written | ⟨result, seen⟩)
    · cases written
    · cases seen
  thunk := fun pending => settled _ _ pending.1 pending.2.1
  untouched := fun _ => rfl
  agreed := nofun
  once := fun _ => Nat.zero_le 1
  settled := nofun
  owned := nofun

theorem read {payload : Node} (consistent : Consistent past before) (found : before.heap.node node = .ok payload) :
    Consistent (.read actor node payload :: past) before := by
  have payload_eq : ∀ {slot}, before.heap.lookup node = .ok slot → payload = slot.node := by
    intro slot live
    simpa [Heap.node, live, Except.map, eq_comm] using found
  exact {
    completing := consistent.completing
    thunk := consistent.thunk
    untouched := consistent.untouched
    agreed := by
      intro other slot reader seen pending member
      rcases List.mem_cons.mp member with same | member
      · cases same
        exact payload_eq pending.1
      · exact consistent.agreed pending member
    once := consistent.once
    settled := by
      intro other slot reader seen live isThunk member
      rcases List.mem_cons.mp member with same | member
      · cases same
        exact payload_eq live ▸ isThunk
      · exact consistent.settled live isThunk member
    owned := by
      rintro owner other (_ | ⟨owns, _, _⟩)
      exact consistent.owned owns }

-- Events that neither read nor write a payload.
def Quiet (event : SlotEvent) : Prop :=
  (∀ actor node payload, event ≠ .read actor node payload) ∧ ∀ node, event.overwrites node = false

theorem mem_quiet {reader : Actor} {payload : Node} (quiet : Quiet event)
    (member : SlotEvent.read reader node payload ∈ event :: past) : SlotEvent.read reader node payload ∈ past :=
  (List.mem_cons.mp member).resolve_left fun same => quiet.1 _ _ _ same.symm

theorem countP_quiet (quiet : Quiet event) (node : Handle) :
    (event :: past).countP (·.overwrites node) = past.countP (·.overwrites node) :=
  List.countP_cons_of_neg (by simp [quiet.2 node])

/-- After a quiet event a slot that is pending, or a thunk, was so before. -/
theorem quietly (consistent : Consistent past before) (quiet : Quiet event)
    (completing : ∀ {actor node}, after.Completes actor node → after.heap.state node = .ok (.inProgress actor))
    (pending : ∀ {node slot}, after.Pending node slot → ∃ slot', before.Pending node slot' ∧ slot.node = slot'.node)
    (thunks : ∀ {node slot}, after.heap.lookup node = .ok slot → slot.node.tag = .thunk →
      ∃ slot', before.heap.lookup node = .ok slot' ∧ slot'.node.tag = .thunk)
    (owned : ∀ {actor node}, Owns actor node (event :: past) → after.heap.state node = .ok (.inProgress actor)) :
    Consistent (event :: past) after where
  completing := completing
  thunk := by
    intro node slot isPending
    obtain ⟨slot', wasPending, same⟩ := pending isPending
    exact same ▸ consistent.thunk wasPending
  untouched := by
    intro node slot isPending
    obtain ⟨slot', wasPending, _⟩ := pending isPending
    exact (countP_quiet quiet node).trans (consistent.untouched wasPending)
  agreed := by
    intro node slot reader payload isPending member
    obtain ⟨slot', wasPending, same⟩ := pending isPending
    exact (consistent.agreed wasPending (mem_quiet quiet member)).trans same.symm
  once := fun node => (countP_quiet quiet node).symm ▸ consistent.once node
  settled := by
    intro node slot reader payload live isThunk member
    obtain ⟨slot', live', isThunk'⟩ := thunks live isThunk
    exact consistent.settled live' isThunk' (mem_quiet quiet member)
  owned := owned

/-- One slot changes its state, or an indirection its target, and no actor its phase. -/
theorem rewrites {old new : Slot} (consistent : Consistent past before) (quiet : Quiet event)
    (rewrites : before.heap.Rewrites heap node old new)
    (completing : ∀ actor, before.Completes actor node → new.state = .inProgress actor)
    (pending : new.state ≠ .evaluated → old.state ≠ .evaluated)
    (kept : old.node.tag = .thunk ∨ new.node.tag = .thunk → new.node = old.node)
    (owned : ∀ {actor other}, Owns actor other (event :: past) →
      if other = node then new.state = .inProgress actor else Owns actor other past) :
    Consistent (event :: past) { before with heap := heap } := by
  have states : ∀ other, ({ before with heap := heap } : Shared).heap.state other =
      if other = node then .ok new.state else before.heap.state other := by
    intro other
    simp only [Heap.state, rewrites.lookup]
    split <;> rfl
  refine consistent.quietly quiet ?completing ?pending ?thunks ?owned
  case completing =>
    intro actor other completes
    have held := consistent.completing completes
    rw [states]
    split
    · rename_i same
      subst same
      rw [completing actor completes]
    · exact held
  case pending =>
    rintro other slot ⟨live, unfinished, unwritten⟩
    have live : heap.lookup other = .ok slot := live
    rw [rewrites.lookup] at live
    split at live
    · rename_i same
      cases live
      subst same
      have wasPending : before.Pending other old := ⟨rewrites.found, pending unfinished, unwritten⟩
      exact ⟨old, wasPending, kept (.inl (consistent.thunk wasPending))⟩
    · exact ⟨slot, ⟨live, unfinished, unwritten⟩, rfl⟩
  case thunks =>
    intro other slot live isThunk
    have live : heap.lookup other = .ok slot := live
    rw [rewrites.lookup] at live
    split at live
    · rename_i same
      cases live
      subst same
      exact ⟨old, rewrites.found, kept (.inr isThunk) ▸ isThunk⟩
    · exact ⟨slot, live, isThunk⟩
  case owned =>
    intro actor other owns
    have holds := owned owns
    rw [states]
    split
    · rename_i same
      rw [if_pos same] at holds
      rw [holds]
    · rename_i different
      rw [if_neg different] at holds
      exact consistent.owned holds

theorem unchanged (consistent : Consistent past before) (quiet : Quiet event)
    (same : ∀ other, heap.lookup other = before.heap.lookup other)
    (lost : ∀ actor node, event ≠ .claim actor node true) :
    Consistent (event :: past) { before with heap := heap } := by
  refine consistent.quietly quiet ?completing ?pending ?thunks ?owned
  case completing =>
    exact fun completes => (congrArg (Except.map Slot.state) (same _)).trans (consistent.completing completes)
  case pending => exact fun {_ slot} pending => ⟨slot, ⟨(same _).symm.trans pending.1, pending.2⟩, rfl⟩
  case thunks => exact fun {_ slot} live isThunk => ⟨slot, (same _).symm.trans live, isThunk⟩
  case owned =>
    intro actor node owns
    cases owns with
    | claimed => exact absurd rfl (lost actor node)
    | later owns _ _ => exact (congrArg (Except.map Slot.state) (same _)).trans (consistent.owned owns)

theorem own (consistent : Consistent past before) (idle : before.phase actor = .idle)
    (found : before.heap.state node = .ok (.inProgress actor)) (result : Node) :
    Consistent (.check actor node true :: past)
      { before with phase := before.enter actor (.seen node result) } := by
  refine consistent.quietly ⟨by simp, fun _ => rfl⟩ ?completing ?pending ?thunks ?owned
  case completing =>
    rintro worker other completes
    by_cases same : worker = actor
    · subst same
      simp only [Completes, enter, if_true, reduceCtorEq, Phase.seen.injEq, false_or] at completes
      obtain ⟨_, rfl, _⟩ := completes
      exact found
    · apply consistent.completing
      simpa [Completes, enter, same] using completes
  case pending =>
    rintro other slot ⟨live, unfinished, unwritten⟩
    refine ⟨slot, ⟨live, unfinished, fun worker written => ?_⟩, rfl⟩
    have different : worker ≠ actor := by
      rintro rfl
      rw [idle] at written
      cases written
    apply unwritten worker
    simpa [enter, different] using written
  case thunks => exact fun {_ slot} live isThunk => ⟨slot, live, isThunk⟩
  case owned =>
    rintro worker other (_ | ⟨owns, _, _⟩)
    exact consistent.owned owns

theorem completes_unique (consistent : Consistent past before) (completes : before.Completes actor node)
    (completes' : before.Completes other node) : other = actor := by
  have same := (consistent.completing completes').symm.trans (consistent.completing completes)
  simpa using same

theorem pending_of_seen {slot : Slot} {result : Node} (consistent : Consistent past before)
    (seen : before.phase actor = .seen node result) (found : before.heap.lookup node = .ok slot) :
    before.Pending node slot := by
  have held : slot.state = .inProgress actor := by
    simpa [Heap.state, found, Except.map] using consistent.completing (.inr ⟨result, seen⟩)
  refine ⟨found, by simp [held], fun worker written => ?_⟩
  have same := consistent.completes_unique (.inr ⟨result, seen⟩) (.inl written)
  rw [same, seen] at written
  cases written

theorem pending_of_free {content : Node} (consistent : Consistent past before)
    (free : before.heap.lookup node = .ok ⟨.unevaluated, content⟩) : before.Pending node ⟨.unevaluated, content⟩ := by
  refine ⟨free, by simp, fun worker written => ?_⟩
  have held := consistent.completing (.inl written)
  simp [Heap.state, free, Except.map] at held

theorem write {slot : Slot} {result : Node} (consistent : Consistent past before)
    (seen : before.phase actor = .seen node result) (found : before.heap.lookup node = .ok slot) :
    Consistent (.write actor node slot.node result :: past)
      ⟨before.heap.put node.index.toNat { slot with node := result }, before.enter actor (.written node)⟩ := by
  have rewrites := write_rewrites found result
  have pending := consistent.pending_of_seen seen found
  have states : ∀ other, (before.heap.put node.index.toNat { slot with node := result }).state other =
      before.heap.state other := by
    intro other
    simp only [Heap.state, rewrites.lookup]
    split
    · rename_i same
      rw [same, found]
      rfl
    · rfl
  have reads : ∀ {reader other payload}, .read reader other payload ∈ (.write actor node slot.node result :: past) →
      .read reader other payload ∈ past := fun member => (List.mem_cons.mp member).resolve_left (by simp)
  -- a slot that is pending now is another one, and was pending before
  have back : ∀ {other slot'}, Pending ⟨before.heap.put node.index.toNat { slot with node := result },
      before.enter actor (.written node)⟩ other slot' → other ≠ node ∧ before.Pending other slot' := by
    rintro other slot' ⟨live, unfinished, unwritten⟩
    have different : other ≠ node := by
      rintro rfl
      exact unwritten actor (by simp [enter])
    refine ⟨different, ?_, unfinished, fun worker written => ?_⟩
    · simpa only [rewrites.lookup, if_neg different] using live
    · have another : worker ≠ actor := by
        rintro rfl
        rw [seen] at written
        cases written
      exact unwritten worker (by simpa [enter, another] using written)
  constructor
  case completing =>
    rintro worker other completes
    rw [states]
    apply consistent.completing
    by_cases same : worker = actor
    · subst same
      simp only [Completes, enter, if_true, Phase.written.injEq, reduceCtorEq, exists_false, or_false] at completes
      exact .inr ⟨result, completes ▸ seen⟩
    · simpa [Completes, enter, same] using completes
  case thunk => exact fun isPending => consistent.thunk (back isPending).2
  case untouched =>
    intro other slot' isPending
    obtain ⟨different, wasPending⟩ := back isPending
    rw [List.countP_cons_of_neg (by simp [SlotEvent.overwrites, Ne.symm different])]
    exact consistent.untouched wasPending
  case agreed => exact fun isPending member => consistent.agreed (back isPending).2 (reads member)
  case once =>
    intro other
    by_cases same : other = node
    · subst same
      rw [List.countP_cons, consistent.untouched pending]
      split <;> simp
    · rw [List.countP_cons_of_neg (by simp [SlotEvent.overwrites, Ne.symm same])]
      exact consistent.once other
  case settled =>
    intro other slot' reader payload live isThunk member
    by_cases same : other = node
    · subst same
      rw [consistent.agreed pending (reads member)]
      exact consistent.thunk pending
    · simp only [rewrites.lookup, if_neg same] at live
      exact consistent.settled live isThunk (reads member)
  case owned =>
    rintro worker other (_ | ⟨owns, _, _⟩)
    rw [states]
    exact consistent.owned owns

theorem mark {slot : Slot} (consistent : Consistent past before) (written : before.phase actor = .written node)
    (found : before.heap.lookup node = .ok slot) :
    Consistent (.mark actor node :: past)
      ⟨(before.heap.put node.index.toNat { slot with state := .evaluated }).notify, before.enter actor .idle⟩ := by
  have rewrites := mark_rewrites found
  have holder := consistent.completing (.inl written)
  have elsewhere : ∀ {other}, other ≠ node →
      (before.heap.put node.index.toNat { slot with state := .evaluated }).notify.state other =
        before.heap.state other := by
    intro other different
    simp only [Heap.state, rewrites.lookup, if_neg different]
  refine consistent.quietly ⟨by simp, fun _ => rfl⟩ ?completing ?pending ?thunks ?owned
  case completing =>
    rintro worker other completes
    have another : worker ≠ actor := by
      rintro rfl
      simp [Completes, enter] at completes
    have wasCompleting : before.Completes worker other := by
      simpa [Completes, enter, another] using completes
    have different : other ≠ node := by
      intro same
      exact another (consistent.completes_unique (.inl written) (same ▸ wasCompleting))
    rw [elsewhere different]
    exact consistent.completing wasCompleting
  case pending =>
    rintro other slot' ⟨live, unfinished, unwritten⟩
    have different : other ≠ node := by
      rintro rfl
      simp only [rewrites.lookup, if_true, Except.ok.injEq] at live
      exact unfinished (live ▸ rfl)
    refine ⟨slot', ⟨by simpa only [rewrites.lookup, if_neg different] using live, unfinished, fun worker written' => ?_⟩, rfl⟩
    by_cases same : worker = actor
    · rw [same, written] at written'
      cases written'
      exact different rfl
    · exact unwritten worker (by simpa [enter, same] using written')
  case thunks =>
    intro other slot' live isThunk
    simp only [rewrites.lookup] at live
    split at live
    · rename_i same
      cases live
      exact ⟨slot, same ▸ found, isThunk⟩
    · exact ⟨slot', live, isThunk⟩
  case owned =>
    rintro worker other (_ | ⟨owns, _, unmarked⟩)
    have held := consistent.owned owns
    have different : other ≠ node := by
      rintro rfl
      rw [holder] at held
      cases held
      exact unmarked rfl
    rw [elsewhere different]
    exact held

theorem step (consistent : Consistent past before) (step : Step before event after) :
    Consistent (event :: past) after := by
  cases step with
  | read idle found => exact consistent.read found
  | @claim actor node won heap idle answered =>
    have quiet : Quiet (.claim actor node won) := ⟨by simp, fun _ => rfl⟩
    rcases claim_answer answered with ⟨rfl, rfl⟩ | ⟨rfl, content, rewrites⟩
    · exact consistent.unchanged quiet (fun _ => rfl) (by simp)
    · have free : before.heap.state node = .ok .unevaluated := by
        simp [Heap.state, rewrites.found, Except.map]
      refine consistent.rewrites quiet rewrites ?_ (by simp) (fun _ => rfl) ?_
      · intro worker completes
        rw [consistent.completing completes] at free
        cases free
      · rintro worker other (_ | ⟨owns, _, _⟩)
        · simp
        · split
          · rename_i same
            rw [← same, consistent.owned owns] at free
            cases free
          · exact owns
  | disown idle found other =>
    exact consistent.unchanged ⟨by simp, fun _ => rfl⟩ (fun _ => rfl) (by simp)
  | own idle found result => exact consistent.own idle found result
  | write seen found => exact consistent.write seen found
  | mark written found => exact consistent.mark written found
  | @release actor node done heap idle answered =>
    have quiet : Quiet (.release actor node done) := ⟨by simp, fun _ => rfl⟩
    rcases release_answer answered with ⟨rfl, rfl⟩ | ⟨rfl, content, rewrites⟩
    · exact consistent.unchanged quiet (fun _ => rfl) (by simp)
    · have held : before.heap.state node = .ok (.inProgress actor) := by
        simp [Heap.state, rewrites.found, Except.map]
      refine consistent.rewrites quiet rewrites ?_ (by simp) (fun _ => rfl) ?_
      · intro worker completes
        rw [consistent.completing completes] at held
        cases held
        simp [Completes, idle] at completes
      · rintro worker other (_ | ⟨owns, unreleased, _⟩)
        split
        · rename_i same
          rw [← same, consistent.owned owns] at held
          cases held
          exact absurd (same ▸ rfl) unreleased
        · exact owns
  | @redirect actor link target done heap idle answered =>
    have quiet : Quiet (.redirect actor link target done) := ⟨by simp, fun _ => rfl⟩
    rcases redirect_answer answered with ⟨rfl, rfl⟩ | ⟨rfl, state, old, rewrites⟩
    · exact consistent.unchanged quiet (fun _ => rfl) (by simp)
    · have found : before.heap.state link = .ok state := by
        simp [Heap.state, rewrites.found, Except.map]
      refine consistent.rewrites quiet rewrites ?_ id (by simp [Node.tag]) ?_
      · intro worker completes
        exact Except.ok.inj (found.symm.trans (consistent.completing completes))
      · rintro worker other (_ | ⟨owns, _, _⟩)
        split
        · rename_i same
          exact Except.ok.inj (found.symm.trans (same ▸ consistent.owned owns))
        · exact owns

end Consistent

theorem Step.keeps_thunk {slot : Slot} (step : Step before event after) (found : before.heap.lookup node = .ok slot)
    (isThunk : slot.node.tag = .thunk) (spared : event.overwrites node = false) :
    after.heap.node node = .ok slot.node := by
  have kept : ∀ {written old new}, before.heap.Rewrites after.heap written old new →
      (written = node → old = slot → new.node = old.node) → after.heap.node node = .ok slot.node := by
    intro written old new rewrites same
    simp only [Heap.node, rewrites.lookup]
    split
    · rename_i here
      subst here
      have seen : old = slot := Except.ok.inj (rewrites.found.symm.trans found)
      rw [← seen, ← same rfl seen]
      rfl
    · rw [found]
      rfl
  have unchanged : ∀ {heap : Heap}, heap.entries = before.heap.entries → heap.node node = .ok slot.node := by
    intro heap same
    rw [Heap.node, Heap.lookup_congr same, found]
    rfl
  cases step with
  | read idle seen => exact unchanged rfl
  | claim idle answered =>
    rcases claim_answer answered with ⟨_, rfl⟩ | ⟨_, content, rewrites⟩
    · exact unchanged rfl
    · exact kept rewrites fun _ _ => rfl
  | disown idle seen other => exact unchanged rfl
  | own idle seen result => exact unchanged rfl
  | @write _ written result old seen live =>
    refine kept (write_rewrites live result) fun here same => ?_
    simp [SlotEvent.overwrites, here, same, isThunk] at spared
  | mark written live => exact kept (mark_rewrites live) fun _ _ => rfl
  | release idle answered =>
    rcases release_answer answered with ⟨_, rfl⟩ | ⟨_, content, rewrites⟩
    · exact unchanged rfl
    · exact kept rewrites fun _ _ => rfl
  | redirect idle answered =>
    rcases redirect_answer answered with ⟨_, rfl⟩ | ⟨_, state, old, rewrites⟩
    · exact unchanged rfl
    · refine kept rewrites fun _ same => ?_
      rw [← same] at isThunk
      cases isThunk

def Unfinished (heap : Heap) : Prop :=
  ∀ node slot, heap.lookup node = .ok slot → slot.state ≠ .evaluated → slot.node.tag = .thunk

theorem Run.consistent {start : Heap} (unfinished : Unfinished start) (run : Run start events now) :
    Consistent events now := by
  induction run with
  | start => exact .start unfinished
  | step _ step ih => exact ih.step step

/-- In every order of the actors' steps a thunk is overwritten at most once, and nothing but
such a write changes it; a node has at most one owner, and it is in progress for that
owner; who wins a node finds the thunk that was read there before; after a value nobody
reads a thunk; and an owner that completes its node is never told that it is not the owner.
The steps of a completion, one after the other, are the heap's completion. -/
theorem updates_once {start : Heap} (unfinished : Unfinished start) :
    (∀ node events now, Run start events now → events.countP (·.overwrites node) ≤ 1) ∧
    (∀ node slot event before after, Step before event after → before.heap.lookup node = .ok slot →
      slot.node.tag = .thunk → event.overwrites node = false → after.heap.node node = .ok slot.node) ∧
    (∀ actor node events now, Run start events now → Owns actor node events →
      now.heap.state node = .ok (.inProgress actor) ∧ ∀ other, Owns other node events → other = actor) ∧
    (∀ actor reader node expr env past now, Run start (.claim actor node true :: past) now →
      .read reader node (.thunk expr env) ∈ past →
        now.heap.lookup node = .ok ⟨.inProgress actor, .thunk expr env⟩) ∧
    (∀ actor reader node earlier payload past now, Run start (.read actor node payload :: past) now →
      .read reader node earlier ∈ past → earlier.tag ≠ .thunk → payload.tag ≠ .thunk) ∧
    (∀ actor node owned past now, Run start (.check actor node owned :: past) now → Owns actor node past →
      owned = true) ∧
    (∀ actor node old new before first second third, Step before (.check actor node true) first →
      Step first (.write actor node old new) second → Step second (.mark actor node) third →
        Heap.complete node actor new before.heap = .ok true third.heap) ∧
    (∀ actor node result before after, Step before (.check actor node false) after →
      Heap.complete node actor result before.heap = .ok false after.heap) := by
  refine ⟨?once, ?spared, ?unique, ?found, ?settled, ?owned, ?parts, ?refused⟩
  case once => exact fun node events now run => (run.consistent unfinished).once node
  case spared => exact fun node slot event before after step found isThunk spared => step.keeps_thunk found isThunk spared
  case unique =>
    intro actor node events now run owns
    have held := (run.consistent unfinished).owned owns
    refine ⟨held, fun other owns' => ?_⟩
    simpa using ((run.consistent unfinished).owned owns').symm.trans held
  case found =>
    intro actor reader node expr env past now run member
    cases run with
    | step run step =>
      cases step with
      | claim idle answered =>
        rcases claim_answer answered with ⟨won, _⟩ | ⟨_, content, rewrites⟩
        · cases won
        · have earlier := run.consistent unfinished
          have same := earlier.agreed (earlier.pending_of_free rewrites.found) member
          rw [same, rewrites.lookup, if_pos rfl]
  case settled =>
    intro actor reader node earlier payload past now run member value isThunk
    cases run with
    | step run step =>
      cases step with
      | read idle found =>
        simp only [Heap.node, Except.map] at found
        split at found
        · cases found
        · rename_i slot live
          cases found
          exact value ((run.consistent unfinished).settled live isThunk member)
  case owned =>
    intro actor node owned past now run owns
    cases run with
    | step run step =>
      have held := (run.consistent unfinished).owned owns
      cases step with
      | own idle found result => rfl
      | disown idle found other =>
        rw [held] at found
        exact absurd (Except.ok.inj found).symm other
  case parts => exact fun actor node old new before first second third => complete_parts
  case refused => exact fun actor node result before after check => complete_disowned check result

/-! ### Two actors that want the same thunk -/

open Heap (firstActor secondActor twoThunks)

theorem twoThunks_unfinished : Unfinished twoThunks := by
  intro node slot found _
  have present := congrArg (Option.bind · Entry.slot) (Heap.lookup_eq_ok.mp found)
  have small : node.index.toNat < 2 := Heap.index_lt_of_lookup found
  obtain zero | one : node.index.toNat = 0 ∨ node.index.toNat = 1 := by omega
  · rw [zero] at present
    cases present
    rfl
  · rw [one] at present
    cases present
    rfl

def contested : Handle := ⟨0, 0⟩

def oneExpr : Expr := ⟨0, .int 1⟩

-- The second actor gives the thunk up, and reads the first one's result before it is marked.
def race : List SlotEvent :=
  [.mark firstActor contested,
    .read secondActor contested (.int 1),
    .write firstActor contested (.thunk oneExpr []) (.int 1),
    .claim secondActor contested false,
    .check firstActor contested true,
    .claim firstActor contested true,
    .release secondActor contested true,
    .claim secondActor contested true,
    .read firstActor contested (.thunk oneExpr [])]

theorem updates_once_race :
    ∃ now, Run twoThunks race now ∧ now.heap.lookup contested = .ok ⟨.evaluated, .int 1⟩ ∧
      race.countP (·.overwrites contested) ≤ 1 := by
  have read : Run twoThunks (race.drop 8) _ := .step .start (.read rfl rfl)
  have claimed : Run twoThunks (race.drop 7) _ := read.step (.claim rfl rfl)
  have released : Run twoThunks (race.drop 6) _ := claimed.step (.release rfl rfl)
  have reclaimed : Run twoThunks (race.drop 5) _ := released.step (.claim rfl rfl)
  have checked : Run twoThunks (race.drop 4) _ := reclaimed.step (.own rfl rfl (.int 1))
  have refused : Run twoThunks (race.drop 3) _ := checked.step (.claim rfl rfl)
  have written : Run twoThunks (race.drop 2) _ :=
    refused.step (@Step.write _ firstActor contested (.int 1) ⟨.inProgress firstActor, .thunk oneExpr []⟩ rfl rfl)
  have observed : Run twoThunks (race.drop 1) _ := written.step (.read rfl rfl)
  have run : Run twoThunks race _ := observed.step (.mark rfl rfl)
  exact ⟨_, run, rfl, (updates_once twoThunks_unfinished).1 contested race _ run⟩

end Shared

end LazyGraph

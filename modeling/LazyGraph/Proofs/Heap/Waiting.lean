import Mathlib.Data.List.Perm.Subperm
import Mathlib.Logic.Relation
import LazyGraph.Proofs.Heap.Lookup
import LazyGraph.Proofs.Moves

/-! Actors that wait for each other.

An actor waits for whoever holds the node it has registered, and the owner of a node
may change while others wait on it. Whatever the order in which actors claim, complete,
release and wait, no ring of waiting actors ever closes: only an actor that waits for
nobody takes a node over, and a wait is registered only if the walk through owners and
their waits does not lead back. In a graph without rings such a walk meets each waiting
actor once, so it is over before the hops run out. -/

set_option autoImplicit false

namespace LazyGraph.Heap

open Relation (TransGen)

variable {heap heap' : Heap} {actor owner waiter : Actor} {node next : Handle}

/-! ### The table of waits -/

theorem lookup_wait_cons (other : Actor) (stored : Handle) (waits : List (Actor × Handle)) (waiter : Actor) :
    ((other, stored) :: waits).lookup waiter = if waiter = other then some stored else waits.lookup waiter := by
  by_cases same : waiter = other
  · simp [same]
  · simp [List.lookup_cons, beq_eq_false_iff_ne.mpr same, same]

theorem lookup_insertWait (actor : Actor) (node : Handle) (waits : List (Actor × Handle)) (waiter : Actor) :
    (insertWait actor node waits).lookup waiter = if waiter = actor then some node else waits.lookup waiter := by
  induction waits with
  | nil => exact lookup_wait_cons actor node [] waiter
  | cons entry waits ih =>
    obtain ⟨other, stored⟩ := entry
    rw [insertWait]
    by_cases same : other = actor
    · subst same
      rw [if_pos rfl, lookup_wait_cons, lookup_wait_cons]
      split <;> rfl
    · rw [if_neg same, lookup_wait_cons, ih, lookup_wait_cons]
      by_cases here : waiter = other
      · simp [here, same]
      · simp [here]

theorem lookup_endWait (heap : Heap) (actor waiter : Actor) :
    (heap.endWait actor).waits.lookup waiter = if waiter = actor then none else heap.waits.lookup waiter := by
  simp only [endWait]
  induction heap.waits with
  | nil => simp
  | cons entry waits ih =>
    obtain ⟨other, stored⟩ := entry
    rw [lookup_wait_cons]
    by_cases same : other = actor
    · subst same
      rw [List.filter_cons_of_neg (by simp), ih]
      split <;> rfl
    · rw [List.filter_cons_of_pos (by simpa using same), lookup_wait_cons, ih]
      by_cases here : waiter = other
      · simp [here, same]
      · simp [here]

theorem mem_of_lookup_waits {waits : List (Actor × Handle)} (registered : waits.lookup waiter = some node) :
    waiter ∈ waits.map Prod.fst := by
  induction waits with
  | nil => cases registered
  | cons entry waits ih =>
    obtain ⟨other, stored⟩ := entry
    rw [lookup_wait_cons] at registered
    split at registered
    · rename_i here
      exact here ▸ .head _
    · exact .tail _ (ih registered)

/-! ### Who waits for whom -/

/-- The first has registered a node that the second holds. -/
def WaitsFor (heap : Heap) (waiter owner : Actor) : Prop :=
  ∃ node, heap.waits.lookup waiter = some node ∧ heap.state node = .ok (.inProgress owner)

/-- A ring of actors, each of which waits for the next one. -/
def Deadlocked (heap : Heap) : Prop :=
  ∃ (length : Nat) (ring : Nat → Actor), 0 < length ∧ ring length = ring 0 ∧
    ∀ place < length, heap.WaitsFor (ring place) (ring (place + 1))

-- The heap with one more wait, whether or not it would be granted.
def recordWait (heap : Heap) (actor : Actor) (node : Handle) : Heap :=
  { heap with waits := insertWait actor node heap.waits }

theorem deadlocked_iff : heap.Deadlocked ↔ ∃ actor, TransGen heap.WaitsFor actor actor := by
  constructor
  · rintro ⟨length, ring, positive, closed, waits⟩
    have around : ∀ place, place < length → TransGen heap.WaitsFor (ring 0) (ring (place + 1)) := by
      intro place
      induction place with
      | zero => exact fun inside => .single (waits 0 inside)
      | succ place ih => exact fun inside => .tail (ih (Nat.lt_of_succ_lt inside)) (waits (place + 1) inside)
    refine ⟨ring 0, ?_⟩
    have whole := around (length - 1) (by omega)
    rwa [Nat.sub_add_cancel positive, closed] at whole
  · rintro ⟨actor, cycle⟩
    have unrolled : ∀ owner, TransGen heap.WaitsFor actor owner →
        ∃ (length : Nat) (ring : Nat → Actor), 0 < length ∧ ring 0 = actor ∧ ring length = owner ∧
          ∀ place < length, heap.WaitsFor (ring place) (ring (place + 1)) := by
      intro owner path
      induction path with
      | @single owner edge =>
        refine ⟨1, fun place => if place = 0 then actor else owner, Nat.one_pos, rfl, rfl, ?_⟩
        intro place inside
        obtain rfl : place = 0 := by omega
        exact edge
      | @tail owner last _ edge ih =>
        obtain ⟨length, ring, positive, first, final, waits⟩ := ih
        refine ⟨length + 1, fun place => if place = length + 1 then last else ring place, by omega, ?_, ?_, ?_⟩
        · simpa using first
        · simp
        · intro place inside
          by_cases early : place < length
          · simpa [Nat.ne_of_lt early, Nat.ne_of_lt inside] using waits place early
          · obtain rfl : place = length := by omega
            simpa [final] using edge
    obtain ⟨length, ring, positive, first, final, waits⟩ := unrolled actor cycle
    exact ⟨length, ring, positive, final.trans first.symm, waits⟩

/-! ### The walk through owners and their waits -/

/-- The node, or one that its owner waits on, and so on, is held by the actor. -/
inductive LeadsTo (heap : Heap) (actor : Actor) : Handle → Prop where
  | held {node : Handle} (held : heap.state node = .ok (.inProgress actor)) : LeadsTo heap actor node
  | hop {node next : Handle} {owner : Actor} (held : heap.state node = .ok (.inProgress owner))
      (other : owner ≠ actor) (registered : heap.waits.lookup owner = some next)
      (rest : LeadsTo heap actor next) : LeadsTo heap actor node

theorem leadsTo_of_leadsBack {hops : Nat} (back : heap.leadsBack actor hops node = .ok true) :
    heap.LeadsTo actor node := by
  induction hops generalizing node with
  | zero => cases back
  | succ hops ih =>
    rw [leadsBack] at back
    split at back
    · cases back
    · rename_i owner held
      split at back
      · rename_i same
        exact .held (same ▸ held)
      · rename_i other
        split at back
        · rename_i next registered
          exact .hop held other registered (ih back)
        · cases back
    · cases back

theorem LeadsTo.leadsBack (leads : heap.LeadsTo actor node) :
    ∃ hops, ∀ more, heap.leadsBack actor (hops + more) node = .ok true := by
  induction leads with
  | held held =>
    refine ⟨1, fun more => ?_⟩
    simp [Nat.add_comm 1, Heap.leadsBack, held]
  | hop held other registered _ ih =>
    obtain ⟨hops, back⟩ := ih
    refine ⟨hops + 1, fun more => ?_⟩
    simpa [Nat.succ_add, Heap.leadsBack, held, other, registered] using back more

-- Owners met one after the other on the walk, all of them waiting.
inductive Trail (heap : Heap) : Handle → List Actor → Prop where
  | nil (node : Handle) : Trail heap node []
  | cons {node next : Handle} {owner : Actor} {owners : List Actor}
      (held : heap.state node = .ok (.inProgress owner)) (registered : heap.waits.lookup owner = some next)
      (rest : Trail heap next owners) : Trail heap node (owner :: owners)

/-- A walk is decided, or has met as many waiting owners as it has made hops. -/
theorem leadsBack_decided (heap : Heap) (actor : Actor) (hops : Nat) (node : Handle) :
    (∀ more, heap.leadsBack actor (hops + more) node = heap.leadsBack actor hops node) ∨
      ∃ owners, heap.Trail node owners ∧ owners.length = hops := by
  induction hops generalizing node with
  | zero => exact .inr ⟨[], .nil node, rfl⟩
  | succ hops ih =>
    simp only [Nat.succ_add, leadsBack]
    split
    · exact .inl fun _ => rfl
    · rename_i owner held
      split
      · exact .inl fun _ => rfl
      · split
        · rename_i next registered
          rcases ih next with decided | ⟨owners, trail, length⟩
          · exact .inl decided
          · exact .inr ⟨owner :: owners, .cons held registered trail, by simp [length]⟩
        · exact .inl fun _ => rfl
    · exact .inl fun _ => rfl

theorem Trail.waitsFor {owners : List Actor} (trail : heap.Trail next owners)
    (registered : heap.waits.lookup waiter = some next) {owner : Actor} (member : owner ∈ owners) :
    TransGen heap.WaitsFor waiter owner := by
  induction trail generalizing waiter with
  | nil => cases member
  | @cons node next first owners held registered' _ ih =>
    have edge : heap.WaitsFor waiter first := ⟨node, registered, held⟩
    rcases List.mem_cons.mp member with rfl | member
    · exact .single edge
    · exact .head edge (ih registered' member)

theorem Trail.nodup {owners : List Actor} (safe : ¬ heap.Deadlocked) (trail : heap.Trail node owners) :
    owners.Nodup := by
  induction trail with
  | nil => exact .nil
  | cons held registered rest ih =>
    refine List.nodup_cons.mpr ⟨fun again => safe ?_, ih⟩
    exact deadlocked_iff.mpr ⟨_, rest.waitsFor registered again⟩

theorem Trail.length_le {owners : List Actor} (safe : ¬ heap.Deadlocked) (trail : heap.Trail node owners) :
    owners.length ≤ heap.waits.length := by
  have registered : owners ⊆ heap.waits.map Prod.fst := by
    clear safe
    induction trail with
    | nil => simp
    | cons held registered _ ih => exact List.cons_subset.mpr ⟨mem_of_lookup_waits registered, ih⟩
  simpa using ((trail.nodup safe).subperm registered).length_le

theorem leadsBack_bound (safe : ¬ heap.Deadlocked) (actor : Actor) (node : Handle) (more : Nat) :
    heap.leadsBack actor (heap.waits.length + 1 + more) node =
      heap.leadsBack actor (heap.waits.length + 1) node := by
  rcases heap.leadsBack_decided actor (heap.waits.length + 1) node with decided | ⟨owners, trail, length⟩
  · exact decided more
  · have bound := trail.length_le safe
    omega

theorem leadsBack_iff (safe : ¬ heap.Deadlocked) :
    heap.leadsBack actor (heap.waits.length + 1) node = .ok true ↔ heap.LeadsTo actor node := by
  refine ⟨leadsTo_of_leadsBack, fun leads => ?_⟩
  obtain ⟨hops, back⟩ := leads.leadsBack
  rw [← leadsBack_bound safe actor node hops, Nat.add_comm]
  exact back _

/-! ### A wait that closes a ring -/

theorem waits_recordWait (heap : Heap) (actor : Actor) (node : Handle) (waiter : Actor) :
    (heap.recordWait actor node).waits.lookup waiter =
      if waiter = actor then some node else heap.waits.lookup waiter :=
  lookup_insertWait actor node heap.waits waiter

theorem LeadsTo.cycle (leads : heap.LeadsTo actor next)
    (registered : (heap.recordWait actor node).waits.lookup waiter = some next) :
    TransGen (heap.recordWait actor node).WaitsFor waiter actor := by
  induction leads generalizing waiter with
  | held held => exact .single ⟨_, registered, held⟩
  | hop held other registered' _ ih =>
    refine .head ⟨_, registered, held⟩ (ih ?_)
    rw [waits_recordWait, if_neg other, registered']

theorem leadsTo_of_cycle (path : TransGen (heap.recordWait actor node).WaitsFor waiter actor)
    (registered : (heap.recordWait actor node).waits.lookup waiter = some next) : heap.LeadsTo actor next := by
  induction path using TransGen.head_induction_on generalizing next with
  | single edge =>
    obtain ⟨stored, registered', held⟩ := edge
    cases registered.symm.trans registered'
    exact .held held
  | @head waiter owner edge rest ih =>
    obtain ⟨stored, registered', held⟩ := edge
    cases registered.symm.trans registered'
    by_cases same : owner = actor
    · exact .held (same ▸ held)
    · obtain ⟨_, ⟨stored, waits, _⟩, _⟩ := TransGen.head'_iff.mp rest
      have waits' := waits
      rw [waits_recordWait, if_neg same] at waits'
      exact .hop held same waits' (ih waits)

/-- A ring in the new table was there before, or goes through the new wait. -/
theorem cycle_recordWait (path : TransGen (heap.recordWait actor node).WaitsFor waiter owner) :
    TransGen heap.WaitsFor waiter owner ∨
      (waiter = actor ∨ TransGen (heap.recordWait actor node).WaitsFor waiter actor) ∧
        TransGen (heap.recordWait actor node).WaitsFor actor owner := by
  have old : ∀ {waiter owner}, waiter ≠ actor → (heap.recordWait actor node).WaitsFor waiter owner →
      heap.WaitsFor waiter owner := by
    rintro waiter owner other ⟨stored, registered, held⟩
    rw [waits_recordWait, if_neg other] at registered
    exact ⟨stored, registered, held⟩
  induction path with
  | single edge =>
    by_cases same : waiter = actor
    · subst same
      exact .inr ⟨.inl rfl, .single edge⟩
    · exact .inl (.single (old same edge))
  | @tail middle owner path edge ih =>
    rcases ih with before | ⟨toActor, fromActor⟩
    · by_cases same : middle = actor
      · subst same
        exact .inr ⟨.inr path, .single edge⟩
      · exact .inl (.tail before (old same edge))
    · exact .inr ⟨toActor, .tail fromActor edge⟩

theorem deadlocked_recordWait_iff (safe : ¬ heap.Deadlocked) :
    (heap.recordWait actor node).Deadlocked ↔ heap.LeadsTo actor node := by
  have registered : (heap.recordWait actor node).waits.lookup actor = some node := by
    rw [waits_recordWait, if_pos rfl]
  rw [deadlocked_iff]
  constructor
  · rintro ⟨waiter, ring⟩
    rcases cycle_recordWait ring with before | ⟨rfl | toActor, fromActor⟩
    · exact absurd (deadlocked_iff.mpr ⟨waiter, before⟩) safe
    · exact leadsTo_of_cycle fromActor registered
    · exact leadsTo_of_cycle (fromActor.trans toActor) registered
  · exact fun leads => ⟨actor, leads.cycle registered⟩

/-- What a handle or a walk can be blamed for is a defect of the graph. -/
theorem lookup_error {fault : Fault} (broken : heap.lookup node = .error fault) :
    ∃ defect, fault = .malformed defect := by
  unfold lookup at broken
  split at broken
  · cases broken
    exact ⟨_, rfl⟩
  · split at broken
    · split at broken
      · cases broken
      · cases broken
        exact ⟨_, rfl⟩
    · cases broken
      exact ⟨_, rfl⟩

theorem followFrom_broken {marks : Marks} {links : List Handle} {start : Handle} {fault : Fault}
    (landed : (heap.followFrom marks links start).landing = .broken fault) : ∃ defect, fault = .malformed defect := by
  fun_induction followFrom heap marks links start with
  | case1 marks links current fault' found =>
    cases landed
    exact lookup_error found
  | case2 | case4 => cases landed
  | case3 marks links current slot found target isLink unmet ih => exact ih landed

theorem state_error {fault : Fault} (broken : heap.state node = .error fault) :
    ∃ defect, fault = .malformed defect := by
  cases found : heap.lookup node with
  | error fault' =>
    obtain ⟨defect, rfl⟩ := lookup_error found
    simp only [state, found, Except.map, Except.error.injEq] at broken
    exact ⟨defect, broken.symm⟩
  | ok slot => simp [state, found, Except.map] at broken

theorem leadsBack_error {hops : Nat} {fault : Fault} (broken : heap.leadsBack actor hops node = .error fault) :
    ∃ defect, fault = .malformed defect := by
  induction hops generalizing node with
  | zero => cases broken
  | succ hops ih =>
    rw [leadsBack] at broken
    split at broken
    · rename_i found
      cases broken
      exact state_error found
    · split at broken
      · cases broken
      · split at broken
        · exact ih broken
        · cases broken
    · cases broken

/-- A wait is refused as non-termination exactly if it would close a ring. -/
theorem beginWait_refused_iff (safe : ¬ heap.Deadlocked) :
    (∃ after, beginWait actor node heap = .error (.nonTermination node) after) ↔
      (heap.recordWait actor node).Deadlocked := by
  rw [deadlocked_recordWait_iff safe, ← leadsBack_iff safe]
  unfold beginWait
  constructor
  · rintro ⟨after, refused⟩
    split at refused
    · rename_i broken
      obtain ⟨defect, rfl⟩ := leadsBack_error broken
      cases refused
    · assumption
    · cases refused
  · intro back
    rw [back]
    exact ⟨heap, rfl⟩

theorem leadsBack_live (live : ∀ {waiter next}, heap.waits.lookup waiter = some next → ∃ slot, heap.lookup next = .ok slot)
    {slot : Slot} (found : heap.lookup node = .ok slot) (actor : Actor) (hops : Nat) :
    ∃ back, heap.leadsBack actor hops node = .ok back := by
  induction hops generalizing node slot with
  | zero => exact ⟨false, rfl⟩
  | succ hops ih =>
    rw [leadsBack]
    split
    · rename_i broken
      simp [state, found, Except.map] at broken
    · split
      · exact ⟨true, rfl⟩
      · split
        · rename_i registered
          obtain ⟨slot, found⟩ := live registered
          exact ih found
        · exact ⟨false, rfl⟩
    · exact ⟨false, rfl⟩

/-! ### Interleavings -/

/-- One atomic action of one actor on a live node. An actor that waits can only stop waiting. -/
inductive Acts : Heap → Heap → Prop where
  | claim {heap : Heap} {actor : Actor} {node : Handle} {slot : Slot} (awake : heap.waits.lookup actor = none)
      (live : heap.lookup node = .ok slot) : Acts heap (claim node actor heap).state
  | complete {heap : Heap} {actor : Actor} {node : Handle} (awake : heap.waits.lookup actor = none)
      (held : heap.state node = .ok (.inProgress actor)) (result : Node) :
      Acts heap (complete node actor result heap).state
  | release {heap : Heap} {actor : Actor} {node : Handle} (awake : heap.waits.lookup actor = none)
      (held : heap.state node = .ok (.inProgress actor)) : Acts heap (release node actor heap).state
  | beginWait {heap : Heap} {actor : Actor} {node : Handle} {slot : Slot} (awake : heap.waits.lookup actor = none)
      (live : heap.lookup node = .ok slot) : Acts heap (beginWait actor node heap).state
  | endWait {heap : Heap} (actor : Actor) : Acts heap (heap.endWait actor)

inductive Interleaved (start : Heap) : Heap → Prop where
  | start : Interleaved start start
  | act {heap heap' : Heap} (reached : Interleaved start heap) (acts : Acts heap heap') : Interleaved start heap'

-- What every interleaving keeps.
structure Orderly (heap : Heap) : Prop where
  safe : ¬ heap.Deadlocked
  live : ∀ {waiter node}, heap.waits.lookup waiter = some node → ∃ slot, heap.lookup node = .ok slot

theorem transition_cases (change : Slot → Option Slot) {slot : Slot} (live : heap.lookup node = .ok slot) :
    (change slot = none ∧ transition node change heap = .ok false heap) ∨
      ∃ slot', change slot = some slot' ∧
        transition node change heap = .ok true (heap.put node.index.toNat slot') := by
  cases changed : change slot with
  | none => exact .inl ⟨rfl, by simp [transition, live, changed]⟩
  | some slot' => exact .inr ⟨slot', rfl, by simp [transition, live, changed]⟩

/-- The slot of one node changes and comes to be held by nobody, or by an actor that waits
for nobody. -/
theorem Orderly.handover {slot slot' : Slot} (orderly : heap.Orderly) (awake : heap.waits.lookup actor = none)
    (found : heap.lookup node = .ok slot) (entries : heap'.entries = (heap.put node.index.toNat slot').entries)
    (waits : heap'.waits = heap.waits) (taken : ∀ owner, slot'.state = .inProgress owner → owner = actor) :
    heap'.Orderly := by
  have lookups : ∀ other, heap'.lookup other = if other = node then .ok slot' else heap.lookup other := by
    intro other
    rw [lookup_congr entries]
    exact lookup_put_live found
  have edges : ∀ {waiter owner}, heap'.WaitsFor waiter owner → heap.WaitsFor waiter owner ∨ owner = actor := by
    rintro waiter owner ⟨stored, registered, held⟩
    rw [waits] at registered
    rw [state, lookups] at held
    by_cases same : stored = node
    · rw [if_pos same] at held
      exact .inr (taken owner (Except.ok.inj held))
    · rw [if_neg same] at held
      exact .inl ⟨stored, registered, held⟩
  have unwaiting : ∀ {owner}, ¬ heap'.WaitsFor actor owner := by
    rintro owner ⟨stored, registered, _⟩
    rw [waits, awake] at registered
    cases registered
  -- a path in the new graph is a path in the old one, or ends at the actor and goes no further
  have paths : ∀ {waiter owner}, TransGen heap'.WaitsFor waiter owner →
      TransGen heap.WaitsFor waiter owner ∨ owner = actor := by
    intro waiter owner path
    induction path with
    | single edge => exact (edges edge).imp_left .single
    | @tail middle owner _ edge ih =>
      have path := ih.resolve_right fun same => unwaiting (same ▸ edge)
      exact (edges edge).imp_left (.tail path)
  constructor
  · rw [deadlocked_iff]
    rintro ⟨waiter, ring⟩
    rcases paths ring with before | rfl
    · exact orderly.safe (deadlocked_iff.mpr ⟨waiter, before⟩)
    · obtain ⟨_, edge, _⟩ := TransGen.head'_iff.mp ring
      exact unwaiting edge
  · intro waiter stored registered
    rw [waits] at registered
    rw [lookups]
    by_cases same : stored = node
    · exact ⟨slot', if_pos same⟩
    · rw [if_neg same]
      exact orderly.live registered

theorem lookup_of_state {slotState : SlotState} (found : heap.state node = .ok slotState) :
    ∃ slot, heap.lookup node = .ok slot ∧ slot.state = slotState := by
  cases live : heap.lookup node with
  | error fault => simp [state, live, Except.map] at found
  | ok slot =>
    simp only [state, live, Except.map, Except.ok.injEq] at found
    exact ⟨slot, rfl, found⟩

theorem Orderly.endWait (orderly : heap.Orderly) (actor : Actor) : (heap.endWait actor).Orderly := by
  have kept : ∀ {waiter node}, (heap.endWait actor).waits.lookup waiter = some node →
      heap.waits.lookup waiter = some node := by
    intro waiter node registered
    rw [lookup_endWait] at registered
    split at registered
    · cases registered
    · exact registered
  constructor
  · rw [deadlocked_iff]
    rintro ⟨waiter, ring⟩
    have edges : ∀ waiter owner, (heap.endWait actor).WaitsFor waiter owner → heap.WaitsFor waiter owner := by
      rintro waiter owner ⟨stored, registered, held⟩
      exact ⟨stored, kept registered, held⟩
    exact orderly.safe (deadlocked_iff.mpr ⟨waiter, TransGen.mono edges _ _ ring⟩)
  · exact fun registered => orderly.live (kept registered)

theorem beginWait_granted (orderly : heap.Orderly) {slot : Slot} (found : heap.lookup node = .ok slot)
    (granted : ¬ (heap.recordWait actor node).Deadlocked) :
    beginWait actor node heap = .ok () (heap.recordWait actor node) := by
  obtain ⟨back, walked⟩ := leadsBack_live orderly.live found actor (heap.waits.length + 1)
  rw [deadlocked_recordWait_iff orderly.safe, ← leadsBack_iff orderly.safe, walked] at granted
  cases back with
  | true => exact absurd rfl granted
  | false =>
    simp only [beginWait, walked]
    rfl

theorem beginWait_refused_heap {fault : Fault} (refused : beginWait actor node heap = .error fault heap') :
    heap' = heap := by
  unfold beginWait at refused
  split at refused
  · cases refused
    rfl
  · cases refused
    rfl
  · cases refused

theorem Orderly.beginWait (orderly : heap.Orderly) {slot : Slot} (found : heap.lookup node = .ok slot) :
    (beginWait actor node heap).state.Orderly := by
  by_cases granted : (heap.recordWait actor node).Deadlocked
  · obtain ⟨after, refused⟩ := (beginWait_refused_iff orderly.safe).mpr granted
    have same := beginWait_refused_heap refused
    rw [refused]
    exact same ▸ orderly
  · rw [beginWait_granted orderly found granted]
    refine ⟨granted, fun {waiter stored} registered => ?_⟩
    have registered : (heap.recordWait actor node).waits.lookup waiter = some stored := registered
    rw [waits_recordWait] at registered
    split at registered
    · cases registered
      exact ⟨slot, found⟩
    · exact orderly.live registered

theorem Acts.orderly (acts : Acts heap heap') (orderly : heap.Orderly) : heap'.Orderly := by
  cases acts with
  | @claim actor node slot awake live =>
    rcases transition_cases (Slot.claim actor) live with ⟨_, refused⟩ | ⟨slot', claimed, ended⟩
    · rw [Heap.claim, refused]
      exact orderly
    · rw [Heap.claim, ended]
      refine orderly.handover awake live rfl rfl fun owner held => ?_
      simp only [Slot.claim, Option.ite_none_right_eq_some, Option.some.injEq] at claimed
      rw [← claimed.2] at held
      exact (SlotState.inProgress.inj held).symm
  | @complete actor node awake held result =>
    obtain ⟨slot, live, holder⟩ := lookup_of_state held
    rcases transition_cases (Slot.complete actor result) live with ⟨refused, _⟩ | ⟨slot', completed, ended⟩
    · simp [Slot.complete, holder] at refused
    · rw [Heap.complete, bind_ok ended]
      refine orderly.handover awake live rfl rfl fun owner held => ?_
      simp only [Slot.complete, Option.ite_none_right_eq_some, Option.some.injEq] at completed
      rw [← completed.2] at held
      cases held
  | @release actor node awake held =>
    obtain ⟨slot, live, holder⟩ := lookup_of_state held
    rcases transition_cases (Slot.release actor) live with ⟨refused, _⟩ | ⟨slot', released, ended⟩
    · simp [Slot.release, holder] at refused
    · rw [Heap.release, bind_ok ended]
      refine orderly.handover awake live rfl rfl fun owner held => ?_
      simp only [Slot.release, Option.ite_none_right_eq_some, Option.some.injEq] at released
      rw [← released.2] at held
      cases held
  | beginWait _ live => exact orderly.beginWait live
  | endWait actor => exact orderly.endWait actor

theorem Interleaved.orderly {start : Heap} (quiet : start.waits = []) (reached : Interleaved start heap) :
    heap.Orderly := by
  induction reached with
  | start =>
    constructor
    · rw [deadlocked_iff]
      rintro ⟨waiter, ring⟩
      obtain ⟨_, ⟨_, registered, _⟩, _⟩ := TransGen.head'_iff.mp ring
      rw [quiet] at registered
      cases registered
    · intro waiter node registered
      rw [quiet] at registered
      cases registered
  | act _ acts ih => exact acts.orderly ih

/-- From a heap where nobody waits, no interleaving leads to a ring of waiting actors. In
all that it leads to, a wait is refused as non-termination exactly if it would close a
ring, and every other wait on a live node is granted; more hops than one for each wait and
one more find no other answer; and a refused wait changes nothing. -/
theorem waits_never_deadlock {start : Heap} (quiet : start.waits = []) (reached : Interleaved start heap) :
    ¬ heap.Deadlocked ∧
    (∀ actor node, (∃ after, beginWait actor node heap = .error (.nonTermination node) after) ↔
      (heap.recordWait actor node).Deadlocked) ∧
    (∀ actor node slot, heap.lookup node = .ok slot → ¬ (heap.recordWait actor node).Deadlocked →
      beginWait actor node heap = .ok () (heap.recordWait actor node)) ∧
    (∀ actor node more, heap.leadsBack actor (heap.waits.length + 1 + more) node =
      heap.leadsBack actor (heap.waits.length + 1) node) ∧
    (∀ actor node fault after, beginWait actor node heap = .error fault after → after = heap) := by
  have orderly := reached.orderly quiet
  refine ⟨orderly.safe, fun actor node => beginWait_refused_iff orderly.safe, ?_, ?_, ?_⟩
  · exact fun actor node slot found granted => beginWait_granted orderly found granted
  · exact fun actor node more => leadsBack_bound orderly.safe actor node more
  · exact fun actor node fault after refused => beginWait_refused_heap refused

/-! ### Two actors that want each other's thunk -/

def firstActor : Actor := ⟨1⟩

def secondActor : Actor := ⟨2⟩

-- Two thunks that nobody holds.
def twoThunks : Heap :=
  let first := alloc (.thunk ⟨0, .int 1⟩ []) (.ofSettings {})
  (alloc (.thunk ⟨1, .int 2⟩ []) first.state).state

-- Each actor holds one, and the first waits for the other one.
def crossedWaits : Heap :=
  let held := (claim ⟨0, 0⟩ firstActor twoThunks).state
  let crossed := (claim ⟨1, 0⟩ secondActor held).state
  (beginWait firstActor ⟨1, 0⟩ crossed).state

theorem crossedWaits_interleaved : Interleaved twoThunks crossedWaits := by
  have held : Interleaved twoThunks (claim ⟨0, 0⟩ firstActor twoThunks).state := .act .start (.claim rfl rfl)
  have crossed : Interleaved twoThunks (claim ⟨1, 0⟩ secondActor _).state := held.act (.claim rfl rfl)
  have waiting : Interleaved twoThunks (beginWait firstActor ⟨1, 0⟩ _).state := crossed.act (.beginWait rfl rfl)
  exact waiting

theorem waits_never_deadlock_crossed :
    ¬ crossedWaits.Deadlocked ∧ (crossedWaits.recordWait secondActor ⟨0, 0⟩).Deadlocked ∧
      beginWait secondActor ⟨0, 0⟩ crossedWaits = .error (.nonTermination ⟨0, 0⟩) crossedWaits := by
  have ⟨safe, refused, _⟩ := waits_never_deadlock rfl crossedWaits_interleaved
  have asked : beginWait secondActor ⟨0, 0⟩ crossedWaits = .error (.nonTermination ⟨0, 0⟩) crossedWaits := rfl
  exact ⟨safe, (refused secondActor ⟨0, 0⟩).mp ⟨_, asked⟩, asked⟩

end LazyGraph.Heap

import LazyGraph.Proofs.Machine.Recall
import LazyGraph.Proofs.Machine.Wraparound
import LazyGraph.Proofs.Parallel.Schedules
import LazyGraph.Proofs.Parallel.Sequence
import LazyGraph.Proofs.Parallel.Systems

/-! Forcing in parallel agrees with forcing one after the other.

If the calls return when they are made one after the other, then the evaluations of all roots
end, and the readings of the handles can be followed along every schedule. No evaluator mistakes
a thunk that another one is at work on for one that depends on itself. -/

set_option autoImplicit false

namespace LazyGraph

open Unshared

variable {heap : Heap} {handle : Handle} {node : Node} {slotState : SlotState}

/-- Nobody is at work on the heap. A thunk may have been left in progress by an actor of the past. -/
structure Heap.AtRest (heap : Heap) : Prop where
  regular : heap.Regular
  unawaited : heap.waits = []

theorem Heap.Regular.lookup_settled (regular : heap.Regular) (handle : Handle) :
    heap.settled.lookup handle = heap.lookup handle := by
  rw [Heap.lookup_settled]
  cases found : heap.lookup handle with
  | error fault => rfl
  | ok slot =>
    refine congrArg Except.ok ?_
    have proper := regular.proper found
    obtain ⟨slotState, node⟩ := slot
    by_cases thunk : node.tag = .thunk
    · exact Slot.settled_of_thunk thunk
    · obtain rfl : slotState = .evaluated := proper.done thunk
      exact Slot.settled_of_solid thunk

namespace Parallel

open Machine

variable {σ : Type} {host : Host σ} {settings : EvalSettings} {fuel : Nat} {graph : Heap} {known : Handle → Prop}
  {account : Account} {shape : Shape} {roots results : List Handle} {targets : List (Handle × Shape)} {world last : World σ}
  {schedule : List Nat}

theorem Sound.of_atRest (atRest : heap.AtRest) (contained : ∀ root ∈ roots, heap.SelfContained root)
    (issued : ∀ root ∈ roots, ¬ heap.Offers root) : Sound heap (heap.Concerns roots) ⟨heap.restingFor roots, []⟩ heap where
  faithful := (faithful_restingFor atRest.regular contained issued).of_lookup atRest.regular.free.settled
    atRest.regular.lookup_settled fun _ => Heap.offers_settled.mp
  reserved := .nil heap
  unread := fun member => absurd member List.not_mem_nil
  waits := by simp [atRest.unawaited]
  pending := fun found => (atRest.regular.proper found).mpr (by simp)

theorem Spares.of_atRest {reading : Reading} (atRest : heap.AtRest) (few : roots.length ≤ UInt32.size)
    (unclaimed : ∀ ahead < roots.length, ∀ node, ¬ heap.HeldBy (newcomer heap ahead) node) :
    Spares ⟨reading, []⟩ heap (roots.map (Job.queued (σ := σ))) := by
  have queued : (roots.map (Job.queued (σ := σ))).countP Job.queues = roots.length := by
    rw [List.countP_map]
    exact List.countP_eq_length.mpr fun _ _ => rfl
  refine ⟨queued ▸ few, fun less => ⟨fun found => ?_, by simp [atRest.unawaited], rfl⟩, fun {_ place _} _ found => ?_⟩
  · exact unclaimed _ (queued ▸ less) _ (Heap.heldBy_iff.mpr ⟨_, found⟩)
  · rw [List.getElem?_map] at found
    cases root : roots[place]? <;> simp [root] at found

theorem System.launch_stands (sound : Sound graph known account world.heap) (aims : targets.map Prod.fst = roots)
    (spares : Spares account world.heap (roots.map (Job.queued (σ := σ)))) :
    (System.launch roots world).Stands graph known targets account where
  sound := sound
  length := by simp [launch, ← aims]
  jobs := by
    intro place job target found aimed
    subst aims
    simp only [launch, List.getElem?_map, aimed] at found
    cases found
    rfl
  apart := by
    intro place _ thread _ found
    simp only [launch, List.getElem?_map] at found
    cases root : roots[place]? <;> simp [root] at found
  spares := spares

/-- A job that stands meets no faults but limits, and returns a value of the shape. -/
theorem Job.Stands.outcome {root : Handle} {job : Job σ} (stands : job.Stands graph known root shape account world) :
    (∀ fault, job.fault? = some fault → ∃ limit, fault = .exhausted limit) ∧
      ∀ outcome, job.outcome? = some outcome → (∀ limit, outcome ≠ .error (.exhausted limit)) →
        ∃ handle head, outcome = .ok handle ∧ shape.head? = some head ∧ world.heap.head? handle = some head := by
  cases job with
  | queued _ => exact ⟨by simp [Job.fault?], by simp [Job.outcome?]⟩
  | begun thread =>
    obtain ⟨evaluator, stack, steps, deadline, activity⟩ := thread
    cases activity with
    | reducing rest => exact ⟨by simp [Job.fault?], by simp [Job.outcome?]⟩
    | unwinding fault rest =>
      refine ⟨?_, by simp [Job.outcome?]⟩
      rintro _ ⟨⟩
      exact stands.1
    | ended outcome =>
      cases outcome with
      | error fault =>
        obtain ⟨limit, rfl⟩ : ∃ limit, fault = .exhausted limit := stands
        refine ⟨?_, ?_⟩
        · rintro _ ⟨⟩
          exact ⟨limit, rfl⟩
        · rintro _ ⟨⟩ unlimited
          exact absurd rfl (unlimited limit)
      | ok handle =>
        refine ⟨by simp [Job.fault?], ?_⟩
        rintro _ ⟨⟩ _
        obtain ⟨node, keeps, denotes⟩ := stands
        obtain ⟨head, shows, same⟩ := denotes.head
        obtain ⟨slotState, found⟩ := (Heap.keeps_settled denotes.whnf).mp keeps
        exact ⟨handle, head, rfl, same, (Heap.head?_of_lookup found denotes.whnf).trans shows⟩

/-- If calls that are made one after the other all return, then under every schedule the same
calls made at once fail at limits only, and what the job at a place returns has the head of what
the call in that place returned. -/
theorem force_parallel_agrees (atRest : world.heap.AtRest) (contained : ∀ root ∈ roots, world.heap.SelfContained root)
    (issued : ∀ root ∈ roots, ¬ world.heap.Offers root)
    (few : roots.length ≤ UInt32.size)
    (unclaimed : ∀ ahead < roots.length, ∀ node, ¬ world.heap.HeldBy (newcomer world.heap ahead) node)
    (unlimited : UnlimitedEach host settings fuel roots world)
    (inTurn : forceEach host settings fuel roots world = some (results.map .ok, last))
    (fits : ∀ early, early <+: schedule → ((System.launch roots world).run host settings early).world.heap.Addressable) :
    let system := (System.launch roots world).run host settings schedule
    system.jobs.length = roots.length ∧ ∀ (place : Nat) (job : Job σ), system.jobs[place]? = some job →
      (∀ fault, job.fault? = some fault → ∃ limit, fault = .exhausted limit) ∧
      ∀ outcome, job.outcome? = some outcome → (∀ limit, outcome ≠ .error (.exhausted limit)) →
        ∃ handle result head, outcome = .ok handle ∧ results[place]? = some result ∧
          last.heap.head? result = some head ∧ system.world.heap.head? handle = some head := by
  intro system
  have sound := Sound.of_atRest atRest contained issued
  have concerned : ∀ root ∈ roots, world.heap.Concerns roots root := fun root member => ⟨root, member, .inl rfl⟩
  obtain ⟨_, targets, aims, returned⟩ :=
    forceEach_calls (faithful_restingFor atRest.regular contained issued) atRest.regular concerned unlimited inTurn
  have ends : ∀ target ∈ targets, world.heap.Concerns roots target.1 ∧
      Ends world.heap (.force (.node target.1), []) target.2 := by
    intro target member
    obtain ⟨place, aimed⟩ := List.mem_iff_getElem?.mp member
    exact ⟨concerned _ (aims ▸ List.mem_map_of_mem member), (returned place target aimed).1⟩
  obtain ⟨account, stands⟩ := (System.launch_stands sound aims (.of_atRest atRest few unclaimed)).run ends fits
  have length : system.jobs.length = targets.length := stands.length
  have counted : targets.length = roots.length := by rw [← aims, List.length_map]
  refine ⟨length.trans counted, fun place job found => ?_⟩
  obtain ⟨within, _⟩ := List.getElem?_eq_some_iff.mp found
  have aimed := List.getElem?_eq_getElem (length ▸ within : place < targets.length)
  obtain ⟨faults, returns⟩ := (stands.jobs found aimed).outcome
  refine ⟨faults, fun outcome ended unlimited => ?_⟩
  obtain ⟨handle, head, isOk, shows, here⟩ := returns outcome ended unlimited
  obtain ⟨_, result, present, there⟩ := returned place _ aimed
  exact ⟨handle, result, head, isOk, present, there.trans shows, here⟩

-- One evaluator forces a thunk, and the other one a link to it.
def chainedRoots : List Handle := [⟨0, 0⟩, ⟨1, 0⟩]

-- They take turns until both have returned.
def chainedRun : System Unit :=
  (System.launch chainedRoots chainedCall.2.world).run failingHost {} (List.replicate 27 [0, 1]).flatten

theorem chainedThunk_live {handle : Handle} {slot : Slot} (found : chainedCall.2.world.heap.lookup handle = .ok slot) :
    slot = ⟨.unevaluated, .thunk ⟨0, .int 5⟩ []⟩ ∨ slot = ⟨.evaluated, .indirection ⟨0, 0⟩⟩ := by
  have slots : chainedCall.2.world.heap.entries.toList.map Entry.slot =
      [some ⟨.unevaluated, .thunk ⟨0, .int 5⟩ []⟩, some ⟨.evaluated, .indirection ⟨0, 0⟩⟩] := rfl
  simpa [slots] using slot_mem_of_lookup found

theorem chainedThunk_contained (root : Handle) : chainedCall.2.world.heap.SelfContained root := by
  refine selfContained_of_live rfl fun found => ?_
  rcases chainedThunk_live found with rfl | rfl
  · refine ⟨by simp [Slot.Proper, Node.tag], fun _ member => absurd member List.not_mem_nil, ?_⟩
    rintro _ ⟨⟩
    exact number_staysIn _ _ _
  · refine ⟨by simp [Slot.Proper, Node.tag], List.forall_mem_singleton.mpr ⟨_, rfl⟩, ?_⟩
    rintro _ ⟨⟩

theorem chainedThunk_atRest : chainedCall.2.world.heap.AtRest where
  regular := (chainedThunk_contained ⟨0, 0⟩).regular
  unawaited := rfl

theorem chainedThunk_unclaimed (actor : Actor) (node : Handle) : ¬ chainedCall.2.world.heap.HeldBy actor node := by
  intro held
  obtain ⟨content, found⟩ := Heap.heldBy_iff.mp held
  rcases chainedThunk_live found with same | same <;> cases same

/-- While the one evaluates the thunk, the other one waits for it. -/
theorem force_parallel_agrees_chained :
    chainedRun.jobs.map Job.outcome? = [some (.ok ⟨0, 0⟩), some (.ok ⟨0, 0⟩)] ∧
      ∃ last head, forceEach failingHost {} 9 chainedRoots chainedCall.2.world = some ([.ok ⟨0, 0⟩, .ok ⟨0, 0⟩], last) ∧
        last.heap.head? ⟨0, 0⟩ = some head ∧ chainedRun.world.heap.head? ⟨0, 0⟩ = some head := by
  have outcomes : chainedRun.jobs.map Job.outcome? = [some (.ok ⟨0, 0⟩), some (.ok ⟨0, 0⟩)] := by
    decide +kernel
  have within : withinEach failingHost {} 9 chainedRoots chainedCall.2.world := by
    decide +kernel
  have along : System.fitsAlong failingHost {} (List.replicate 27 [0, 1]).flatten
      (System.launch chainedRoots chainedCall.2.world) := by
    decide +kernel
  have returned : (forceEach failingHost {} 9 chainedRoots chainedCall.2.world).map Prod.fst =
      some (([⟨0, 0⟩, ⟨0, 0⟩] : List Handle).map .ok) := by
    decide +kernel
  obtain ⟨⟨_, last⟩, inTurn, rfl⟩ := Option.map_eq_some_iff.mp returned
  have issued : ∀ root ∈ chainedRoots, ¬ chainedCall.2.world.heap.Offers root := by
    intro root member
    rcases List.mem_pair.mp member with rfl | rfl
    · exact Heap.Live.granted ⟨_, rfl⟩ chainedThunk_atRest.regular.free
    · exact Heap.Live.granted ⟨_, rfl⟩ chainedThunk_atRest.regular.free
  have agrees := force_parallel_agrees chainedThunk_atRest (fun root _ => chainedThunk_contained root) issued (by decide)
    (fun _ _ => chainedThunk_unclaimed _) (unlimitedEach_of_within within) inTurn (System.fits_of_along along)
  obtain ⟨job, _, jobs, outcome, _⟩ := List.map_eq_cons_iff.mp outcomes
  have found : chainedRun.jobs[0]? = some job := by
    rw [jobs]
    rfl
  obtain ⟨handle, result, head, same, present, there, here⟩ := (agrees.2 0 job found).2 _ outcome (by simp)
  cases same
  cases present
  refine ⟨outcomes, last, head, inTurn, there, ?_⟩
  rw [chainedRun]
  exact here

-- An integer, and a thunk that makes a box.
def brimsRoots : List Handle := [⟨0, 0⟩, ⟨1, 0⟩]

theorem brims_contained (brims : heap.Brims [.int 0, .thunk wrapping []]) (root : Handle) : heap.SelfContained root := by
  refine selfContained_of_live brims.free fun {handle slot} found => ⟨brims.regular.proper found, ?_⟩
  rw [brims.found found]
  match handle.index.toNat with
  | 0 => exact ⟨nofun, nofun⟩
  | 1 =>
    refine ⟨nofun, ?_⟩
    rintro _ ⟨⟩
    exact wrapping_staysIn _
  | _ + 2 => exact ⟨nofun, nofun⟩

theorem brims_unclaimed {front : List Node} (brims : heap.Brims front) (actor : Actor) (node : Handle) :
    ¬ heap.HeldBy actor node := by
  intro held
  obtain ⟨content, found⟩ := Heap.heldBy_iff.mp held
  exact Slot.ofNode_idle actor _ (congrArg Slot.state (brims.found found)).symm

theorem registered_brims {front : List Node} (brims : heap.Brims front) : (registered heap).Brims front :=
  ⟨⟨brims.entries, brims.free, brims.unlimited, brims.unawaited⟩, brims.capacity⟩

theorem brims_inTurn (brims : heap.Brims [.int 0, .thunk wrapping []]) :
    ∃ last, forceEach failingHost {} 4 brimsRoots (idleOn heap).world = some ([.ok ⟨0, 0⟩, .ok ⟨1, 0⟩], last) := by
  have brims' := registered_brims brims
  have near : (idleOn (registered heap)).world.heap.Near ⟨0, 0⟩ ⟨0, 0⟩ (.int 0) := ⟨brims'.lookup 0, rfl, .inl rfl⟩
  obtain ⟨middle, after, counted, counted', both⟩ :=
    @force_near _ ⟨⟨heap.nextActor⟩, {}, none⟩ (idleOn (registered heap)) _ _ _ near rfl ⟨nofun, rfl, nofun⟩ 4 (by decide)
  have same : after.world.heap = registered heap := counted'.heap.trans counted.heap
  have brims'' := registered_brims (same ▸ brims')
  obtain ⟨last, ended, _⟩ := @force_overwrites Unit failingHost ⟨after.world.heap.nextActor⟩
    (start after.world {} none).2 ⟨1, 0⟩ _ brims''.full (brims''.lookup 0) rfl (by decide) (brims''.lookup 1)
  exact ⟨last.world, forceEach_eq_cons (both failingHost).2 (forceEach_eq_cons ended rfl)⟩

theorem proper_put {node : Handle} {old new : Slot} (found : heap.lookup node = .ok old) (proper : new.Proper)
    (each : ∀ {handle slot}, heap.lookup handle = .ok slot → slot.Proper) {handle : Handle} {slot : Slot}
    (present : (heap.put node.index.toNat new).lookup handle = .ok slot) : slot.Proper := by
  rw [Heap.lookup_put_live found] at present
  split at present
  · cases present
    exact proper
  · exact each present

/-- The box is made, in place of the first node. -/
theorem brims_wraps (brims : heap.Brims [.int 0, .thunk wrapping []]) :
    ∃ turns thread world, System.run failingHost {} (.replicate turns 1) (System.launch brimsRoots (idleOn heap).world) =
        ⟨world, [.queued ⟨0, 0⟩, .begun thread]⟩ ∧
      world.heap.lookup ⟨0, 0⟩ = .ok (.ofNode wrapped) ∧
      ∀ {handle slot}, world.heap.lookup handle = .ok slot → slot.Proper := by
  let state := begin ⟨⟨heap.nextActor⟩, {}, none⟩ (idleOn (registered heap))
  have brims' : state.world.heap.Brims _ := registered_brims brims
  have proper : ∀ {handle slot}, state.world.heap.lookup handle = .ok slot → slot.Proper := brims'.regular.proper
  have found := brims'.lookup 1
  obtain ⟨claimed, claims, unhurried, _, heap'⟩ := @iterate_claims Unit failingHost ⟨heap.nextActor⟩ state ⟨1, 0⟩ ⟨1, 0⟩ []
    wrapping [] rfl rfl (.of_lookup found)
  have full : claimed.world.heap.Full := by
    rw [heap']
    exact ⟨(Heap.capacity_put ..).trans brims'.capacity, brims'.free, brims'.unlimited⟩
  have first : claimed.world.heap.lookup ⟨0, 0⟩ = .ok ⟨.evaluated, .int 0⟩ := by
    rw [heap', Heap.lookup_put_live found]
    exact brims'.lookup 0
  obtain ⟨reached, wraps, _, _, overwrites⟩ := @iterate_wraps Unit failingHost ⟨heap.nextActor⟩ claimed _ unhurried full first
  have proper' : ∀ {handle slot}, claimed.world.heap.lookup handle = .ok slot → slot.Proper := by
    rw [heap']
    exact proper_put found (by simp [Slot.Proper, Node.tag]) proper
  have going := (Goes.onward proper (show Control.Sound _ (.force ⟨1, 0⟩) from trivial) claims).trans
    (Goes.onward proper' (show Control.Sound _ (.eval wrapping []) from trivial) wraps)
  obtain ⟨turns, ran⟩ := @System.run_begins Unit failingHost (idleOn heap).world _ (brimsRoots.map .queued) 1 _ _ {} rfl going
  refine ⟨turns, _, reached.world, ran, (overwrites _).trans (if_pos rfl), fun {handle slot} present => ?_⟩
  rw [overwrites] at present
  split at present
  · cases present
    simp [Slot.Proper, Slot.ofNode, wrapped, Node.tag]
  · exact proper' present

/-- On a heap with a slot for each word calls that all return one after the other may fail when they are made at once. -/
theorem force_parallel_disagrees :
    ∃ heap : Heap, heap.Brims [.int 0, .thunk wrapping []] ∧ heap.AtRest ∧ (∀ actor node, ¬ heap.HeldBy actor node) ∧
      (∀ root ∈ brimsRoots, heap.SelfContained root) ∧ (∀ root ∈ brimsRoots, ¬ heap.Offers root) ∧
      (∃ last, forceEach failingHost {} 4 brimsRoots (idleOn heap).world = some ([.ok ⟨0, 0⟩, .ok ⟨1, 0⟩], last)) ∧
      ∃ schedule, ((System.launch brimsRoots (idleOn heap).world).run failingHost {} schedule).jobs[0]?.bind Job.outcome? =
        some (.error (.failed (.raised "boom"))) := by
  obtain ⟨heap, brims, -⟩ := @Heap.exists_brims (fun _ => True) [.int 0, .thunk wrapping []] trivial fun _ _ _ _ => trivial
  refine ⟨heap, brims, ⟨brims.regular, brims.unawaited⟩, brims_unclaimed brims, fun root _ => brims_contained brims root, ?_,
    brims_inTurn brims, ?_⟩
  · intro root member
    rcases List.mem_pair.mp member with rfl | rfl
    · exact Heap.Live.granted ⟨_, brims.lookup 0⟩ brims.regular.free
    · exact Heap.Live.granted ⟨_, brims.lookup 1⟩ brims.regular.free
  obtain ⟨turns, thread, world, ran, first, proper⟩ := brims_wraps brims
  let state := (start world {} none).2
  have found : state.world.heap.lookup ⟨0, 0⟩ = .ok (.ofNode wrapped) := first
  obtain ⟨claimed, claims, unhurried, _, heap'⟩ := @iterate_claims Unit failingHost ⟨world.heap.nextActor⟩
    (begin ⟨⟨world.heap.nextActor⟩, {}, none⟩ state) ⟨0, 0⟩ ⟨0, 0⟩ [] ⟨1, .raise "boom"⟩ [] rfl rfl (.of_lookup found)
  have raises : iterate failingHost ⟨⟨world.heap.nextActor⟩, {}, none⟩ (.eval ⟨1, .raise "boom"⟩ []) claimed =
      .error (.failed (.raised "boom")) (begun claimed) := unlimited_begins _ _ unhurried
  have proper' : ∀ {handle slot}, claimed.world.heap.lookup handle = .ok slot → slot.Proper := by
    rw [heap']
    exact proper_put found (by simp [Slot.Proper, Node.tag]) proper
  have going := (Goes.onward proper (show Control.Sound _ (.force ⟨0, 0⟩) from trivial) claims).trans
    (Goes.fails proper' (show Control.Sound _ (.eval ⟨1, .raise "boom"⟩ []) from trivial) raises)
  obtain ⟨turns', ran'⟩ := @System.run_begins Unit failingHost world _ [.queued ⟨0, 0⟩, .begun thread] 0 _ _ {} rfl going
  refine ⟨.replicate turns 1 ++ .replicate turns' 0, ?_⟩
  rw [System.run, List.foldl_append]
  show (System.run failingHost {} _ (System.run failingHost {} _ _)).jobs[0]?.bind _ = _
  rw [ran, ran']
  rfl

end Parallel

end LazyGraph

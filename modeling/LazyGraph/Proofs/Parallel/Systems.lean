import LazyGraph.Proofs.Parallel.Threads

/-! Runs of many evaluators.

Each evaluator has an actor of its own, which holds nothing when it begins. So what one of them
does, fairly, the others can bear, and all of them keep their standing along every schedule. -/

set_option autoImplicit false

namespace LazyGraph.Parallel

open Unshared Machine

variable {σ : Type} {host : Host σ} {settings : EvalSettings} {graph : Heap} {known : Handle → Prop}
  {account account' : Account} {shape : Shape} {heap : Heap} {root : Handle} {world world' : World σ} {actor : Actor}

/-! ### Registering -/

def registered (heap : Heap) : Heap :=
  { heap with nextActor := heap.nextActor + 1 }

/-- The actor of an evaluator that so many others are made before. The numbers may wrap. -/
def newcomer (heap : Heap) (ahead : Nat) : Actor :=
  ⟨heap.nextActor + UInt32.ofNat ahead⟩

theorem newcomer_registered (heap : Heap) (ahead : Nat) : newcomer (registered heap) ahead = newcomer heap (ahead + 1) := by
  show (⟨heap.nextActor + 1 + UInt32.ofNat ahead⟩ : Actor) = ⟨heap.nextActor + UInt32.ofNat (ahead + 1)⟩
  rw [UInt32.ofNat_add, UInt32.add_comm (UInt32.ofNat ahead), UInt32.add_assoc]
  rfl

theorem newcomer_first (heap : Heap) : newcomer heap 0 = ⟨heap.nextActor⟩ :=
  congrArg Actor.mk (UInt32.add_zero _)

theorem newcomer_later {ahead : Nat} (few : ahead + 1 < UInt32.size) : newcomer heap (ahead + 1) ≠ ⟨heap.nextActor⟩ := by
  intro same
  have numbers : heap.nextActor + UInt32.ofNat (ahead + 1) = heap.nextActor := congrArg Actor.number same
  have none : UInt32.ofNat (ahead + 1) = 0 := UInt32.add_eq_left.mp numbers
  have counted := congrArg UInt32.toNat none
  rw [UInt32.toNat_ofNat_of_lt' few] at counted
  cases counted

theorem registered_sound (sound : Sound graph known account heap) :
    Sound graph known account (registered heap) ∧ ∀ actor, Minds actor account heap account (registered heap) :=
  ⟨sound.of_entries rfl rfl .inl, fun _ => ⟨.of_entries sound.free rfl rfl rfl, rfl⟩⟩

theorem Idle.begins (idle : Idle account heap actor) (read : account.reading root = some (.node root))
    (ends : Ends graph (.force (.node root), []) shape) {state : State σ}
    (same : state.world.heap = registered heap) (empty : state.stack.items = []) :
    Standing graph known actor shape account state (.turn (.force root)) :=
  .of_heap same empty (.force read) ⟨⟨.nil [], ends, .nil _ _, idle.unpledged⟩, fun found => absurd found idle.unclaimed⟩
    idle.unwaiting

/-! ### Jobs -/

def Job.queues : Job σ → Bool
  | .queued _ => true
  | .begun _ => false

def Job.Stands (graph : Heap) (known : Handle → Prop) (root : Handle) (shape : Shape) (account : Account) (world : World σ) :
    Job σ → Prop
  | .queued other => other = root
  | .begun thread => thread.Stands graph known shape account world

/-- The actors that the queued jobs are still to get are idle, and nobody has them yet. -/
structure Spares (account : Account) (heap : Heap) (jobs : List (Job σ)) : Prop where
  few : jobs.countP Job.queues ≤ UInt32.size
  idle : ∀ {ahead : Nat}, ahead < jobs.countP Job.queues → Idle account heap (newcomer heap ahead)
  unused : ∀ {ahead place : Nat} {thread : Thread σ}, ahead < jobs.countP Job.queues →
    jobs[place]? = some (.begun thread) → thread.evaluator.actor ≠ newcomer heap ahead

structure System.Stands (graph : Heap) (known : Handle → Prop) (targets : List (Handle × Shape)) (account : Account)
    (system : System σ) : Prop where
  sound : Sound graph known account system.world.heap
  length : system.jobs.length = targets.length
  jobs : ∀ {place : Nat} {job : Job σ} {target : Handle × Shape}, system.jobs[place]? = some job →
    targets[place]? = some target → job.Stands graph known target.1 target.2 account system.world
  apart : ∀ {place place' : Nat} {thread thread' : Thread σ}, system.jobs[place]? = some (.begun thread) →
    system.jobs[place']? = some (.begun thread') → thread.evaluator.actor = thread'.evaluator.actor → place = place'
  spares : Spares account system.world.heap system.jobs

variable {targets : List (Handle × Shape)} {jobs : List (Job σ)} {place : Nat} {job job' : Job σ} {thread thread' : Thread σ}
  {system : System σ} {schedule : List Nat}

namespace Spares

/-- A job has got the next actor. -/
theorem begins (spares : Spares account heap jobs) (sound : Sound graph known account heap)
    (present : jobs[place]? = some (.queued root)) (next : thread.evaluator.actor = ⟨heap.nextActor⟩) :
    Spares account (registered heap) (jobs.set place (.begun thread)) := by
  obtain ⟨within, here⟩ := List.getElem?_eq_some_iff.mp present
  have waits : 0 < jobs.countP Job.queues :=
    List.countP_pos_iff.mpr ⟨.queued root, List.mem_of_getElem? present, rfl⟩
  have fewer : (jobs.set place (.begun thread)).countP Job.queues + 1 = jobs.countP Job.queues := by
    have queues : Job.queues (.queued root : Job σ) = true := rfl
    have queues' : Job.queues (.begun thread) = false := rfl
    rw [List.countP_set within, here]
    simp only [queues, queues', if_true, Bool.false_eq_true, if_false]
    omega
  have few := spares.few
  refine ⟨by omega, fun {ahead} less => ?_, fun {ahead place' thread'} less found => ?_⟩
  · rw [newcomer_registered]
    exact ((registered_sound sound).2 _).idle (spares.idle (by omega))
  · rw [newcomer_registered]
    by_cases same : place' = place
    · subst same
      cases (List.getElem?_set_self within).symm.trans found
      rw [next]
      exact (newcomer_later (by omega)).symm
    · exact spares.unused (by omega) ((List.getElem?_set_ne (Ne.symm same)).symm.trans found)

theorem acts {heap' : Heap} (spares : Spares account heap jobs) (present : jobs[place]? = some (.begun thread))
    (same : thread'.evaluator = thread.evaluator)
    (fair : Fair graph known thread.evaluator.actor account heap account' heap') :
    Spares account' heap' (jobs.set place (.begun thread')) := by
  obtain ⟨within, here⟩ := List.getElem?_eq_some_iff.mp present
  have counted : (jobs.set place (.begun thread')).countP Job.queues = jobs.countP Job.queues := by
    rw [List.countP_set within, here]
    rfl
  have kept : newcomer heap' = newcomer heap := by
    unfold newcomer
    rw [fair.registry]
  refine ⟨counted ▸ spares.few, ?_, ?_⟩
  · rw [counted, kept]
    exact fun less => (fair.others _ (spares.unused less present).symm).idle (spares.idle less)
  · rw [counted, kept]
    intro ahead place' other less found
    by_cases equal : place' = place
    · subst equal
      cases (List.getElem?_set_self within).symm.trans found
      rw [same]
      exact spares.unused less present
    · exact spares.unused less ((List.getElem?_set_ne (Ne.symm equal)).symm.trans found)

end Spares

namespace System.Stands

/-- One job has changed, and the heap so that the others can bear it. -/
theorem replaces (stands : Stands graph known targets account ⟨world, jobs⟩) (present : jobs[place]? = some job)
    (sound : Sound graph known account' world'.heap)
    (others : ∀ {place' thread}, place' ≠ place → jobs[place']? = some (.begun thread) →
      Minds thread.evaluator.actor account world.heap account' world'.heap)
    (changed : ∀ {target}, targets[place]? = some target → job'.Stands graph known target.1 target.2 account' world')
    (alone : ∀ {place' thread thread'}, place' ≠ place → jobs[place']? = some (.begun thread) → job' = .begun thread' →
      thread.evaluator.actor ≠ thread'.evaluator.actor)
    (spares : Spares account' world'.heap (jobs.set place job')) :
    Stands graph known targets account' ⟨world', jobs.set place job'⟩ := by
  obtain ⟨within, _⟩ := List.getElem?_eq_some_iff.mp present
  have here : (jobs.set place job')[place]? = some job' := List.getElem?_set_self within
  have there : ∀ {place'}, place' ≠ place → (jobs.set place job')[place']? = jobs[place']? :=
    fun other => List.getElem?_set_ne (Ne.symm other)
  refine ⟨sound, (List.length_set ..).trans stands.length, ?_, ?_, spares⟩
  · intro place' other target found aims
    by_cases same : place' = place
    · subst same
      cases here.symm.trans found
      exact changed aims
    · have found : jobs[place']? = some other := (there same).symm.trans found
      have standing := stands.jobs found aims
      cases other with
      | queued _ => exact standing
      | begun thread => exact standing.later sound (others same found)
  · intro place₁ place₂ thread₁ thread₂ found₁ found₂ equal
    by_cases same₁ : place₁ = place
    · by_cases same₂ : place₂ = place
      · exact same₁.trans same₂.symm
      · subst same₁
        rw [here] at found₁
        rw [there same₂] at found₂
        exact absurd equal.symm (alone same₂ found₂ (Option.some.inj found₁))
    · by_cases same₂ : place₂ = place
      · subst same₂
        rw [here] at found₂
        rw [there same₁] at found₁
        exact absurd equal (alone same₁ found₁ (Option.some.inj found₂))
      · rw [there same₁] at found₁
        rw [there same₂] at found₂
        exact stands.apart found₁ found₂ equal

theorem begins (ends : ∀ target ∈ targets, known target.1 ∧ Ends graph (.force (.node target.1), []) target.2)
    (stands : Stands graph known targets account ⟨world, jobs⟩) (present : jobs[place]? = some (.queued root)) :
    Stands graph known targets account ⟨(Job.step host settings world (.queued root)).2,
      jobs.set place (Job.step host settings world (.queued root)).1⟩ := by
  have waits : 0 < jobs.countP Job.queues :=
    List.countP_pos_iff.mpr ⟨.queued root, List.mem_of_getElem? present, rfl⟩
  obtain ⟨sound, minds⟩ := registered_sound stands.sound
  have spares : Spares account world.heap jobs := stands.spares
  refine stands.replaces present sound (fun _ _ => minds _) (fun {target} aims => ?_)
    (fun {place' thread thread'} _ found new => ?_) (spares.begins stands.sound present rfl)
  · obtain rfl : root = target.1 := stands.jobs present aims
    obtain ⟨isKnown, ends⟩ := ends target (List.mem_of_getElem? aims)
    have idle := newcomer_first world.heap ▸ spares.idle waits
    exact fun account' state' later =>
      Standing.later (idle.begins (stands.sound.faithful.known isKnown) ends rfl rfl) later
  · cases new
    exact newcomer_first world.heap ▸ spares.unused waits found

theorem acts (stands : Stands graph known targets account ⟨world, jobs⟩) (present : jobs[place]? = some (.begun thread))
    (fits : (thread.act host world).2.heap.Addressable) :
    ∃ account', Stands graph known targets account'
      ⟨(thread.act host world).2, jobs.set place (.begun (thread.act host world).1)⟩ := by
  obtain ⟨within, here⟩ := List.getElem?_eq_some_iff.mp present
  have aims := List.getElem?_eq_getElem (stands.length ▸ within : place < targets.length)
  have standing : thread.Stands graph known _ account world := stands.jobs present aims
  obtain ⟨account', fair, standing', same⟩ := standing.acts stands.sound fits
  have alone : ∀ {place' thread'}, place' ≠ place → jobs[place']? = some (.begun thread') →
      thread'.evaluator.actor ≠ thread.evaluator.actor := fun other found equal => other (stands.apart found present equal)
  refine ⟨account', stands.replaces present fair.sound (fun other found => fair.others _ (alone other found)) (fun aims' => ?_)
    (fun other found new => ?_) (stands.spares.acts present same fair)⟩
  · cases aims.symm.trans aims'
    exact standing'
  · cases new
    rw [same]
    exact alone other found

theorem step (ends : ∀ target ∈ targets, known target.1 ∧ Ends graph (.force (.node target.1), []) target.2)
    (stands : Stands graph known targets account system) (place : Nat)
    (fits : (system.step host settings place).world.heap.Addressable) :
    ∃ account', Stands graph known targets account' (system.step host settings place) := by
  obtain ⟨world, jobs⟩ := system
  unfold System.step at fits ⊢
  cases present : jobs[place]? with
  | none => exact ⟨account, stands⟩
  | some job =>
    simp only [present] at fits ⊢
    cases job with
    | queued root => exact ⟨account, begins ends stands present⟩
    | begun thread => exact stands.acts present fits

theorem run (ends : ∀ target ∈ targets, known target.1 ∧ Ends graph (.force (.node target.1), []) target.2)
    (stands : Stands graph known targets account system)
    (fits : ∀ early, early <+: schedule → (system.run host settings early).world.heap.Addressable) :
    ∃ account', Stands graph known targets account' (system.run host settings schedule) := by
  induction schedule generalizing system account with
  | nil => exact ⟨account, stands⟩
  | cons place schedule ih =>
    obtain ⟨account', stands'⟩ := step ends stands place (fits [place] (List.prefix_append [place] schedule))
    exact ih stands' fun early isEarly => fits (place :: early) (List.prefix_cons_inj place |>.mpr isEarly)

end System.Stands

def System.fitsAlong (host : Host σ) (settings : EvalSettings) : List Nat → System σ → Bool
  | [], system => decide system.world.heap.Addressable
  | place :: schedule, system =>
    decide system.world.heap.Addressable && fitsAlong host settings schedule (system.step host settings place)

theorem System.fits_of_along (along : System.fitsAlong host settings schedule system) :
    ∀ early, early <+: schedule → (system.run host settings early).world.heap.Addressable := by
  intro early isEarly
  induction schedule generalizing system early with
  | nil =>
    obtain rfl := List.prefix_nil.mp isEarly
    exact of_decide_eq_true along
  | cons place schedule ih =>
    obtain ⟨here, later⟩ := Bool.and_eq_true_iff.mp along
    rcases List.prefix_cons_iff.mp isEarly with rfl | ⟨rest, rfl, isEarlier⟩
    · exact of_decide_eq_true here
    · exact ih later rest isEarlier

end LazyGraph.Parallel

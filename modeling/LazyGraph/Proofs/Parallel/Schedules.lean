import Mathlib.Logic.Relation
import LazyGraph.Proofs.Machine.Landing
import LazyGraph.Proofs.Parallel.Undisturbed

/-! Evaluators that take all their turns one after the other.

An evaluator that nobody disturbs does what a call of the machine does: each transition is a
few of its turns, and after a fault it hands back what the call hands back. So calls that are
made one after the other are a schedule of evaluators at work at the same time. -/

set_option autoImplicit false

namespace LazyGraph.Parallel

open Machine
open Plan hiding bind_assoc

variable {σ α β : Type} {host : Host σ} {evaluator : Evaluator}

/-! ### Turns -/

abbrev Place (σ : Type) : Type 1 := Thread σ × World σ

/-- A thread takes some actions, and nobody else takes any. -/
def Goes (host : Host σ) : Place σ → Place σ → Prop :=
  Relation.ReflTransGen fun here there => there = here.1.act host here.2

/-- A fault has made the evaluator hand back what it holds. -/
def stopped (evaluator : Evaluator) (fault : Fault) (state : State σ) : Place σ :=
  (.ofState evaluator state (.unwinding fault (unwind evaluator fault state.stack.items)), state.world)

/-- Where a computation has led its evaluator, which makes this of the result. -/
def ledTo (evaluator : Evaluator) (into : α → Pace ⊕ Handle) : EStateM.Result Fault (State σ) α → Place σ
  | .ok value state => (.ofState evaluator state (.reducing (.ended (into value))), state.world)
  | .error fault state => stopped evaluator fault state

theorem ledTo_map (evaluator : Evaluator) (into : α → Pace ⊕ Handle) (change : β → α) (action : MachineM σ β) (state : State σ) :
    ledTo evaluator into ((change <$> action) state) = ledTo evaluator (fun value => into (change value)) (action state) := by
  simp only [Functor.map, EStateM.map]
  cases action state <;> rfl

def turned (control : Control) : Pace ⊕ Handle :=
  .inl (.turn control)

theorem ledTo_continuing (evaluator : Evaluator) (action : MachineM σ Control) (state : State σ) :
    ledTo evaluator shown (continuing action state) = ledTo evaluator turned (action state) := by
  cases ended : action state with
  | ok control after =>
    rw [continuing_ok ended]
    rfl
  | error fault after =>
    rw [continuing_error ended]
    rfl

namespace Goes

variable {into : α → Pace ⊕ Handle} {action : MachineM σ β} {next : β → Plan σ (Pace ⊕ Handle)} {state after : State σ}
  {value : β} {fault : Fault}

theorem acts (acted : action state = .ok value after) :
    Goes host (.ofState evaluator state (.reducing (.act action next)), state.world)
      (.ofState evaluator after (.reducing (next value)), after.world) := by
  have moves : (match action state with
      | .ok value after => (.ofState evaluator after (.reducing (next value)), after.world)
      | .error fault after => stopped evaluator fault after) =
      Thread.act host (.ofState evaluator state (.reducing (.act action next))) state.world := rfl
  rw [acted] at moves
  exact .single moves

theorem faults (failed : action state = .error fault after) :
    Goes host (.ofState evaluator state (.reducing (.act action next)), state.world) (stopped evaluator fault after) := by
  have moves : (match action state with
      | .ok value after => (.ofState evaluator after (.reducing (next value)), after.world)
      | .error fault after => stopped evaluator fault after) =
      Thread.act host (.ofState evaluator state (.reducing (.act action next))) state.world := rfl
  rw [failed] at moves
  exact .single moves

theorem reduces (host : Host σ) (evaluator : Evaluator) (into : α → Pace ⊕ Handle) (plan : Plan σ α) (state : State σ) :
    Goes host (.ofState evaluator state (.reducing (plan.bind fun value => .ended (into value))), state.world)
      (ledTo evaluator into (plan.alone state)) := by
  induction plan generalizing state with
  | ended value => exact .refl
  | act action following ih =>
    cases acted : action state with
    | ok value after =>
      rw [Plan.alone, bind_ok acted]
      exact (acts acted).trans (ih value after)
    | error fault after =>
      rw [Plan.alone, bind_error acted]
      exact faults acted

theorem walks {passed : List Handle} {current : Handle} {chain : Chain} (host : Host σ) (evaluator : Evaluator)
    (proper : ∀ {handle slot}, state.world.heap.lookup handle = .ok slot → slot.Proper)
    (unrolls : Unrolls state.world.heap passed current chain) :
    Goes host (ledTo evaluator id (.ok (.inl (.walk passed current)) state))
      (ledTo evaluator turned (demandAt evaluator chain state)) := by
  have onward : ∀ {passed : List Handle} {current : Handle} {result : EStateM.Result Fault (State σ) Pace},
      (walk evaluator passed current).alone state = result →
      Goes host (ledTo evaluator id (.ok (.inl (.walk passed current)) state)) (ledTo evaluator .inl result) := by
    rintro passed current _ rfl
    exact .head rfl (reduces host evaluator .inl (walk evaluator passed current) state)
  induction unrolls with
  | broken missing => exact onward (walk_broken evaluator _ missing)
  | loop found met => exact onward (walk_loop evaluator found met)
  | link found unmet _ ih => exact (onward (walk_link evaluator found unmet)).trans ih
  | @lands passed current slot found solid =>
    have ends := onward (walk_lands evaluator passed found solid (proper found))
    rw [ledTo_map] at ends
    exact ends

theorem begins {control : Control} {next : Unit → Plan σ (Pace ⊕ Handle)} {rest : MachineM σ Progress}
    (goes : ∀ ready : State σ, ready.stack = state.stack → ready.world.heap = state.world.heap →
      Goes host (.ofState evaluator ready (.reducing (next ())), ready.world) (ledTo evaluator shown (rest ready))) :
    Goes host (.ofState evaluator state (.reducing (.act (do tick evaluator; trace evaluator control) next)), state.world)
      (ledTo evaluator shown ((do tick evaluator; trace evaluator control; rest) state)) := by
  have reached := tick_state evaluator state
  cases ticked : tick evaluator state with
  | error fault refused =>
    rw [bind_error ticked]
    exact faults (bind_error ticked)
  | ok _ granted =>
    rw [ticked] at reached
    have reached : granted = begun state := reached
    subst reached
    obtain ⟨ready, traced, stack, heap⟩ := trace_state evaluator control (begun state)
    rw [bind_ok ticked, bind_ok traced]
    exact (acts ((bind_ok ticked).trans traced)).trans (goes ready stack heap)

theorem looksAgain {links : List Handle} (host : Host σ) (evaluator : Evaluator) (node : Handle)
    (proper : ∀ {handle slot}, state.world.heap.lookup handle = .ok slot → slot.Proper)
    (live : ∀ link ∈ links, state.world.heap.Live link) :
    Goes host (ledTo evaluator id (.ok (.inl (.turn (.await links node))) state))
      (ledTo evaluator turned (Machine.resumeWait evaluator links node state)) := by
  have onward : Goes host (ledTo evaluator id (.ok (.inl (.turn (.await links node))) state))
      (ledTo evaluator .inl ((resumeWait evaluator links node).alone state)) :=
    .head rfl (reduces host evaluator .inl (resumeWait evaluator links node) state)
  rcases resumeWait_cases evaluator links node state with ⟨fault, alone, machine⟩ | ⟨after, alone, machine⟩ |
    ⟨after, alone, machine, entries⟩
  · rw [machine]
    rw [alone] at onward
    exact onward
  · rw [machine]
    rw [alone] at onward
    exact onward
  · have same : ∀ handle, after.world.heap.lookup handle = state.world.heap.lookup handle := Heap.lookup_congr entries
    have unrolls := unrolls_followOn (fun link member => (live link member).imp fun slot found => (same link).trans found) node
    rw [machine, demandFrom_eq]
    rw [alone] at onward
    exact onward.trans (walks host evaluator (fun found => proper ((same _).symm.trans found)) unrolls)

/-- One transition of the machine is what the evaluator makes of it. -/
theorem iterates {control : Control} (host : Host σ) (evaluator : Evaluator)
    (proper : ∀ {handle slot}, state.world.heap.lookup handle = .ok slot → slot.Proper)
    (sound : control.Sound state.world.heap) :
    Goes host (ledTo evaluator id (.ok (turned control) state))
      (ledTo evaluator shown (iterate host evaluator control state)) := by
  cases control with
  | await links node =>
    have looks := looksAgain host evaluator node proper fun link member => (sound link member).live
    rw [← ledTo_continuing] at looks
    exact looks
  | eval expr env =>
    refine .head rfl (begins fun ready stack heap => ?_)
    have evaluates := reduces host evaluator turned (eval host evaluator expr env) ready
    rw [alone_eval, ← ledTo_continuing] at evaluates
    exact evaluates
  | force handle =>
    refine .head rfl (begins fun ready stack heap => ?_)
    have walked := walks host evaluator (heap ▸ proper) (unrolls_followOn (List.forall_mem_nil _) handle)
    rw [← demandFrom_eq, ← ledTo_continuing] at walked
    exact walked
  | deliver whnf =>
    refine .head rfl (begins fun ready stack heap => ?_)
    have finishes := reduces host evaluator id (finish host evaluator whnf) ready
    rw [alone_finish, ledTo_map] at finishes
    exact bind_ended (finish host evaluator whnf) ▸ finishes

end Goes

/-! ### Unwinding -/

theorem release_endWait (node : Handle) (actor other : Actor) (heap : Heap) :
    Heap.release node actor (heap.endWait other) = match Heap.release node actor heap with
      | .ok released heap => .ok released (heap.endWait other)
      | .error fault heap => .error fault (heap.endWait other) := by
  have same : (heap.endWait other).lookup node = heap.lookup node := Heap.lookup_congr rfl node
  have changes : Heap.transition node (Slot.release actor) (heap.endWait other) =
      match Heap.transition node (Slot.release actor) heap with
      | .ok released heap => .ok released (heap.endWait other)
      | .error fault heap => .error fault (heap.endWait other) := by
    simp only [Heap.transition, same]
    cases heap.lookup node with
    | error fault => rfl
    | ok slot =>
      simp only
      cases slot.release actor <;> rfl
  cases changed : Heap.transition node (Slot.release actor) heap with
  | ok released after =>
    rw [changed] at changes
    have here : Heap.release node actor heap = .ok released after.notify := bind_ok changed
    have there : Heap.release node actor (heap.endWait other) = .ok released (after.endWait other).notify := bind_ok changes
    rw [here, there]
    rfl
  | error fault after =>
    rw [changed] at changes
    have here : Heap.release node actor heap = .error fault after := bind_error changed
    have there : Heap.release node actor (heap.endWait other) = .error fault (after.endWait other) := bind_error changes
    rw [here, there]

/-- It makes no difference whether the wait is withdrawn before the thunks are handed back or after. -/
theorem releaseAll_endWait (actor other : Actor) (frames : List Frame) (released : Nat) (heap : Heap) :
    Machine.releaseAll actor frames released (heap.endWait other) =
      ((Machine.releaseAll actor frames released heap).1, (Machine.releaseAll actor frames released heap).2.endWait other) := by
  induction frames generalizing released heap with
  | nil => rfl
  | cons frame frames ih =>
    cases frame with
    | update node =>
      simp only [Machine.releaseAll, release_endWait]
      cases Heap.release node actor heap with
      | ok done heap => cases done <;> exact ih _ heap
      | error fault heap => exact ih _ heap
    | _ => exact ih released heap

theorem alone_releaseAll (actor : Actor) (frames : List Frame) (released : Nat) (state : State σ) :
    (releaseAll actor frames released).alone state =
      .ok (Machine.releaseAll actor frames released state.world.heap).1 { state with world := { state.world with
        heap := (Machine.releaseAll actor frames released state.world.heap).2 } } := by
  induction frames generalizing released state with
  | nil => rfl
  | cons frame frames ih =>
    cases frame with
    | update node =>
      simp only [releaseAll, Machine.releaseAll, alone_bind, alone_once]
      cases done : Heap.release node actor state.world.heap with
      | ok won heap =>
        have went : (tryCatch (onHeap (Heap.release node actor)) fun _ => pure false : MachineM σ Bool) state =
            .ok won { state with world := { state.world with heap := heap } } := by
          show EStateM.tryCatch (onHeap (Heap.release node actor)) (fun _ => pure false) state = _
          rw [EStateM.tryCatch, onHeap_ok done]
        rw [bind_ok went, ih]
        cases won <;> rfl
      | error fault heap =>
        have went : (tryCatch (onHeap (Heap.release node actor)) fun _ => pure false : MachineM σ Bool) state =
            .ok false { state with world := { state.world with heap := heap } } := by
          show EStateM.tryCatch (onHeap (Heap.release node actor)) (fun _ => pure false) state = _
          rw [EStateM.tryCatch, onHeap_error done]
          rfl
        rw [bind_ok went, ih]
        rfl
    | _ => exact ih released state

theorem alone_unwind (evaluator : Evaluator) (fault : Fault) (state : State σ) :
    (unwind evaluator fault state.stack.items).alone state = .ok () (Machine.unwind evaluator fault state) := by
  let calm : State σ := { state with world := { state.world with heap := state.world.heap.endWait evaluator.actor } }
  have ended : (modifyWorld fun world => { world with heap := world.heap.endWait evaluator.actor }) state = .ok () calm := rfl
  simp only [unwind, alone_bind, alone_once]
  rw [bind_ok ended, bind_ok (alone_releaseAll evaluator.actor state.stack.items 0 calm)]
  have released := releaseAll_endWait evaluator.actor evaluator.actor state.stack.items 0 state.world.heap
  simp only [Machine.unwind]
  show EStateM.Result.ok () _ = _
  simp only [calm, released]

namespace Goes

variable {state after : State σ} {fault : Fault} {control next : Control}

theorem onward (proper : ∀ {handle slot}, state.world.heap.lookup handle = .ok slot → slot.Proper)
    (sound : control.Sound state.world.heap) (stepped : iterate host evaluator control state = .ok (.continues next) after) :
    Goes host (ledTo evaluator turned (.ok control state)) (ledTo evaluator turned (.ok next after)) := by
  have goes := iterates host evaluator proper sound
  rw [stepped] at goes
  exact goes

/-- The plan of an evaluator that has met a fault is carried out to its end. -/
theorem hands (plan : Plan σ Unit) (ended : plan.alone state = .ok () after) :
    Goes host (.ofState evaluator state (.unwinding fault plan), state.world)
      (.ofState evaluator after (.ended (.error fault)), after.world) := by
  induction plan generalizing state with
  | ended value =>
    cases ended
    exact .single rfl
  | act action next ih =>
    have moves : (match action state with
        | .ok value after => (.ofState evaluator after (.unwinding fault (next value)), after.world)
        | .error _ after => (.ofState evaluator after (.ended (.error fault)), after.world)) =
        Thread.act host (.ofState evaluator state (.unwinding fault (.act action next))) state.world := rfl
    cases acted : action state with
    | ok value middle =>
      rw [acted] at moves
      rw [Plan.alone, bind_ok acted] at ended
      exact .head moves (ih value ended)
    | error other middle =>
      rw [Plan.alone, bind_error acted] at ended
      cases ended

/-- What the machine leaves after a fault is what the evaluator leaves. -/
theorem unwinds (fault : Fault) (state : State σ) :
    Goes host (stopped evaluator fault state)
      (.ofState evaluator (Machine.unwind evaluator fault state) (.ended (.error fault)),
        (Machine.unwind evaluator fault state).world) :=
  hands _ (alone_unwind evaluator fault state)

theorem fails (proper : ∀ {handle slot}, state.world.heap.lookup handle = .ok slot → slot.Proper)
    (sound : control.Sound state.world.heap) (stepped : iterate host evaluator control state = .error fault after) :
    Goes host (ledTo evaluator turned (.ok control state)) (.ofState evaluator (Machine.unwind evaluator fault after)
      (.ended (.error fault)), (Machine.unwind evaluator fault after).world) := by
  have goes := iterates host evaluator proper sound
  rw [stepped] at goes
  exact goes.trans (unwinds fault after)

variable {reached : State σ} {root : Handle}

/-- What the machine's next transition leads to, the evaluator comes to. -/
theorem transition {count : Nat} (keeps : host.KeepsTo Heap.Advances)
    (regular : state.world.heap.Regular) (idle : state.stack.items = [])
    (standing : Machine.iterations host evaluator (.force root) (begin evaluator state) count = some (control, reached))
    (fits : reached.world.heap.Addressable) :
    Goes host (ledTo evaluator turned (.ok control reached)) (ledTo evaluator shown (iterate host evaluator control reached)) := by
  have poised := iterations_poised keeps regular (.begin regular idle root) standing fits
  exact iterates host evaluator (poised.settles.regular regular).proper poised.sound

theorem iterations {count : Nat} (keeps : host.KeepsTo Heap.Advances)
    (regular : state.world.heap.Regular) (idle : state.stack.items = [])
    (standing : Machine.iterations host evaluator (.force root) (begin evaluator state) count = some (control, reached))
    (fits : reached.world.heap.Addressable) :
    Goes host (ledTo evaluator turned (.ok (.force root) (begin evaluator state))) (ledTo evaluator turned (.ok control reached)) := by
  induction count generalizing control reached with
  | zero =>
    cases standing
    exact .refl
  | succ count ih =>
    obtain ⟨control', before, earlier, stepped⟩ := iterations_succ standing
    have grows := iterate_grows keeps evaluator control' before
    rw [stepped] at grows
    have fits' := fits.mono grows
    have goes := transition keeps regular idle earlier fits'
    rw [stepped] at goes
    exact (ih earlier fits').trans goes

/-- A call of the machine is what an evaluator does when nobody else acts. -/
theorem force (keeps : host.KeepsTo Heap.Advances) (regular : state.world.heap.Regular) (idle : state.stack.items = [])
    {fuel : Nat} {result : Except Fault Handle} (ended : Machine.force host evaluator fuel root state = some (result, after))
    (fits : after.world.heap.Addressable) :
    Goes host (ledTo evaluator turned (.ok (.force root) (begin evaluator state)))
      (.ofState evaluator after (.ended result), after.world) := by
  obtain ⟨count, control, reached, standing, ends⟩ := force_ends ended
  have grows := iterate_grows keeps evaluator control reached
  have goes : (iterate host evaluator control reached).state.world.heap.Addressable →
      Goes host (ledTo evaluator turned (.ok (.force root) (begin evaluator state)))
        (ledTo evaluator shown (iterate host evaluator control reached)) := fun fits =>
    (iterations keeps regular idle standing (fits.mono grows)).trans
      (transition keeps regular idle standing (fits.mono grows))
  rcases ends with ⟨handle, rfl, finished⟩ | ⟨fault, raised, rfl, failed, rfl⟩
  · rw [finished] at goes
    exact (goes fits).tail rfl
  · rw [failed] at goes
    have same := unwind_capacity evaluator fault raised
    exact (goes (fits.mono (Nat.le_of_eq same.symm))).trans (unwinds fault raised)

end Goes

/-! ### Schedules -/

variable {settings : EvalSettings} {fuel : Nat} {world world' last : World σ} {jobs : List (Job σ)} {place : Nat}
  {thread thread' : Thread σ} {roots : List Handle} {outcomes : List (Except Fault Handle)}

theorem System.step_begun (found : jobs[place]? = some (.begun thread)) :
    System.step host settings ⟨world, jobs⟩ place =
      ⟨(thread.act host world).2, jobs.set place (.begun (thread.act host world).1)⟩ := by
  simp only [System.step, found, Job.step]

/-- With the schedule all its own, a thread does what it does alone. -/
theorem System.run_goes (settings : EvalSettings) (found : jobs[place]? = some (.begun thread))
    (goes : Goes host (thread, world) (thread', world')) :
    ∃ turns, System.run host settings (.replicate turns place) ⟨world, jobs⟩ = ⟨world', jobs.set place (.begun thread')⟩ := by
  obtain ⟨within, held⟩ := List.getElem?_eq_some_iff.mp found
  have along : ∀ {there : Place σ}, Goes host (thread, world) there →
      ∃ turns, System.run host settings (.replicate turns place) ⟨world, jobs⟩ = ⟨there.2, jobs.set place (.begun there.1)⟩ := by
    intro there goes
    induction goes with
    | refl => exact ⟨0, by rw [← held, List.set_getElem_self]; rfl⟩
    | @tail here there _ moves ih =>
      obtain ⟨turns, ran⟩ := ih
      cases moves
      have begun : (jobs.set place (.begun here.1))[place]? = some (.begun here.1) := List.getElem?_set_self within
      refine ⟨turns + 1, ?_⟩
      rw [List.replicate_succ', System.run, List.foldl_append]
      show System.step host settings (System.run host settings _ _) place = _
      rw [ran, System.step_begun begun, List.set_set]
  exact along goes

/-- A job that is yet to begin does so, and goes on with the schedule all its own. -/
theorem System.run_begins {root : Handle} (settings : EvalSettings) (queued : jobs[place]? = some (.queued root))
    (goes : Goes host (ledTo (start world settings none).1 turned (.ok (.force root) (begin (start world settings none).1
      (start world settings none).2))) (thread', world')) :
    ∃ turns, System.run host settings (.replicate turns place) ⟨world, jobs⟩ = ⟨world', jobs.set place (.begun thread')⟩ := by
  obtain ⟨within, _⟩ := List.getElem?_eq_some_iff.mp queued
  let evaluator := (start world settings none).1
  let ready := ledTo evaluator turned (.ok (.force root) (begin evaluator (start world settings none).2))
  have started : System.step host settings ⟨world, jobs⟩ place = ⟨ready.2, jobs.set place (.begun ready.1)⟩ := by
    simp only [System.step, queued, Job.step]
    rfl
  have begun : (jobs.set place (.begun ready.1))[place]? = some (.begun ready.1) := List.getElem?_set_self within
  obtain ⟨turns, ran⟩ := System.run_goes settings begun goes
  refine ⟨turns + 1, ?_⟩
  rw [List.replicate_succ, System.run, List.foldl_cons, started]
  exact ran.trans (congrArg (System.mk world') (List.set_set ..))

/-- A job goes on until its evaluator has ended. -/
theorem System.run_forces (settings : EvalSettings) (ended jobs : List (Job σ)) (keeps : host.KeepsTo Heap.Advances)
    (regular : world.heap.Regular) {root : Handle} {outcome : Except Fault Handle} {after : State σ}
    (forced : force host (start world settings none).1 fuel root (start world settings none).2 = some (outcome, after))
    (fits : after.world.heap.Addressable) :
    ∃ turns thread, System.run host settings (.replicate turns ended.length) ⟨world, ended ++ .queued root :: jobs⟩ =
        ⟨after.world, ended ++ .begun thread :: jobs⟩ ∧ Job.outcome? (.begun thread) = some outcome := by
  have queued : (ended ++ .queued root :: jobs)[ended.length]? = some (.queued root) := by simp
  have begins : world.heap.Settles (start world settings none).2.world.heap := .of_entries regular.free rfl rfl
  obtain ⟨turns, ran⟩ := System.run_begins settings queued (Goes.force keeps (begins.regular regular) rfl forced fits)
  refine ⟨turns, .ofState (start world settings none).1 after (.ended outcome), ran.trans ?_, rfl⟩
  simp

theorem forceEach_grows (keeps : host.KeepsTo Heap.Advances)
    (inTurn : forceEach host settings fuel roots world = some (outcomes, last)) :
    world.heap.capacity ≤ last.heap.capacity := by
  induction roots generalizing world outcomes with
  | nil =>
    cases inTurn
    exact Nat.le_refl _
  | cons root roots ih =>
    obtain ⟨outcome, after, others, rfl, forced, rest⟩ := forceEach_cons inTurn
    have grows : world.heap.capacity ≤ after.world.heap.capacity := (force_advances keeps rfl forced).grows
    exact Nat.le_trans grows (ih rest)

/-- The jobs that have ended are left alone while the others take their turns. -/
theorem forceEach_scheduled (keeps : host.KeepsTo Heap.Advances) (ended : List (Job σ)) (regular : world.heap.Regular)
    (inTurn : forceEach host settings fuel roots world = some (outcomes, last)) (fits : last.heap.Addressable) :
    ∃ schedule jobs, System.run host settings schedule ⟨world, ended ++ roots.map .queued⟩ = ⟨last, ended ++ jobs⟩ ∧
      jobs.map Job.outcome? = outcomes.map some ∧ schedule.Pairwise (· ≤ ·) ∧ ∀ place ∈ schedule, ended.length ≤ place := by
  induction roots generalizing world outcomes ended with
  | nil =>
    cases inTurn
    exact ⟨[], [], rfl, rfl, .nil, by simp⟩
  | cons root roots ih =>
    obtain ⟨outcome, after, others, rfl, forced, rest⟩ := forceEach_cons inTurn
    have begins : world.heap.Settles (start world settings none).2.world.heap := .of_entries regular.free rfl rfl
    have fits' : after.world.heap.Addressable := fits.mono (forceEach_grows keeps rest)
    have settles := begins.trans ((force_advances keeps rfl forced).settles fits' (begins.regular regular))
    obtain ⟨turns, thread, ran, shows⟩ := System.run_forces settings ended (roots.map .queued) keeps regular forced fits'
    obtain ⟨schedule, jobs, later, same, ordered, behind⟩ := ih (ended ++ [.begun thread]) (settles.regular regular) rest
    have onward : ∀ place ∈ schedule, ended.length ≤ place := fun place member =>
      Nat.le_trans (by simp) (behind place member)
    refine ⟨.replicate turns ended.length ++ schedule, .begun thread :: jobs, ?_, ?_, ?_, ?_⟩
    · rw [List.append_assoc, List.append_assoc] at later
      rw [System.run, List.foldl_append]
      exact (congrArg (System.run host settings schedule) ran).trans later
    · rw [List.map_cons, List.map_cons, shows, same]
    · refine List.pairwise_append.mpr ⟨List.pairwise_replicate.mpr (.inr (Nat.le_refl _)), ordered, ?_⟩
      intro place member other there
      rw [List.eq_of_mem_replicate member]
      exact onward other there
    · intro place member
      rcases List.mem_append.mp member with here | there
      · exact Nat.le_of_eq (List.eq_of_mem_replicate here).symm
      · exact onward place there

/-- To force the roots one after the other is one of the ways in which evaluators at work at the
same time can take turns. -/
theorem forceEach_schedule (keeps : host.KeepsTo Heap.Advances) (regular : world.heap.Regular)
    (inTurn : forceEach host settings fuel roots world = some (outcomes, last)) (fits : last.heap.Addressable) :
    ∃ schedule jobs, schedule.Pairwise (· ≤ ·) ∧ (System.launch roots world).run host settings schedule = ⟨last, jobs⟩ ∧
      jobs.map Job.outcome? = outcomes.map some := by
  obtain ⟨schedule, jobs, ran, same, ordered, _⟩ := forceEach_scheduled keeps [] regular inTurn fits
  exact ⟨schedule, jobs, ordered, ran, same⟩

end LazyGraph.Parallel

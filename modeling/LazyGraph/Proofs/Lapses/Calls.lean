import Mathlib.Logic.Relation
import LazyGraph.Proofs.Lapses.Alone
import LazyGraph.Proofs.Lapses.Runs
import LazyGraph.Proofs.Machine.Landing

/-! The machine's own calls.

With nobody else about, what the machine makes of a call is what one of the runs makes of it.
A host function counts among the others: what it does to the heap is something that they
could do. -/

set_option autoImplicit false

namespace LazyGraph

open Lapses

/-- What a function does to the heap others could do between two completions of theirs. -/
def Host.Plays {σ : Type} (actor : Actor) (host : Host σ) : Prop :=
  ∀ fn operands world, Relation.ReflTransGen (Surroundings.Move actor) ⟨world.heap, fun _ => .idle, []⟩
    ⟨(host.call fn operands world).state.heap, fun _ => .idle, []⟩

namespace Lapses

open Machine Parallel

variable {σ α β : Type} {host : Host σ} {evaluator : Evaluator} {desk : Desk σ} {start : Scene σ}

def Scene.solo (desk : Desk σ) (activity : Activity σ) : Scene σ :=
  ⟨desk, activity, fun _ => .idle, []⟩

theorem Run.moves {scene : Scene σ} {there : Surroundings} (run : Run evaluator start scene)
    (moves : Relation.ReflTransGen (Surroundings.Move evaluator.actor) scene.surroundings there) :
    Run evaluator start ⟨{ scene.desk with world := { scene.desk.world with heap := there.heap } }, scene.activity,
      there.phase, there.pledged⟩ := by
  induction moves with
  | refl => exact run
  | @tail middle last _ move ih =>
    let world := { scene.desk.world with heap := last.heap }
    exact ih.step (@Step.others _ _ _ world _ _ move)

theorem Run.aside {activity : Activity σ} (run : Run evaluator start (.solo desk activity)) {world : World σ}
    (heap : world.heap = desk.world.heap) : Run evaluator start (.solo { desk with world := world } activity) :=
  run.step (@Step.others _ _ _ world _ _ (.aside (congrArg Heap.entries heap) (congrArg Heap.free heap)))

theorem Run.asks (plays : host.Plays evaluator.actor) {activity : Activity σ} (run : Run evaluator start (.solo desk activity))
    (fn : HostFn) (operands : List Node) :
    Run evaluator start (.solo { desk with world := (host.call fn operands desk.world).state } activity) :=
  (run.moves (plays fn operands desk.world)).aside rfl

/-- The run has come where the machine has come, and goes on from there. -/
def Arrives (evaluator : Evaluator) (start : Scene σ) (next : α → Script σ (Pace ⊕ Handle)) :
    EStateM.Result Fault (State σ) α → Prop
  | .ok value state => ∃ desk : Desk σ, desk.state = state ∧ desk.Legible ∧ Run evaluator start (.solo desk (.working (next value)))
  | .error fault state => ∃ desk : Desk σ, desk.state = state ∧ Run evaluator start (.solo desk (.failed fault))

theorem ComesTo.arrives (plays : host.Plays evaluator.actor) {script : Script σ α} {next : α → Script σ (Pace ⊕ Handle)}
    {result : EStateM.Result Fault (State σ) α} (comes : ComesTo host script desk result)
    (run : Run evaluator start (.solo desk (.working (script >>= next)))) : Arrives evaluator start next result := by
  induction script generalizing desk with
  | ended value =>
    obtain ⟨rfl, legible⟩ := comes
    exact ⟨desk, rfl, legible, run⟩
  | act action rest ih =>
    simp only [ComesTo] at comes
    split at comes
    · rename_i ended
      exact ih _ comes (run.step (.act ended))
    · rename_i ended
      subst comes
      exact ⟨_, rfl, run.step (.fail ended)⟩
  | ask fn operands rest ih =>
    have asked := run.asks plays fn operands
    simp only [ComesTo] at comes
    split at comes
    · rename_i node world answered
      rw [answered] at asked
      exact ih node comes (asked.step (.answer node))
    · rename_i fault world refused
      rw [refused] at asked
      subst comes
      exact ⟨_, rfl, asked.step (.refuse fault)⟩
  | lapse branch => exact comes.elim

theorem Arrives.map {action : MachineM σ β} {into : β → α} {next : α → Script σ (Pace ⊕ Handle)} {state : State σ}
    (arrives : Arrives evaluator start next ((do return into (← action)) state)) :
    Arrives evaluator start (fun value => next (into value)) (action state) := by
  cases ended : action state with
  | ok value after =>
    rw [bind_ok ended] at arrives
    exact arrives
  | error fault after =>
    rw [bind_error ended] at arrives
    exact arrives

def goingOn (control : Control) : Script σ (Pace ⊕ Handle) :=
  .ended (.inl (.turn control))

/-! ### Chains -/

/-- The chain is walked to its end, where the evaluator does what the machine does. -/
theorem Run.walks (plays : host.Plays evaluator.actor) {heap : Heap} {passed : List Handle} {current : Handle} {chain : Chain}
    (proper : ∀ {handle slot}, heap.lookup handle = .ok slot → slot.Proper) (same : desk.world.heap = heap)
    (unrolls : Unrolls heap passed current chain) (legible : desk.Legible)
    (run : Run evaluator start (.solo desk (.working (.ended (.inl (.walk passed current)))))) :
    Arrives evaluator start goingOn (demandAt evaluator chain desk.state) := by
  have reads : ∀ {desk : Desk σ} {handle : Handle} {outcome : Except Fault Node}, desk.world.heap = heap →
      heap.node handle = outcome →
      (do settle ((← getHeap).node handle) : MachineM σ Node) desk.state = settle outcome desk.state := by
    rintro desk handle outcome rfl rfl
    rfl
  induction unrolls generalizing desk with
  | @broken passed current fault missing =>
    have absent : heap.node current = .error fault := by simp [Heap.node, missing, Except.map]
    have stops : ComesTo host (walk evaluator passed current) desk (.error fault desk.state) :=
      ComesTo.refused (reads same absent)
    exact stops.arrives plays (run.step .turn)
  | @loop passed current target _ found met =>
    have linked : heap.node current = .ok (.indirection target) := by simp [Heap.node, found, Except.map]
    have stops : ComesTo host (walk evaluator passed current) desk (.error (.nonTermination current) desk.state) := by
      refine ComesTo.looked (reads same linked) ?_
      show ComesTo host (if current ∈ passed then _ else _) desk _
      rw [if_pos met]
      exact ComesTo.settle (.error _) legible
    exact stops.arrives plays (run.step .turn)
  | @link passed current target _ chain found unmet _ ih =>
    have linked : heap.node current = .ok (.indirection target) := by simp [Heap.node, found, Except.map]
    have steps : ComesTo host (walk evaluator passed current) desk (.ok (.walk (current :: passed) target) desk.state) := by
      refine ComesTo.looked (reads same linked) ?_
      show ComesTo host (if current ∈ passed then _ else _) desk _
      rw [if_neg unmet]
      exact ⟨rfl, legible⟩
    obtain ⟨after, state, legible, run⟩ := steps.arrives plays (run.step .turn)
    have heap : after.world.heap = desk.world.heap := congrArg (fun state : State σ => state.world.heap) state
    exact state ▸ ih (heap.trans same) legible run
  | @lands passed current slot found solid =>
    have ends : ComesTo host (walk evaluator passed current) desk _ :=
      ComesTo.walk_solid (same ▸ found) solid (proper found) legible
    exact (ends.arrives plays (run.step .turn)).map

/-! ### Transitions -/

/-- What the run shows when the machine has made progress. -/
def showing : Progress → Script σ (Pace ⊕ Handle)
  | .continues control => goingOn control
  | .finished handle => .ended (.inr handle)

theorem Arrives.continuing {action : MachineM σ Control} {state : State σ}
    (arrives : Arrives evaluator start goingOn (action state)) :
    Arrives evaluator start showing (Machine.continuing action state) := by
  cases ended : action state with
  | ok control after =>
    rw [continuing_ok ended]
    rw [ended] at arrives
    exact arrives
  | error fault after =>
    rw [continuing_error ended]
    rw [ended] at arrives
    exact arrives

theorem Run.begins {control : Control} {next : Unit → Script σ (Pace ⊕ Handle)} {action : MachineM σ Progress}
    (run : Run evaluator start (.solo desk (.working (.act (beside do tick evaluator; trace evaluator control) next))))
    (rest : ∀ ready : Desk σ, ready.records = desk.records → ready.world.heap = desk.world.heap →
      Run evaluator start (.solo ready (.working (next ()))) → Arrives evaluator start showing (action ready.state)) :
    Arrives evaluator start showing ((do tick evaluator; trace evaluator control; action) desk.state) := by
  have reached := tick_state evaluator desk.state
  cases ticked : tick evaluator desk.state with
  | error fault after =>
    rw [ticked] at reached
    subst reached
    have stopped : beside (do tick evaluator; trace evaluator control) desk = .error fault (desk.refresh (begun desk.state)) := by
      simp only [beside, bind_error ticked]
    rw [bind_error ticked]
    exact ⟨_, rfl, run.step (.fail stopped)⟩
  | ok _ after =>
    rw [ticked] at reached
    subst reached
    obtain ⟨events, traced⟩ := trace_ok evaluator control (begun desk.state)
    let ready : Desk σ := desk.refresh { begun desk.state with world := { (begun desk.state).world with events := events } }
    have both : (do tick evaluator; trace evaluator control) desk.state = .ok () ready.state := (bind_ok ticked).trans traced
    have went : beside (do tick evaluator; trace evaluator control) desk = .ok () ready := by
      simp only [beside, both]
      rfl
    rw [bind_ok ticked, bind_ok traced]
    exact rest ready rfl rfl (run.step (.act went))

/-- With the links of its wait live, the evaluator looks again as the machine does. -/
theorem Run.looksAgain (plays : host.Plays evaluator.actor) {links : List Handle} {node : Handle}
    (proper : ∀ {handle slot}, desk.world.heap.lookup handle = .ok slot → slot.Proper)
    (live : ∀ link ∈ links, desk.world.heap.Live link) (legible : desk.Legible)
    (run : Run evaluator start (.solo desk (.working (goingOn (.await links node))))) :
    Arrives evaluator start goingOn (Machine.resumeWait evaluator links node desk.state) := by
  have looks : ComesTo host (Script.ofPlan (Parallel.resumeWait evaluator links node)) desk
      ((Parallel.resumeWait evaluator links node).alone desk.state) := .ofPlan (.resumeWait evaluator links node) legible
  have arrives : Arrives evaluator start (fun pace => .ended (.inl pace))
      ((Parallel.resumeWait evaluator links node).alone desk.state) := looks.arrives plays (run.step .turn)
  rcases resumeWait_cases evaluator links node desk.state with ⟨fault, alone, machine⟩ | ⟨after, alone, machine⟩ |
    ⟨after, alone, machine, entries⟩
  · rw [machine]
    rw [alone] at arrives
    exact arrives
  · rw [machine]
    rw [alone] at arrives
    exact arrives
  · rw [alone] at arrives
    obtain ⟨there, rfl, legible, run⟩ := arrives
    have same : ∀ handle, there.world.heap.lookup handle = desk.world.heap.lookup handle := Heap.lookup_congr entries
    have unrolls := unrolls_followOn (fun link member => (live link member).imp fun slot found => (same link).trans found) node
    rw [machine, demandFrom_eq]
    exact run.walks plays (fun found => proper ((same _).symm.trans found)) rfl unrolls legible

theorem Run.finishes (plays : host.Plays evaluator.actor) {whnf : Whnf} {spot : Spot} (legible : desk.Legible)
    (fits : Fits evaluator.actor (.deliver whnf) spot) (records : spot.records = desk.records)
    (heap : spot.heap = desk.world.heap)
    (run : Run evaluator start (.solo desk (.working (finish evaluator whnf)))) :
    Arrives evaluator start showing (Machine.finish host evaluator whnf desk.state) := by
  cases top : desk.records with
  | nil =>
    have popped : Desk.pop desk = .ok none desk := by simp only [Desk.pop, top]
    have empty : desk.state.stack.pop? = none := Stack.pop?_eq_none.mpr (by simp [Desk.state, top])
    obtain ⟨place, node⟩ := whnf
    cases place with
    | some handle =>
      unfold Machine.finish
      rw [bind_ok (rfl : (get : MachineM σ (State σ)) desk.state = .ok desk.state desk.state), empty]
      exact ⟨desk, rfl, legible, run.step (.act popped)⟩
    | none =>
      obtain ⟨_, ready⟩ := fits
      have grounded := ready.shape
      rw [records, top] at grounded
      cases grounded
  | cons record rest =>
    let below : Desk σ := { desk with records := rest }
    have popped : Desk.pop desk = .ok (some record) below := by simp only [Desk.pop, top, below]
    obtain ⟨known, legible'⟩ := List.forall_mem_cons.mp (top ▸ legible : ∀ other ∈ record :: rest, other.frame?.isSome)
    obtain ⟨frame, framed⟩ := Option.isSome_iff_exists.mp known
    have items : desk.state.stack.items = frame :: below.state.stack.items := by
      show desk.records.filterMap Record.frame? = frame :: rest.filterMap Record.frame?
      rw [top, List.filterMap_cons_some framed]
    obtain ⟨stack, pops, same⟩ := Stack.pop?_of_items items
    cases Stack.ext same
    let beneath : Spot := { spot with records := rest }
    have fits : Fits evaluator.actor (.deliver whnf) { beneath with records := record :: rest } := by
      have whole : { beneath with records := record :: rest } = spot := by rw [← top, ← records]
      exact whole.symm ▸ fits
    have resumes : ComesTo host (Lapses.resume evaluator record whnf) below
        (Machine.resume host evaluator frame whnf below.state) :=
      ComesTo.resume fits heap framed legible'
    have arrives : Arrives evaluator start goingOn (Machine.resume host evaluator frame whnf below.state) :=
      resumes.arrives plays (run.step (.act popped))
    rw [finish_pops host evaluator whnf pops]
    exact arrives.continuing

theorem Desk.Legible.of_records {other : Desk σ} (legible : desk.Legible) (records : other.records = desk.records) :
    other.Legible :=
  fun record member => legible record (records ▸ member)

theorem Scene.Keeps.fits {control : Control} (keeps : (Scene.solo desk (.working (goingOn control))).Keeps evaluator) :
    ∃ spot, Fits evaluator.actor control spot ∧ spot.records = desk.records ∧ spot.heap = desk.world.heap := by
  obtain ⟨own, mine, orderly, meets⟩ := keeps
  exact ⟨_, meets _ (.refl orderly), rfl, rfl⟩

theorem Run.evaluates (plays : host.Plays evaluator.actor) {expr : Expr} {env : Env} (legible : desk.Legible)
    (run : Run evaluator start (.solo desk (.working (goingOn (.eval expr env))))) :
    Arrives evaluator start showing (iterate host evaluator (.eval expr env) desk.state) := by
  refine Run.begins (run.step .turn) fun ready records heap run => ?_
  have legible := legible.of_records records
  have comes : ComesTo host (Lapses.eval evaluator expr env) ready _ := ComesTo.eval expr env legible
  have arrives : Arrives evaluator start goingOn (Machine.eval host evaluator expr env ready.state) :=
    comes.arrives plays run
  exact arrives.continuing

theorem Run.iterates (plays : host.Plays evaluator.actor) {control : Control}
    (proper : ∀ {handle slot}, desk.world.heap.lookup handle = .ok slot → slot.Proper)
    (sound : control.Sound desk.world.heap) (keeps : (Scene.solo desk (.working (goingOn control))).Keeps evaluator)
    (legible : desk.Legible) (run : Run evaluator start (.solo desk (.working (goingOn control)))) :
    Arrives evaluator start showing (iterate host evaluator control desk.state) := by
  cases control with
  | await links node =>
    have live : ∀ link ∈ links, desk.world.heap.Live link := fun link member => (sound link member).live
    exact (run.looksAgain plays proper live legible).continuing
  | eval expr env => exact run.evaluates plays legible
  | force handle =>
    refine Run.begins (run.step .turn) fun ready records heap run => ?_
    have legible := legible.of_records records
    have arrives : Arrives evaluator start goingOn (demand evaluator handle ready.state) :=
      run.walks plays (fun found => proper (heap ▸ found)) rfl (unrolls_followOn (List.forall_mem_nil _) handle) legible
    exact arrives.continuing
  | deliver whnf =>
    refine Run.begins (run.step .turn) fun ready records heap run => ?_
    have legible := legible.of_records records
    obtain ⟨spot, fits, sameRecords, sameHeap⟩ := keeps.fits
    exact run.finishes plays legible fits (sameRecords.trans records.symm) (sameHeap.trans heap.symm)

/-! ### Calls -/

theorem Surroundings.Orderly.of_regular {heap : Heap} (regular : heap.Regular) (actor : Actor) :
    Surroundings.Orderly ⟨heap, fun _ => .idle, []⟩ actor .idle [] where
  free := regular.free
  reserved := .nil heap
  steady := by
    refine ⟨?_, fun ⟨found, unfinished, _⟩ => (regular.proper found).mpr unfinished⟩
    intro other node completes
    simp [Shared.Completes, Surroundings.shared, Shared.enter] at completes

def Scene.call (evaluator : Evaluator) (root : Handle) (state : State σ) : Scene σ :=
  .solo ⟨[], (begin evaluator state).steps, (begin evaluator state).deadline, state.world⟩ (.working (goingOn (.force root)))

/-- What the scene is when a call has ended like this. -/
def Scene.Shows (scene : Scene σ) (evaluator : Evaluator) (after : State σ) : Except Fault Handle → Prop
  | .ok handle => scene.activity = .working (.ended (.inr handle)) ∧ scene.desk.state = after
  | .error fault => scene.activity = .failed fault ∧ unwind evaluator fault scene.desk.state = after

section

variable {state reached after : State σ} {root : Handle}

theorem Scene.call_opens (evaluator : Evaluator) (root : Handle) (regular : state.world.heap.Regular) :
    (Scene.call evaluator root state).Opens evaluator root :=
  ⟨rfl, rfl, .of_regular regular evaluator.actor⟩

theorem Scene.call_state (evaluator : Evaluator) (root : Handle) (idle : state.stack.items = []) :
    (Scene.call evaluator root state).desk.state = begin evaluator state := by
  have empty : (Scene.call evaluator root state).desk.state.stack = (begin evaluator state).stack := Stack.ext idle.symm
  exact congrArg (fun stack => { begin evaluator state with stack := stack }) empty

/-- What the machine's next transition leads to, a run comes to. -/
theorem Run.transition {control : Control} {count : Nat} (plays : host.Plays evaluator.actor)
    (keeps : host.KeepsTo Heap.Advances) (regular : state.world.heap.Regular) (idle : state.stack.items = [])
    (standing : iterations host evaluator (.force root) (begin evaluator state) count = some (control, reached))
    (fits : reached.world.heap.Addressable)
    (arrives : Arrives evaluator (.call evaluator root state) goingOn (.ok control reached)) :
    Arrives evaluator (.call evaluator root state) showing (iterate host evaluator control reached) := by
  obtain ⟨desk, rfl, legible, run⟩ := arrives
  have poised := iterations_poised keeps regular (.begin regular idle root) standing fits
  have holds := run.holds (Scene.call_opens evaluator root regular).holds
  exact run.iterates plays (poised.settles.regular regular).proper poised.sound (holds.keeps fits) legible

theorem Run.iterations {control : Control} {count : Nat} (plays : host.Plays evaluator.actor)
    (keeps : host.KeepsTo Heap.Advances) (regular : state.world.heap.Regular) (idle : state.stack.items = [])
    (standing : Machine.iterations host evaluator (.force root) (begin evaluator state) count = some (control, reached))
    (fits : reached.world.heap.Addressable) :
    Arrives evaluator (.call evaluator root state) goingOn (.ok control reached) := by
  induction count generalizing control reached with
  | zero =>
    cases standing
    have legible : (Scene.call evaluator root state).desk.Legible := List.forall_mem_nil _
    exact ⟨_, Scene.call_state evaluator root idle, legible, Run.start⟩
  | succ count ih =>
    obtain ⟨control', before, earlier, stepped⟩ := iterations_succ standing
    have grows := iterate_grows keeps evaluator control' before
    rw [stepped] at grows
    have fits' := fits.mono grows
    have arrives := Run.transition plays keeps regular idle earlier fits' (ih earlier fits')
    rw [stepped] at arrives
    exact arrives

theorem Run.force (plays : host.Plays evaluator.actor) (keeps : host.KeepsTo Heap.Advances)
    (regular : state.world.heap.Regular) (idle : state.stack.items = []) {fuel : Nat} {result : Except Fault Handle}
    (ended : Machine.force host evaluator fuel root state = some (result, after)) (fits : after.world.heap.Addressable) :
    ∃ last, Run evaluator (.call evaluator root state) last ∧ last.Shows evaluator after result := by
  obtain ⟨count, control, reached, standing, ends⟩ := force_ends ended
  have grows := iterate_grows keeps evaluator control reached
  have arrives : (iterate host evaluator control reached).state.world.heap.Addressable →
      Arrives evaluator (.call evaluator root state) showing (iterate host evaluator control reached) := fun fits =>
    Run.transition plays keeps regular idle standing (fits.mono grows)
      (Run.iterations plays keeps regular idle standing (fits.mono grows))
  rcases ends with ⟨handle, rfl, finished⟩ | ⟨fault, raised, rfl, failed, rfl⟩
  · rw [finished] at arrives
    obtain ⟨desk, same, _, run⟩ := arrives fits
    exact ⟨_, run, rfl, same⟩
  · rw [failed] at arrives
    have same := unwind_capacity evaluator fault raised
    obtain ⟨desk, rfl, run⟩ := arrives (fits.mono (Nat.le_of_eq same.symm))
    exact ⟨_, run, rfl, rfl⟩

end

end Lapses

end LazyGraph

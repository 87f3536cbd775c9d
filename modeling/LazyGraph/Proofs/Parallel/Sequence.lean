import LazyGraph.Proofs.Parallel.Moments
import LazyGraph.Proofs.Retry.Floors
import LazyGraph.Proofs.Retry.Trails
import LazyGraph.Proofs.Sharing.Transparency

/-! Calls one after the other on the same heap.

What a call leaves behind still stands for the closures of the heap that the first call began
with, so the next one keeps step with the evaluation of its own root there. Values are never
overwritten, so an earlier result is the same when the last call has returned. -/

set_option autoImplicit false

namespace LazyGraph

open Unshared

variable {graph heap : Heap} {known known' : Handle → Prop} {reading reading' : Reading} {closure : Closure}
  {root handle : Handle} {roots : List Handle}

/-! ### Heaps at rest, seen from several roots -/

namespace Heap

def Concerns (heap : Heap) (roots : List Handle) (handle : Handle) : Prop :=
  ∃ root ∈ roots, handle = root ∨ heap.Mentions root handle

open Classical in
noncomputable def restingFor (heap : Heap) (roots : List Handle) : Reading :=
  fun handle => if heap.Concerns roots handle then some (.node handle) else none

theorem restingFor_concerned (concerned : heap.Concerns roots handle) :
    heap.restingFor roots handle = some (.node handle) :=
  if_pos concerned

theorem restingFor_eq_some (read : heap.restingFor roots handle = some closure) :
    heap.Concerns roots handle ∧ closure = .node handle := by
  unfold restingFor at read
  split at read
  · rename_i concerned
    cases read
    exact ⟨concerned, rfl⟩
  · cases read

theorem resting_extends (member : root ∈ roots) : (heap.resting root).Extends (heap.restingFor roots) := by
  intro handle closure read
  obtain ⟨mentions, rfl⟩ := resting_eq_some read
  exact restingFor_concerned ⟨root, member, .inr mentions⟩

end Heap

theorem Expr.StaysIn.mono {expr : Expr} (stays : expr.StaysIn known) (wider : ∀ handle, known handle → known' handle) :
    expr.StaysIn known' :=
  ⟨stays.hostFree, fun handle names => wider handle (stays.names handle names)⟩

theorem Denotes.known_mono {node : Node} {shape : Shape} (denotes : Denotes known reading node shape)
    (wider : ∀ handle, known handle → known' handle) : Denotes known' reading node shape :=
  { denotes with code := fun code runs => (denotes.code code runs).mono wider }

theorem Depicts.known_mono {slot : Slot} (depicts : Depicts graph known reading heap closure slot)
    (wider : ∀ handle, known handle → known' handle) : Depicts graph known' reading heap closure slot := by
  cases depicts with
  | thunk pending reads code becomes => exact .thunk pending reads (code.mono wider) becomes
  | link read becomes => exact .link read becomes
  | shared kept denotes becomes => exact .shared kept (denotes.known_mono wider) becomes
  | value denotes becomes => exact .value (denotes.known_mono wider) becomes

theorem faithful_restingFor (regular : heap.Regular) (contained : ∀ root ∈ roots, heap.SelfContained root)
    (issued : ∀ root ∈ roots, ¬ heap.Offers root) :
    Faithful heap (heap.Concerns roots) (heap.restingFor roots) heap where
  free := regular.free
  live := by
    intro handle closure slot read found
    obtain ⟨⟨root, member, concerned⟩, rfl⟩ := Heap.restingFor_eq_some read
    have mentions : heap.Mentions root handle := by
      rcases concerned with rfl | mentions
      · exact .inl (.root rfl found)
      · exact mentions
    have depicts := (faithful_resting (contained root member)).live (Heap.resting_mentioned mentions) found
    exact (depicts.mono (Heap.resting_extends member) fun _ => id).known_mono fun other named => ⟨root, member, .inr named⟩
  dead := by
    intro handle closure read dead
    obtain ⟨_, rfl⟩ := Heap.restingFor_eq_some read
    cases found : heap.lookup handle with
    | error fault => simp [enter?, found]
    | ok slot => exact absurd ⟨slot, found⟩ dead
  granted := by
    intro handle closure read
    obtain ⟨⟨root, member, rfl | mentions⟩, rfl⟩ := Heap.restingFor_eq_some read
    · exact issued handle member
    · exact (faithful_resting (contained root member)).granted (Heap.resting_mentioned mentions)
  known := Heap.restingFor_concerned

theorem Heap.Settles.keeps {before after : Heap} {node : Node} (settles : before.Settles after)
    (keeps : before.Keeps handle node) (isWhnf : node.tag.isWhnf) : after.Keeps handle node := by
  obtain ⟨slot, found, assigns⟩ := settles.kept.live keeps
  obtain rfl := assigns.whnf isWhnf
  exact found

namespace Machine

variable {σ : Type} {host host' : Host σ} {evaluator : Evaluator} {state after : State σ} {control : Control} {config : Config}
  {calm : Prop} {task : Task} {above below : List Hole} {frame : Frame} {frames : List Frame} {settings : EvalSettings}
  {fuel : Nat} {world last : World σ} {results : List Handle} {result : Handle} {node : Node}

/-! ### Runs beside evaluation without sharing -/

theorem Backs.resume_hostless (backs : Backs graph known reading task above (frame :: frames) below) (whnf : Whnf) :
    resume host evaluator frame whnf = resume host' evaluator frame whnf := by
  cases backs with
  | marker marks =>
    cases frame with
    | update | redirect => rfl
    | _ => cases marks
  | plain fits =>
    cases fits with
    | call => exact nextOperand_hostless evaluator _ _
    | _ => rfl

theorem Backs.finish_hostless (backs : Backs graph known reading task above frames below) (items : state.stack.items = frames)
    (whnf : Whnf) : finish host evaluator whnf state = finish host' evaluator whnf state := by
  cases popped : state.stack.pop? with
  | none =>
    unfold finish
    have read : (get : MachineM σ (State σ)) state = .ok state state := rfl
    rw [bind_ok read, bind_ok read, popped]
  | some top =>
    obtain ⟨frame, rest⟩ := top
    rw [← items, Stack.pop?_eq_some popped] at backs
    rw [finish_pops host evaluator whnf popped, finish_pops host' evaluator whnf popped, Backs.resume_hostless backs whnf]

theorem Shares.hostless (shares : Shares graph known evaluator calm control state config) (host host' : Host σ) :
    iterate host evaluator control state = iterate host' evaluator control state := by
  cases shares with
  | waits => rfl
  | @runs _ _ _ _ mirrors =>
    obtain ⟨task, holes⟩ := config
    obtain ⟨_, shows, backs⟩ := mirrors
    cases shows with
    | eval _ code => simp only [iterate, @eval_hostless σ host host' evaluator _ code.hostFree]
    | force => rfl
    | @deliver whnf _ _ _ =>
      have reached := tick_state evaluator state
      have delivers (host : Host σ) : iterate host evaluator (.deliver whnf) state =
          (do tick evaluator; trace evaluator (.deliver whnf); finish host evaluator whnf) state := rfl
      rw [delivers host, delivers host']
      cases ticked : tick evaluator state with
      | error fault middle => rw [bind_error ticked, bind_error ticked]
      | ok _ middle =>
        rw [ticked] at reached
        obtain rfl : middle = begun state := reached
        obtain ⟨_, traced⟩ := trace_ok evaluator (.deliver whnf) (begun state)
        rw [bind_ok ticked, bind_ok ticked, bind_ok traced, bind_ok traced]
        refine Backs.finish_hostless backs ?_ whnf
        rfl

theorem Shares.next {next : Control} (shares : Shares graph known evaluator calm control state config)
    (fits : (iterate host evaluator control state).state.world.heap.Addressable)
    (stepped : iterate host evaluator control state = .ok (.continues next) after) :
    ∃ config', Shares graph known evaluator calm next after config' := by
  have echo := iterate_echoes shares fits
  rw [stepped] at echo
  cases echo with
  | moved going => exact ⟨_, going⟩
  | popped going => exact ⟨_, going⟩
  | waits going => exact ⟨_, going⟩

theorem Shares.run_hostless (shares : Shares graph known evaluator calm control state config)
    (unlimited : Unlimited (iterate host evaluator) control state) (fuel : Nat) :
    run host' evaluator fuel control state = run host evaluator fuel control state := by
  induction fuel generalizing control state config with
  | zero => rfl
  | succ fuel ih =>
    rw [run, run, shares.hostless host' host]
    cases stepped : iterate host evaluator control state with
    | error => rfl
    | ok progress after =>
      cases progress with
      | finished => rfl
      | continues next =>
        obtain ⟨config', shares'⟩ := shares.next unlimited.fits stepped
        exact ih shares' (unlimited.onward stepped)

theorem iterate_finishes (ended : iterate host evaluator control state = .ok (.finished result) after) :
    ∃ whnf ready, control = .deliver whnf ∧ ready.stack = state.stack ∧ ready.world.heap = state.world.heap ∧
      finish host evaluator whnf ready = .ok (.finished result) after := by
  have granted : ∀ {computation : MachineM σ Control},
      (do tick evaluator; trace evaluator control; continuing computation) state ≠ .ok (.finished result) after := by
    intro computation ended
    obtain ⟨ready, _, _, going⟩ := step_ok ended
    exact continuing_unfinished _ _ _ _ going
  cases control with
  | await links node => exact absurd ended (continuing_unfinished (resumeWait evaluator links node) _ _ _)
  | eval expr env => exact absurd ended (@granted (eval host evaluator expr env))
  | force handle => exact absurd ended (@granted (demand evaluator handle))
  | deliver whnf =>
    have stepped : (do tick evaluator; trace evaluator (.deliver whnf); finish host evaluator whnf) state =
        .ok (.finished result) after := ended
    obtain ⟨ready, stack, heap, going⟩ := step_ok stepped
    exact ⟨whnf, ready, rfl, stack, heap, going⟩

/-- To return a value changes nothing, or adds the value to the heap. -/
theorem finish_faithful {whnf : Whnf} (faithful : Faithful graph known reading state.world.heap)
    (ended : finish host evaluator whnf state = .ok (.finished result) after) (fits : after.world.heap.Addressable) :
    Faithful graph known reading after.world.heap := by
  cases popped : state.stack.pop? with
  | some top =>
    obtain ⟨frame, rest⟩ := top
    rw [finish_pops host evaluator whnf popped] at ended
    exact absurd ended (continuing_unfinished _ _ _ _)
  | none =>
    unfold finish at ended
    rw [bind_ok (rfl : (get : MachineM σ (State σ)) state = .ok state state), popped] at ended
    cases located : whnf.handle? with
    | some handle =>
      simp only [located] at ended
      cases ended
      exact faithful
    | none =>
      simp only [located] at ended
      rcases Heap.alloc_cases whnf.node state.world.heap with ⟨handle, heap, allocated, enlarges⟩ | ⟨limit, refused⟩
      · rw [bind_ok (onHeap_ok allocated)] at ended
        cases ended
        obtain ⟨free, gains⟩ := enlarges.result fits faithful.free
        have grants := Heap.alloc_grants faithful.free allocated fits
        exact (@Faithful.grown _ _ _ _ _ _ [result] [whnf.node] faithful gains free grants (.refl _) fun _ _ => .inl).faithful
      · rw [bind_error (onHeap_error refused)] at ended
        cases ended

theorem Shares.run_faithful (shares : Shares graph known evaluator calm control state config)
    (unlimited : Unlimited (iterate host evaluator) control state)
    (ended : run host evaluator fuel control state = some (.ok result after)) :
    after.world.heap.Addressable ∧ ∃ reading, Faithful graph known reading after.world.heap := by
  induction fuel generalizing control state config with
  | zero => cases ended
  | succ fuel ih =>
    rw [run] at ended
    have fits := unlimited.fits
    cases stepped : iterate host evaluator control state with
    | error fault failed =>
      rw [stepped] at ended
      cases ended
    | ok progress middle =>
      rw [stepped] at ended fits
      cases progress with
      | continues next =>
        obtain ⟨config', shares'⟩ := shares.next unlimited.fits stepped
        exact ih shares' (unlimited.onward stepped) ended
      | finished handle =>
        cases ended
        obtain ⟨whnf, ready, rfl, _, heap, finished⟩ := iterate_finishes stepped
        cases shares with
        | @runs reading _ _ _ mirrors =>
          refine ⟨fits, reading, finish_faithful ?_ finished fits⟩
          rw [heap]
          exact mirrors.faithful

/-! ### Calls -/

structure Call (graph : Heap) (known : Handle → Prop) (root : Handle) (before after : Heap) (result : Handle) : Prop where
  returns : Returns graph known (.force (.node root), []) after result
  faithful : ∃ reading, Faithful graph known reading after
  settles : before.Regular → before.Settles after

theorem force_calls (faithful : Faithful graph known reading state.world.heap) (isKnown : known root)
    (idle : state.stack.items = []) (unlimited : Unlimited (iterate host evaluator) (.force root) (begin evaluator state))
    (ended : force host evaluator fuel root state = some (.ok result, after)) :
    Call graph known root state.world.heap after.world.heap result := by
  have items : (begin evaluator state).stack.items = [] := idle
  have shares : Shares graph known evaluator False (.force root) (begin evaluator state) (.force (.node root), []) := by
    refine .runs ⟨faithful, .force (faithful.known isKnown), ?_⟩ ?_ False.elim
    · rw [items]
      exact .nil []
    · rw [items]
      exact .nil _ _
  have ran := force_eq_ok.mp ended
  obtain ⟨fits, faithful'⟩ := shares.run_faithful unlimited ran
  refine ⟨?_, faithful', fun regular => ?_⟩
  · rw [run_eq_runWith] at ran
    exact runWith_returns iterate_echoes shares unlimited ran
  · have silent : force mute evaluator fuel root state = some (.ok result, after) := by
      rw [force_eq_ok, shares.run_hostless unlimited fuel]
      exact ran
    exact (force_advances mute_keeps idle silent).settles fits regular

def UnlimitedEach (host : Host σ) (settings : EvalSettings) (fuel : Nat) : List Handle → World σ → Prop
  | [], _ => True
  | root :: roots, world =>
    let (evaluator, state) := start world settings none
    Unlimited (iterate host evaluator) (.force root) (begin evaluator state) ∧
      ∀ result after, force host evaluator fuel root state = some (result, after) →
        UnlimitedEach host settings fuel roots after.world

/-- The calls end within `fuel` transitions each, and meet no limit. -/
def withinEach (host : Host σ) (settings : EvalSettings) (fuel : Nat) : List Handle → World σ → Bool
  | [], _ => true
  | root :: roots, world =>
    let (evaluator, state) := start world settings none
    withinLimits (iterate host evaluator) fuel (.force root) (begin evaluator state) &&
      (force host evaluator fuel root state).all fun (_, after) => withinEach host settings fuel roots after.world

theorem unlimitedEach_of_within (within : withinEach host settings fuel roots world) :
    UnlimitedEach host settings fuel roots world := by
  induction roots generalizing world with
  | nil => trivial
  | cons root roots ih =>
    unfold withinEach at within
    obtain ⟨first, others⟩ := Bool.and_eq_true_iff.mp within
    refine ⟨unlimited_of_within first, fun result after forced => ih ?_⟩
    rw [forced] at others
    exact others

theorem Returns.shows (returns : Returns graph known config heap handle) :
    ∃ shape node, Ends graph config shape ∧ heap.Keeps handle node ∧ node.tag.isWhnf ∧
      node.value?.map Value.head = shape.head? := by
  obtain ⟨shape, reading, node, ends, keeps, denotes⟩ := returns
  obtain ⟨head, shows, same⟩ := denotes.head
  exact ⟨shape, node, ends, keeps, denotes.whnf, shows.trans same.symm⟩

/-- Every call returns the value that the evaluation of its root ends with, and it is still there
when the last call has returned. -/
theorem forceEach_calls (faithful : Faithful graph known reading world.heap) (regular : world.heap.Regular)
    (areKnown : ∀ root ∈ roots, known root) (unlimited : UnlimitedEach host settings fuel roots world)
    (ended : forceEach host settings fuel roots world = some (results.map .ok, last)) :
    world.heap.Settles last.heap ∧ ∃ targets : List (Handle × Shape), targets.map Prod.fst = roots ∧
      ∀ (place : Nat) (target : Handle × Shape), targets[place]? = some target →
        Ends graph (.force (.node target.1), []) target.2 ∧
        ∃ result, results[place]? = some result ∧ last.heap.head? result = target.2.head? := by
  induction roots generalizing world results reading with
  | nil =>
    cases results with
    | nil =>
      cases ended
      exact ⟨.refl regular.free, [], rfl, by simp⟩
    | cons => cases ended
  | cons root roots ih =>
    obtain ⟨here, there⟩ := List.forall_mem_cons.mp areKnown
    obtain ⟨unlimited, later⟩ := unlimited
    obtain ⟨first, state, others, same, forced, rest⟩ := forceEach_cons ended
    cases results with
    | nil => cases same
    | cons result results =>
    cases same
    have begins : world.heap.Settles (start world settings none).2.world.heap := .of_entries regular.free rfl rfl
    have faithful' : Faithful graph known reading (start world settings none).2.world.heap :=
      faithful.of_lookup begins.kept.free (fun _ => rfl) fun _ => id
    obtain ⟨returns, ⟨_, faithful''⟩, settles⟩ := force_calls faithful' here rfl unlimited forced
    have calls := begins.trans (settles (begins.regular regular))
    obtain ⟨settles', targets, same, others⟩ := ih faithful'' (calls.regular regular) there (later _ _ forced) rest
    obtain ⟨shape, node, ends, keeps, isWhnf, shows⟩ := returns.shows
    refine ⟨calls.trans settles', (root, shape) :: targets, congrArg (root :: ·) same, fun place target aimed => ?_⟩
    cases place with
    | zero =>
      cases aimed
      exact ⟨ends, result, rfl, ((settles'.keeps keeps isWhnf).head? isWhnf).trans shows⟩
    | succ place => exact others place target aimed

end Machine

end LazyGraph

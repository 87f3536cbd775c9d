import LazyGraph.Proofs.Sharing.Mirror

/-! Call by name: the machine in which thunks are evaluated at every demand.

A thunk is neither claimed nor overwritten, so there are no markers on the stack and there
is nothing to wait for. All else is as in the machine with sharing: frames, faults, limits,
and the collapsing of chains that lead to values. -/

set_option autoImplicit false

namespace LazyGraph

open Unshared

namespace Machine

variable {σ : Type}

/-- Takes what stands at the end of a chain. Links that lead to a thunk stay, so that it is
found there again. -/
def landByName (chain : Chain) : MachineM σ Control :=
  match chain.landing with
  | .broken fault => throw fault
  | .loop handle => throw (.nonTermination handle)
  | .at handle slot =>
    match slot.node with
    | .thunk expr env => return .eval expr env
    | node => do
      redirectAll chain.links handle
      return .deliver (.stored handle node)

def demandByName (handle : Handle) : MachineM σ Control := do
  landByName ((← getHeap).followOn [] handle)

def iterateByName (host : Host σ) (evaluator : Evaluator) (control : Control) : MachineM σ Progress :=
  match control with
  | .force handle => do
    tick evaluator
    trace evaluator control
    return .continues (← demandByName handle)
  | _ => iterate host evaluator control

/-! ### Runs of either machine -/

/-- At most `fuel` transitions; none when that is not enough. -/
def runWith (step : Control → MachineM σ Progress) :
    (fuel : Nat) → Control → State σ → Option (EStateM.Result Fault (State σ) Handle)
  | 0, _, _ => none
  | fuel + 1, control, state =>
    match step control state with
    | .ok (.continues control) state => runWith step fuel control state
    | .ok (.finished result) state => some (.ok result state)
    | .error fault state => some (.error fault state)

def forceWith (step : Control → MachineM σ Progress) (evaluator : Evaluator) (fuel : Nat) (root : Handle)
    (state : State σ) : Option (Except Fault Handle × State σ) :=
  match runWith step fuel (.force root) (begin evaluator state) with
  | none => none
  | some (.ok result state) => some (.ok result, state)
  | some (.error fault state) => some (.error fault, unwind evaluator fault state)

def forceByName (host : Host σ) (evaluator : Evaluator) (fuel : Nat) (root : Handle) (state : State σ) :
    Option (Except Fault Handle × State σ) :=
  forceWith (iterateByName host evaluator) evaluator fuel root state

theorem run_eq_runWith (host : Host σ) (evaluator : Evaluator) (fuel : Nat) (control : Control) (state : State σ) :
    run host evaluator fuel control state = runWith (iterate host evaluator) fuel control state := by
  induction fuel generalizing control state with
  | zero => rfl
  | succ fuel ih =>
    rw [run, runWith]
    cases iterate host evaluator control state with
    | error fault after => rfl
    | ok progress after =>
      cases progress with
      | continues next => exact ih next after
      | finished result => rfl

theorem force_eq_forceWith (host : Host σ) (evaluator : Evaluator) (fuel : Nat) (root : Handle) (state : State σ) :
    force host evaluator fuel root state = forceWith (iterate host evaluator) evaluator fuel root state := by
  have ends := run_eq_runWith host evaluator fuel (.force root) (begin evaluator state)
  unfold force forceWith
  generalize run host evaluator fuel (.force root) (begin evaluator state) = ended at ends ⊢
  subst ends
  rfl

theorem forceWith_eq_ok {step : Control → MachineM σ Progress} {evaluator : Evaluator} {fuel : Nat}
    {root result : Handle} {state after : State σ} :
    forceWith step evaluator fuel root state = some (.ok result, after) ↔
      runWith step fuel (.force root) (begin evaluator state) = some (.ok result after) := by
  unfold forceWith
  constructor
  · intro returned
    split at returned
    · cases returned
    · rename_i ran
      cases returned
      exact ran
    · cases returned
  · intro ran
    rw [ran]

/-! ### Keeping step -/

variable {graph : Heap} {known : Handle → Prop} {reading : Reading} {host : Host σ} {evaluator : Evaluator}
  {state : State σ} {control : Control} {config : Config} {depth : Nat}

def Repeats (graph : Heap) (known : Handle → Prop) (control : Control) (state : State σ) (config : Config) : Prop :=
  ∃ reading, Mirrors graph known reading control state config ∧ ∀ frame ∈ state.stack.items, frame.isPlain

theorem demandByName_echoes {handle : Handle} (mirrors : Mirrors graph known reading (.force handle) state config)
    (plain : ∀ frame ∈ state.stack.items, frame.isPlain) :
    Echoes graph known (Repeats graph known) False config depth (continuing (demandByName handle) state) := by
  obtain ⟨task, holes⟩ := config
  obtain ⟨faithful, shows, backs⟩ := mirrors
  cases shows with
  | @force _ closure read =>
  have walked := faithful.follow read
  rcases chain : state.world.heap.followOn [] handle with ⟨links, landing⟩
  rw [chain] at walked
  have demanded : demandByName handle state = landByName ⟨links, landing⟩ state :=
    (bind_ok (rfl : getHeap state = .ok state.world.heap state)).trans (by rw [chain])
  cases walked with
  | lost elsewhere endless =>
    have failed : ∃ fault, demandByName handle state = .error fault state := by
      rw [demanded]
      cases landing with
      | «at» handle slot => exact absurd rfl (elsewhere handle slot)
      | loop handle => exact ⟨_, rfl⟩
      | broken fault => exact ⟨_, rfl⟩
    obtain ⟨fault, failed⟩ := failed
    rw [continuing_error failed]
    exact .stuck (endless holes)
  | lands lands turns comes =>
    cases lands with
    | @thunk node closure' slotState expr env read' =>
      have ended : demandByName handle state = .ok (.eval expr env) state := demanded
      have live := (Heap.followOn_at (congrArg Chain.landing chain)).1
      rw [continuing_ok ended]
      cases faithful.live read' live with
      | value denotes _ => cases denotes.whnf
      | thunk pending reads code becomes =>
        have backs' := backs.turns (turns.trans becomes) rfl
        exact .moved ⟨reading, ⟨faithful, .eval reads code, backs'⟩, plain⟩ ((turns holes).trans (becomes holes))
    | @value target node shape denotes =>
      have keeps := (Heap.followOn_at (congrArg Chain.landing chain)).1
      obtain ⟨after, delivered, stack, _, mirrors, leads⟩ := deliver_mirrors faithful backs denotes keeps turns comes
      have isWhnf := denotes.whnf
      have ended : demandByName handle state = .ok (.deliver (.stored target node)) after := by
        rw [demanded, ← delivered]
        cases node with
        | thunk | indirection => cases isWhnf
        | _ => rfl
      rw [continuing_ok ended]
      exact .moved ⟨reading, mirrors, stack ▸ plain⟩ leads

theorem finish_repeats {whnf : Whnf} (mirrors : Mirrors graph known reading (.deliver whnf) state config)
    (plain : ∀ frame ∈ state.stack.items, frame.isPlain)
    (fits : (finish host evaluator whnf state).state.world.heap.Addressable) :
    Echoes graph known (Repeats graph known) False config depth (finish host evaluator whnf state) := by
  cases popped : state.stack.pop? with
  | none => exact finish_echoes mirrors (Stack.pop?_eq_none.mp popped) fits
  | some top =>
    obtain ⟨frame, below⟩ := top
    have items := Stack.pop?_eq_some popped
    obtain ⟨task, holes⟩ := config
    obtain ⟨faithful, shows, backs⟩ := mirrors
    rw [items] at plain backs
    obtain ⟨here, rest⟩ := List.forall_mem_cons.mp plain
    rw [finish_pops host evaluator whnf popped]
    cases shows with
    | deliver denotes stored =>
      cases backs with
      | marker marks _ _ => cases (Frame.isPlain_of_marked marks).symm.trans here
      | plain fits' backs =>
        refine (resume_reduces faithful denotes fits' backs).echoes fun grown pushes plain' mirrors => ⟨_, mirrors, ?_⟩
        rw [pushes]
        exact List.forall_mem_append.mpr ⟨plain', rest⟩

theorem iterateByName_echoes (repeats : Repeats graph known control state config)
    (fits : (iterateByName host evaluator control state).state.world.heap.Addressable) :
    Echoes graph known (Repeats graph known) False config depth (iterateByName host evaluator control state) := by
  obtain ⟨reading, mirrors, plain⟩ := repeats
  cases control with
  | await links node => cases mirrors.shows
  | eval expr env =>
    refine Echoes.step (continuing (eval host evaluator expr env)) fits fun stack heap fits => ?_
    rw [continuing_state] at fits
    refine (eval_reduces (mirrors.unmoved stack heap) fits).echoes fun grown items plain' mirrors' => ⟨_, mirrors', ?_⟩
    rw [items, stack]
    exact List.forall_mem_append.mpr ⟨plain', plain⟩
  | force handle =>
    refine Echoes.step (continuing (demandByName handle)) fits fun stack heap _ => ?_
    exact demandByName_echoes (mirrors.unmoved stack heap) (stack ▸ plain)
  | deliver whnf =>
    refine Echoes.step (finish host evaluator whnf) fits fun stack heap fits => ?_
    exact finish_repeats (mirrors.unmoved stack heap) (stack ▸ plain) fits

end Machine

end LazyGraph

import LazyGraph.Proofs.Sharing.Chains
import LazyGraph.Proofs.Sharing.Reduction

/-! Machines that keep step with evaluation without sharing.

The frames of a machine lie beside the holes of an unshared configuration, with markers
between them. A marker stands for closures whose evaluation has led to the task at hand,
under the holes above the marker: when the stack is down to the marker, the task delivers
their value, and when one of them is demanded before that, it depends on itself. -/

set_option autoImplicit false

namespace LazyGraph

open Unshared

variable {graph : Heap} {known : Handle → Prop} {reading reading' : Reading} {task task' : Task}
  {above above' below : List Hole} {frame : Frame} {frames pushed : List Frame}

def Frame.marked? : Frame → Option (List Handle)
  | .update node => some [node]
  | .redirect links => some links
  | _ => none

/-- The frames beside the holes; the holes `above` were passed on the way down. -/
inductive Backs (graph : Heap) (known : Handle → Prop) (reading : Reading) (task : Task) :
    List Hole → List Frame → List Hole → Prop where
  | nil (above : List Hole) : Backs graph known reading task above [] []
  | marker {above below : List Hole} {frame : Frame} {frames : List Frame} {handles : List Handle}
      (marks : frame.marked? = some handles)
      (led : ∀ handle ∈ handles, ∃ closure, reading handle = some closure ∧ Turns graph 1 (.force closure) [] task above)
      (rest : Backs graph known reading task above frames below) :
      Backs graph known reading task above (frame :: frames) below
  | plain {above below : List Hole} {frame : Frame} {frames : List Frame} {hole : Hole}
      (fits : Matches known reading frame hole) (rest : Backs graph known reading task (above ++ [hole]) frames below) :
      Backs graph known reading task above (frame :: frames) (hole :: below)

theorem Matches.isPlain {hole : Hole} (fits : Matches known reading frame hole) : frame.isPlain := by
  cases fits <;> rfl

theorem Frame.isPlain_of_marked {handles : List Handle} (marks : frame.marked? = some handles) : frame.isPlain = false := by
  cases frame <;> first | rfl | cases marks

theorem isPlain_of_matches (fits : List.Forall₂ (Matches known reading) pushed above) :
    ∀ frame ∈ pushed, frame.isPlain := by
  induction fits with
  | nil => nofun
  | cons first _ ih => exact List.forall_mem_cons.mpr ⟨first.isPlain, ih⟩

namespace Backs

theorem mono (backs : Backs graph known reading task above frames below) (wider : reading.Extends reading') :
    Backs graph known reading' task above frames below := by
  induction backs with
  | nil above => exact .nil above
  | marker marks led _ ih =>
    refine .marker marks (fun handle member => ?_) ih
    obtain ⟨closure, read, turns⟩ := led handle member
    exact ⟨closure, wider _ _ read, turns⟩
  | plain fits _ ih => exact .plain (fits.mono wider) ih

theorem turns {least : Nat} {passed : List Hole} (backs : Backs graph known reading task passed frames below)
    (moves : Turns graph least task above task' above') {deeper : List Hole} (split : passed = above ++ deeper) :
    Backs graph known reading task' (above' ++ deeper) frames below := by
  induction backs generalizing deeper with
  | nil _ => exact .nil _
  | @marker passed _ _ _ _ marks led _ ih =>
    refine .marker marks (fun handle member => ?_) (ih split)
    obtain ⟨closure, read, turns⟩ := led handle member
    refine ⟨closure, read, fun rest => ?_⟩
    have early := turns rest
    have late := moves (deeper ++ rest)
    rw [split, List.append_assoc] at early
    rw [List.append_assoc]
    exact (early.trans late).mono (Nat.le_add_right _ _)
  | @plain _ _ _ _ hole fits _ ih =>
    refine .plain fits ?_
    rw [List.append_assoc]
    exact ih (by rw [split, List.append_assoc])

theorem push {passed : List Hole} (fits : List.Forall₂ (Matches known reading) pushed above)
    (backs : Backs graph known reading task (passed ++ above) frames below) :
    Backs graph known reading task passed (pushed ++ frames) (above ++ below) := by
  induction fits generalizing passed with
  | nil => simpa using backs
  | cons first _ ih =>
    refine .plain first (ih ?_)
    simpa using backs

/-- The frames of a claimed thunk, and of the links that led to it. -/
theorem claims {node : Handle} {links : List Handle} (backs : Backs graph known reading task [] frames below)
    (here : Comes graph reading task node) (there : ∀ link ∈ links, Comes graph reading task link) :
    Backs graph known reading task [] (.update node :: redirection links ++ frames) below := by
  refine .marker rfl (List.forall_mem_singleton.mpr here) ?_
  unfold redirection
  split
  · exact backs
  · exact .marker rfl there backs

theorem update {node : Handle} (backs : Backs graph known reading task above frames below)
    (member : .update node ∈ frames) :
    ∃ closure deeper, reading node = some closure ∧ Turns graph 1 (.force closure) [] task deeper := by
  induction backs with
  | nil _ => cases member
  | @marker passed _ _ _ handles marks led _ ih =>
    rcases List.mem_cons.mp member with rfl | member
    · cases marks
      obtain ⟨closure, read, turns⟩ := led node (.head _)
      exact ⟨closure, passed, read, turns⟩
    · exact ih member
  | plain fits _ ih =>
    rcases List.mem_cons.mp member with rfl | member
    · cases fits
    · exact ih member

end Backs

namespace Machine

variable {σ : Type} {host : Host σ} {evaluator : Evaluator} {state after : State σ} {control : Control}
  {config config' : Config}

structure Mirrors (graph : Heap) (known : Handle → Prop) (reading : Reading) (control : Control) (state : State σ)
    (config : Config) : Prop where
  faithful : Faithful graph known reading state.world.heap
  shows : Shows known reading state.world.heap control config.1
  backs : Backs graph known reading config.1 [] state.stack.items config.2

theorem Mirrors.unmoved {later : State σ} (mirrors : Mirrors graph known reading control state config)
    (stack : later.stack = state.stack) (heap : later.world.heap = state.world.heap) :
    Mirrors graph known reading control later config :=
  ⟨heap ▸ mirrors.faithful, heap ▸ mirrors.shows, stack ▸ mirrors.backs⟩

/-- A chain that lands on a value is collapsed, and the value delivered. -/
theorem deliver_mirrors {links : List Handle} {target : Handle} {closure : Closure} {node : Node} {shape : Shape}
    {holes : List Hole} (faithful : Faithful graph known reading state.world.heap)
    (backs : Backs graph known reading (.force closure) [] state.stack.items holes)
    (denotes : Denotes known reading node shape) (keeps : state.world.heap.Keeps target node)
    (turns : Turns graph 0 (.force closure) [] (.deliver shape) [])
    (comes : ∀ link ∈ links, Comes graph reading (.deliver shape) link) :
    ∃ after, (redirectAll links target >>= fun _ => pure (.deliver (.stored target node)) : MachineM σ Control) state =
        .ok (.deliver (.stored target node)) after ∧
      after.stack = state.stack ∧ state.world.heap.Tidies after.world.heap ∧
      Mirrors graph known reading (.deliver (.stored target node)) after (.deliver shape, holes) ∧
      Arrives graph 1 (.force closure, holes) (.deliver shape, holes) := by
  obtain ⟨after, redirected, stack, faithful', tidies⟩ := redirectAll_faithful faithful denotes keeps comes
  refine ⟨after, bind_ok redirected, stack, tidies, ⟨faithful', .deliver denotes ?_, ?_⟩, (turns holes).strict nofun⟩
  · rintro handle ⟨⟩
    exact tidies.keeps keeps denotes.whnf
  · rw [stack]
    exact backs.turns turns rfl

/-- The computation moves on with the unshared machine, and only adds nodes and plain frames; it
fails at a limit, or where the unshared machine has no end. -/
inductive Reduces (graph : Heap) (known : Handle → Prop) (reading : Reading) (heap : Heap) (frames : List Frame)
    (config : Config) : EStateM.Result Fault (State σ) Control → Prop where
  | moved {reading' : Reading} {control : Control} {after : State σ} {config' : Config} {pushed : List Frame}
      (grown : Grown graph known reading heap reading' after.world.heap) (items : after.stack.items = pushed ++ frames)
      (plain : ∀ frame ∈ pushed, frame.isPlain) (mirrors : Mirrors graph known reading' control after config')
      (leads : Arrives graph 1 config config') : Reduces graph known reading heap frames config (.ok control after)
  | limited {limit : Limit} {after : State σ} :
      Reduces graph known reading heap frames config (.error (.exhausted limit) after)
  | stuck {fault : Fault} {after : State σ} (unfinished : ¬ ∃ shape, Ends graph config shape) :
      Reduces graph known reading heap frames config (.error fault after)

theorem Tracks.reduces {heap : Heap} {stack : Stack Frame} {result : EStateM.Result Fault (State σ) Control}
    {expected : Option Move}
    (tracked : Tracks graph known reading heap (Going known stack) result expected)
    (backs : Backs graph known reading task above stack.items below)
    (moves : ∀ move, expected = some move → Turns graph 1 task above move.1 move.2.toList)
    (stuck : expected = none → ¬ ∃ shape, Ends graph (task, above ++ below) shape) :
    Reduces graph known reading heap stack.items (task, above ++ below) result := by
  cases result with
  | error fault after =>
    rcases tracked with ⟨limit, rfl⟩ | none
    · exact .limited
    · exact .stuck (stuck none)
  | ok control after =>
    obtain ⟨⟨task', hole?⟩, same, reading', grown, shows, pushed, items, fits⟩ := tracked
    have turns := moves _ same
    have backs' : Backs graph known reading' task' [] (pushed ++ stack.items) (hole?.toList ++ below) :=
      .push fits (by simpa using (backs.mono grown.wider).turns turns (List.append_nil above).symm)
    exact .moved grown items (isPlain_of_matches fits) ⟨grown.faithful, shows, items ▸ backs'⟩ (turns below)

theorem eval_reduces {expr : Expr} {env : Env} (mirrors : Mirrors graph known reading (.eval expr env) state config)
    (fits : (eval host evaluator expr env state).state.world.heap.Addressable) :
    Reduces graph known reading state.world.heap state.stack.items config (eval host evaluator expr env state) := by
  obtain ⟨task, holes⟩ := config
  obtain ⟨faithful, shows, backs⟩ := mirrors
  cases shows with
  | @eval _ _ scope reads code =>
    refine (eval_tracks faithful reads code fits).reduces backs (fun move moves => turns_eval moves) fun none => ?_
    exact unfinished_of_stuck (by simp [step, none]) nofun

/-- A frame that is no marker is resumed, with the frames below it left. -/
theorem resume_reduces {whnf : Whnf} {rest : Stack Frame} {shape : Shape} {hole : Hole} {holes : List Hole}
    (faithful : Faithful graph known reading state.world.heap) (denotes : Denotes known reading whnf.node shape)
    (fits : Matches known reading frame hole)
    (backs : Backs graph known reading (.deliver shape) [hole] rest.items holes) :
    Reduces graph known reading state.world.heap rest.items (.deliver shape, hole :: holes)
      (resume host evaluator frame whnf { state with stack := rest }) := by
  have tracked : Tracks graph known reading state.world.heap (Going known rest)
      (resume host evaluator frame whnf { state with stack := rest }) (resume? hole shape) :=
    @resume_tracks _ _ _ _ _ host evaluator { state with stack := rest } _ _ _ faithful fits denotes
  refine tracked.reduces backs (fun move moves => turns_deliver moves) fun none => ?_
  exact unfinished_of_stuck (by simp [step, none]) nofun

/-! ### Transitions -/

/-- The call returns the value that the unshared machine ends with. -/
def Returns (graph : Heap) (known : Handle → Prop) (config : Config) (heap : Heap) (handle : Handle) : Prop :=
  ∃ shape reading node, Ends graph config shape ∧ heap.Keeps handle node ∧ Denotes known reading node shape

/-- What a transition comes to beside an unshared configuration. One that is excused may wait
for ever, or fail. -/
inductive Echoes (graph : Heap) (known : Handle → Prop) (goes : Control → State σ → Config → Prop) (excused : Prop)
    (config : Config) (depth : Nat) : EStateM.Result Fault (State σ) Progress → Prop where
  | moved {control : Control} {after : State σ} {config' : Config} (going : goes control after config')
      (leads : Arrives graph 1 config config') :
      Echoes graph known goes excused config depth (.ok (.continues control) after)
  | popped {control : Control} {after : State σ} (going : goes control after config)
      (shorter : after.stack.items.length < depth) :
      Echoes graph known goes excused config depth (.ok (.continues control) after)
  | waits {control : Control} {after : State σ} (going : goes control after config) (excuse : excused) :
      Echoes graph known goes excused config depth (.ok (.continues control) after)
  | done {handle : Handle} {after : State σ} (returns : Returns graph known config after.world.heap handle) :
      Echoes graph known goes excused config depth (.ok (.finished handle) after)
  | limited {limit : Limit} {after : State σ} :
      Echoes graph known goes excused config depth (.error (.exhausted limit) after)
  | stuck {fault : Fault} {after : State σ} (unfinished : ¬ ∃ shape, Ends graph config shape) :
      Echoes graph known goes excused config depth (.error fault after)
  | failed {fault : Fault} {after : State σ} (excuse : excused) :
      Echoes graph known goes excused config depth (.error fault after)

theorem Echoes.step {goes : Control → State σ → Config → Prop} {excused : Prop} {depth : Nat} (next : MachineM σ Progress)
    (fits : ((do tick evaluator; trace evaluator control; next) state).state.world.heap.Addressable)
    (later : ∀ {ready}, ready.stack = state.stack → ready.world.heap = state.world.heap →
      (next ready).state.world.heap.Addressable → Echoes graph known goes excused config depth (next ready)) :
    Echoes graph known goes excused config depth ((do tick evaluator; trace evaluator control; next) state) := by
  rcases step_cases evaluator control next state with ⟨limit, refused⟩ | ⟨_, ready, stack, heap, going⟩
  · rw [refused]
    exact .limited
  · rw [going] at fits ⊢
    exact later stack heap fits

theorem Reduces.echoes {goes : Control → State σ → Config → Prop} {excused : Prop} {depth : Nat} {heap : Heap}
    {computation : MachineM σ Control} (reduces : Reduces graph known reading heap frames config (computation state))
    (going : ∀ {reading' control after config' pushed}, Grown graph known reading heap reading' after.world.heap →
      after.stack.items = pushed ++ frames → (∀ frame ∈ pushed, frame.isPlain) →
      Mirrors graph known reading' control after config' → goes control after config') :
    Echoes graph known goes excused config depth (continuing computation state) := by
  cases ended : computation state with
  | ok control after =>
    rw [ended] at reduces
    rw [continuing_ok ended]
    cases reduces with
    | moved grown items plain mirrors leads => exact .moved (going grown items plain mirrors) leads
  | error fault after =>
    rw [ended] at reduces
    rw [continuing_error ended]
    cases reduces with
    | limited => exact .limited
    | stuck unfinished => exact .stuck unfinished

theorem finish_echoes {goes : Control → State σ → Config → Prop} {excused : Prop} {depth : Nat} {whnf : Whnf}
    (mirrors : Mirrors graph known reading (.deliver whnf) state config) (empty : state.stack.items = [])
    (fits : (finish host evaluator whnf state).state.world.heap.Addressable) :
    Echoes graph known goes excused config depth (finish host evaluator whnf state) := by
  obtain ⟨task, holes⟩ := config
  obtain ⟨faithful, shows, backs⟩ := mirrors
  rw [empty] at backs
  cases backs
  unfold finish at fits ⊢
  rw [bind_ok (rfl : (get : MachineM σ (State σ)) state = .ok state state), Stack.pop?_eq_none.mpr empty] at fits ⊢
  cases shows with
  | @deliver _ shape denotes stored =>
    have ends : Ends graph (.deliver shape, []) shape := ⟨0, .done⟩
    cases located : whnf.handle? with
    | some handle =>
      simp only
      exact .done ⟨shape, reading, whnf.node, ends, stored handle located, denotes⟩
    | none =>
      simp only [located] at fits ⊢
      rcases Heap.alloc_cases whnf.node state.world.heap with ⟨handle, after, allocated, enlarges⟩ | ⟨limit, refused⟩
      · rw [bind_ok (onHeap_ok allocated)] at fits ⊢
        obtain ⟨_, gains⟩ := enlarges.result fits faithful.free
        refine .done ⟨shape, reading, whnf.node, ends, ?_, denotes⟩
        rw [Heap.Keeps, ← Slot.ofNode_of_whnf denotes.whnf]
        exact gains.filled (.head _)
      · rw [bind_error (onHeap_error refused)]
        exact .limited

end Machine

end LazyGraph

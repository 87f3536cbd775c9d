import LazyGraph.Proofs.Machine.Markers
import LazyGraph.Proofs.Sharing.Mirror

/-! The machine with sharing keeps step with evaluation without it.

A thunk that is in progress and has its frame on the stack depends on itself when it is
demanded again, and without sharing it would be evaluated for ever. A thunk that was in
progress from the start is another matter: the machine waits for it or gives up, whatever
its value. So it is asked that a calm machine meets none of these. -/

set_option autoImplicit false

namespace LazyGraph

open Unshared

variable {graph : Heap} {known : Handle → Prop} {reading reading' : Reading} {before after heap : Heap}
  {frames pushed rest : List Frame} {node : Handle} {actor : Actor}

/-- Whatever is in progress is so for a frame of the stack. -/
def Calm (reading : Reading) (heap : Heap) (frames : List Frame) : Prop :=
  ∀ handle closure owner content, reading handle = some closure →
    heap.lookup handle = .ok ⟨.inProgress owner, content⟩ → .update handle ∈ frames

namespace Calm

theorem grown (calm : Calm reading before frames) (grown : Grown graph known reading before reading' after)
    (pushed : List Frame) : Calm reading' after (pushed ++ frames) := by
  intro handle closure owner content read found
  rcases grown.fresh read found with ⟨read', found'⟩ | ⟨node, isNew⟩
  · exact List.mem_append_right _ (calm handle closure owner content read' found')
  · cases node <;> cases isNew

theorem tidied (calm : Calm reading before frames) (faithful : Faithful graph known reading after)
    (tidies : before.Tidies after) : Calm reading after frames := by
  intro handle closure owner content read found
  have noLink : content.tag ≠ .indirection := by
    cases faithful.live read found
    simp [Node.tag]
  exact calm handle closure owner content read ((tidies handle _ noLink).mp found)

theorem tail {frame : Frame} (calm : Calm reading heap (frame :: frames)) (unmarked : ∀ node, frame ≠ .update node) :
    Calm reading heap frames := by
  intro handle closure owner content read found
  rcases List.mem_cons.mp (calm handle closure owner content read found) with same | member
  · exact absurd same.symm (unmarked handle)
  · exact member

theorem claims {expr : Expr} {env : Env} (calm : Calm reading before frames)
    (claims : Machine.Claims actor before after node expr env) (pushed : List Frame) :
    Calm reading after (.update node :: pushed ++ frames) := by
  intro handle closure owner content read found
  rw [claims.lookup] at found
  split at found
  · rename_i same
    exact same ▸ .head _
  · exact List.mem_append_right _ (calm handle closure owner content read found)

theorem completed {old payload : Node} (calm : Calm reading before (.update node :: frames))
    (rewrites : before.Rewrites after node ⟨.inProgress actor, old⟩ ⟨.evaluated, payload⟩) : Calm reading after frames := by
  intro handle closure owner content read found
  rw [rewrites.lookup] at found
  split at found
  · cases found
  · rename_i apart
    rcases List.mem_cons.mp (calm handle closure owner content read found) with same | member
    · cases same
      exact absurd rfl apart
    · exact member

end Calm

namespace Machine

variable {σ : Type} {host : Host σ} {evaluator : Evaluator} {state : State σ} {control : Control}
  {config : Config} {calm : Prop} {depth : Nat}

/-- The machine beside an unshared configuration. When it is not calm it may be waiting for a
thunk that another actor holds. -/
inductive Shares (graph : Heap) (known : Handle → Prop) (evaluator : Evaluator) (calm : Prop) :
    Control → State σ → Config → Prop where
  | runs {reading : Reading} {control : Control} {state : State σ} {config : Config}
      (mirrors : Mirrors graph known reading control state config)
      (holds : Holds state.world.heap evaluator.actor state.stack.items)
      (settled : calm → Calm reading state.world.heap state.stack.items) :
      Shares graph known evaluator calm control state config
  | waits {links : List Handle} {node : Handle} {owner : Actor} {content : Node} {state : State σ} {config : Config}
      (busy : ¬ calm) (held : state.world.heap.lookup node = .ok ⟨.inProgress owner, content⟩)
      (other : owner ≠ evaluator.actor) : Shares graph known evaluator calm (.await links node) state config

-- Nodes were added, and plain frames pushed.
theorem Shares.grown {state' : State σ} {reading' : Reading} (holds : Holds heap evaluator.actor frames)
    (settled : calm → Calm reading heap frames) (grown : Grown graph known reading heap reading' state'.world.heap)
    (items : state'.stack.items = pushed ++ frames) (plain : ∀ frame ∈ pushed, frame.isPlain)
    (mirrors : Mirrors graph known reading' control state' config) :
    Shares graph known evaluator calm control state' config := by
  have unmarked : ∀ node, .update node ∉ pushed := fun node member => nomatch plain _ member
  refine .runs mirrors ?_ fun isCalm => ?_
  · rw [items]
    exact (holds.step fun _ found => grown.kept found).append unmarked
  · rw [items]
    exact (settled isCalm).grown grown pushed

/-! ### Demanding a node -/

section

variable {handle : Handle} {links : List Handle} {closure closure' : Closure} {expr : Expr} {env : Env}
  {holes : List Hole}

/-- The chain ends at a thunk that is free: it is claimed and evaluated. -/
theorem claim_echoes {scope : List Closure} (faithful : Faithful graph known reading state.world.heap)
    (backs : Backs graph known reading (.force closure) [] state.stack.items holes)
    (holds : Holds state.world.heap evaluator.actor state.stack.items)
    (settled : calm → Calm reading state.world.heap state.stack.items)
    (found : Discovers state.world.heap [] handle links node expr env) (read : reading node = some closure')
    (reads : reading.Reads env scope) (code : expr.StaysIn known) (becomes : Becomes graph closure' (.eval expr scope))
    (turns : Turns graph 0 (.force closure) [] (.force closure') [])
    (comes : ∀ link ∈ links, Comes graph reading (.force closure') link) :
    Echoes graph known (Shares graph known evaluator calm) (¬ calm) (.force closure, holes) depth
      (continuing (demandFrom evaluator [] handle) state) := by
  obtain ⟨heap, claims, _, entered⟩ := demandFrom_discovers evaluator found
  rcases enter_cases evaluator links node expr env { state with world := { state.world with heap := heap } } with
    ⟨_, after, ended, items, world⟩ | ⟨_, after, _, ended, _⟩
  · rw [continuing_ok (entered.trans ended)]
    obtain rfl : heap = after.world.heap := by rw [world]
    refine .moved (.runs ⟨?_, .eval reads code, ?_⟩ ?_ fun isCalm => ?_) ((turns holes).trans (becomes holes))
    · refine faithful.rewrites claims rfl fun other read' => ?_
      cases read.symm.trans read'
      exact .thunk (by simp) reads code becomes
    · rw [items]
      exact (backs.turns (turns.trans becomes) rfl).claims ⟨_, read, becomes⟩ fun link member =>
        (comes link member).trans becomes
    · rw [items]
      exact holds.claims claims links
    · rw [items]
      exact (settled isCalm).claims claims (redirection links)
  · rw [continuing_error (entered.trans ended)]
    exact .limited

/-- The chain ends at a thunk in progress. For a calm machine this is one of its own frames, so
the thunk's evaluation has come back to it. -/
theorem held_echoes {owner : Actor} (backs : Backs graph known reading (.force closure) [] state.stack.items holes)
    (holds : Holds state.world.heap evaluator.actor state.stack.items)
    (settled : calm → Calm reading state.world.heap state.stack.items)
    (chain : state.world.heap.followOn [] handle = ⟨links, .at node ⟨.inProgress owner, .thunk expr env⟩⟩)
    (read : reading node = some closure') (turns : Turns graph 0 (.force closure) [] (.force closure') []) :
    Echoes graph known (Shares graph known evaluator calm) (¬ calm) (.force closure, holes) depth
      (continuing (demandFrom evaluator [] handle) state) := by
  have live := (Heap.followOn_at (congrArg Chain.landing chain)).1
  have held := demandFrom_held evaluator chain
  by_cases own : owner = evaluator.actor
  · rw [if_pos own] at held
    rw [continuing_error held]
    by_cases isCalm : calm
    · obtain ⟨_, deeper, read', led⟩ := backs.update (settled isCalm node closure' owner _ read live)
      cases read.symm.trans read'
      exact .stuck ((turns.trans led).endless holes)
    · exact .failed isCalm
  · rw [if_neg own] at held
    have busy : ¬ calm := by
      intro isCalm
      obtain ⟨_, _, held'⟩ := holds.thunk (settled isCalm node closure' owner _ read live)
      cases live.symm.trans held'
      exact own rfl
    rcases startWait_cases evaluator links node state with ⟨fault, failed⟩ | ⟨after, waits, _, entries, _⟩
    · rw [continuing_error (held.trans failed)]
      exact .failed busy
    · rw [continuing_ok (held.trans waits)]
      exact .waits (.waits busy ((Heap.lookup_congr entries node).trans live) own) busy

end

theorem demand_echoes {handle : Handle} (mirrors : Mirrors graph known reading (.force handle) state config)
    (holds : Holds state.world.heap evaluator.actor state.stack.items)
    (settled : calm → Calm reading state.world.heap state.stack.items) :
    Echoes graph known (Shares graph known evaluator calm) (¬ calm) config depth
      (continuing (demandFrom evaluator [] handle) state) := by
  obtain ⟨task, holes⟩ := config
  obtain ⟨faithful, shows, backs⟩ := mirrors
  cases shows with
  | @force _ closure read =>
  have walked := faithful.follow read
  rcases chain : state.world.heap.followOn [] handle with ⟨links, landing⟩
  rw [chain] at walked
  cases walked with
  | lost elsewhere endless =>
    have landed := congrArg Chain.landing chain
    cases landing with
    | «at» target slot => exact absurd rfl (elsewhere target slot)
    | loop node =>
      rw [continuing_error (demandFrom_loop evaluator landed)]
      exact .stuck (endless holes)
    | broken fault =>
      rw [continuing_error (demandFrom_broken evaluator landed)]
      exact .stuck (endless holes)
  | lands lands turns comes =>
    cases lands with
    | @thunk node closure' slotState expr env read' =>
      have live := (Heap.followOn_at (congrArg Chain.landing chain)).1
      cases faithful.live read' live with
      | value denotes _ => cases denotes.whnf
      | thunk pending reads code becomes =>
        cases slotState with
        | evaluated => exact absurd rfl pending
        | unevaluated => exact claim_echoes faithful backs holds settled chain read' reads code becomes turns comes
        | inProgress owner => exact held_echoes backs holds settled chain read' turns
    | @value target node shape denotes =>
      have keeps := (Heap.followOn_at (congrArg Chain.landing chain)).1
      obtain ⟨after, ended, stack, tidies, mirrors, leads⟩ := deliver_mirrors faithful backs denotes keeps turns comes
      rw [continuing_ok ((demandFrom_value evaluator chain (Tag.ne_thunk_of_whnf denotes.whnf)).trans ended)]
      refine .moved (.runs mirrors ?_ fun isCalm => ?_) leads
      · rw [stack]
        exact holds.step fun _ found => (tidies _ _ (by simp [Node.tag])).mpr found
      · rw [stack]
        exact (settled isCalm).tidied mirrors.faithful tidies

/-! ### Markers on top of the stack -/

section

variable {whnf : Whnf} {shape : Shape} {holes : List Hole} {below : Stack Frame} {links : List Handle}

/-- The thunk shows the value from now on, and what waits for it is as before. -/
theorem update_echoes (faithful : Faithful graph known reading state.world.heap)
    (denotes : Denotes known reading whnf.node shape)
    (stored : ∀ handle, whnf.handle? = some handle → state.world.heap.Keeps handle whnf.node)
    (comes : Comes graph reading (.deliver shape) node)
    (backs : Backs graph known reading (.deliver shape) [] below.items holes)
    (holds : Holds state.world.heap evaluator.actor (.update node :: below.items))
    (settled : calm → Calm reading state.world.heap (.update node :: below.items)) (shorter : below.items.length < depth) :
    Echoes graph known (Shares graph known evaluator calm) (¬ calm) (.deliver shape, holes) depth
      (continuing (update evaluator node whnf) { state with stack := below }) := by
  obtain ⟨expr, env, held⟩ := holds.thunk (.head _)
  obtain ⟨after, ended, stack, rewrites, _⟩ := @update_held _ _ _ _ { state with stack := below } whnf held
  obtain ⟨closure, read, becomes⟩ := comes
  have written : Depicts graph known reading state.world.heap closure ⟨.evaluated, (updatePayload node whnf).1⟩ ∧
      after.world.heap.Keeps (updatePayload node whnf).2 whnf.node := by
    rcases updatePayload_cases node whnf with ⟨existing, located, apart, payload⟩ | payload
    · rw [payload] at rewrites ⊢
      refine ⟨.shared (stored existing located) denotes becomes, ?_⟩
      rw [Heap.Keeps, rewrites.lookup, if_neg apart]
      exact stored existing located
    · rw [payload] at rewrites ⊢
      refine ⟨.value denotes becomes, ?_⟩
      rw [Heap.Keeps, rewrites.lookup, if_pos rfl]
  rw [continuing_ok ended]
  refine .popped (.runs ⟨?_, .deliver denotes ?_, ?_⟩ ?_ fun isCalm => ?_) (by rwa [stack])
  · refine faithful.rewrites rewrites rfl fun other read' => ?_
    cases read.symm.trans read'
    exact written.1
  · rintro handle ⟨⟩
    exact written.2
  · rw [stack]
    exact backs
  · rw [stack]
    exact holds.tail.step (spared_of_rewrites rewrites fun other member => holds.apart member)
  · rw [stack]
    exact (settled isCalm).completed rewrites

theorem redirect_echoes (faithful : Faithful graph known reading state.world.heap)
    (denotes : Denotes known reading whnf.node shape)
    (stored : ∀ handle, whnf.handle? = some handle → state.world.heap.Keeps handle whnf.node)
    (comes : ∀ link ∈ links, Comes graph reading (.deliver shape) link)
    (backs : Backs graph known reading (.deliver shape) [] below.items holes)
    (holds : Holds state.world.heap evaluator.actor below.items)
    (settled : calm → Calm reading state.world.heap below.items) (shorter : below.items.length < depth) :
    Echoes graph known (Shares graph known evaluator calm) (¬ calm) (.deliver shape, holes) depth
      (continuing (resume host evaluator (.redirect links) whnf) { state with stack := below }) := by
  cases located : whnf.handle? with
  | none =>
    have ended : resume host evaluator (.redirect links) whnf { state with stack := below } =
        .ok (.deliver whnf) { state with stack := below } := by
      simp only [resume, located]
      rfl
    rw [continuing_ok ended]
    exact .popped (.runs ⟨faithful, .deliver denotes stored, backs⟩ holds settled) shorter
  | some target =>
    have keeps := stored target located
    obtain ⟨after, redirected, stack, faithful', tidies⟩ :=
      @redirectAll_faithful _ _ _ _ _ _ _ { state with stack := below } _ faithful denotes keeps comes
    have ended : resume host evaluator (.redirect links) whnf { state with stack := below } =
        .ok (.deliver whnf) after := by
      simp only [resume, located]
      exact bind_ok redirected
    rw [continuing_ok ended]
    refine .popped (.runs ⟨faithful', .deliver denotes ?_, ?_⟩ ?_ fun isCalm => ?_) (by rwa [stack])
    · intro handle located'
      exact tidies.keeps (stored handle located') denotes.whnf
    · rw [stack]
      exact backs
    · rw [stack]
      exact holds.step fun _ found => (tidies _ _ (by simp [Node.tag])).mpr found
    · rw [stack]
      exact (settled isCalm).tidied faithful' tidies

end

theorem finish_shares {whnf : Whnf} (mirrors : Mirrors graph known reading (.deliver whnf) state config)
    (holds : Holds state.world.heap evaluator.actor state.stack.items)
    (settled : calm → Calm reading state.world.heap state.stack.items)
    (fits : (finish host evaluator whnf state).state.world.heap.Addressable) :
    Echoes graph known (Shares graph known evaluator calm) (¬ calm) config state.stack.items.length
      (finish host evaluator whnf state) := by
  cases popped : state.stack.pop? with
  | none => exact finish_echoes mirrors (Stack.pop?_eq_none.mp popped) fits
  | some top =>
    obtain ⟨frame, below⟩ := top
    have items := Stack.pop?_eq_some popped
    have shorter : below.items.length < state.stack.items.length := by simp [items]
    obtain ⟨task, holes⟩ := config
    obtain ⟨faithful, shows, backs⟩ := mirrors
    rw [items] at holds settled backs
    rw [finish_pops host evaluator whnf popped]
    cases shows with
    | deliver denotes stored =>
      cases backs with
      | marker marks led rest =>
        cases frame with
        | update node =>
          cases marks
          exact update_echoes faithful denotes stored (led node (.head _)) rest holds settled shorter
        | redirect links =>
          cases marks
          refine redirect_echoes faithful denotes stored led rest holds.tail (fun isCalm => ?_) shorter
          exact (settled isCalm).tail nofun
        | _ => cases marks
      | plain fits' rest =>
        refine (resume_reduces faithful denotes fits' rest).echoes fun grown pushes plain mirrors => ?_
        refine Shares.grown holds.tail (fun isCalm => (settled isCalm).tail fun node marker => ?_) grown pushes plain mirrors
        subst marker
        cases fits'

theorem iterate_echoes (shares : Shares graph known evaluator calm control state config)
    (fits : (iterate host evaluator control state).state.world.heap.Addressable) :
    Echoes graph known (Shares graph known evaluator calm) (¬ calm) config state.stack.items.length
      (iterate host evaluator control state) := by
  cases shares with
  | @waits links node owner content _ _ busy held other =>
    have still : ¬ Walks evaluator state (.await links node) links node := by
      rintro ⟨⟩
      rename_i unheld live
      cases live.symm.trans held
      simp [SlotState.heldByOther, other] at unheld
    obtain ⟨_, heap, awaits, _⟩ := resumeWait_still still
    cases ended : resumeWait evaluator links node state with
    | ok next after =>
      rw [ended] at heap
      obtain rfl := awaits next after ended
      have goes : iterate host evaluator (.await links node) state = .ok (.continues (.await links node)) after :=
        continuing_ok ended
      have held' : after.world.heap.lookup node = .ok ⟨.inProgress owner, content⟩ := by
        rw [← held, show after.world.heap = state.world.heap from heap]
      rw [goes]
      exact .waits (.waits busy held' other) busy
    | error fault after =>
      have goes : iterate host evaluator (.await links node) state = .error fault after := continuing_error ended
      rw [goes]
      exact .failed busy
  | @runs reading _ _ _ mirrors holds settled =>
    cases control with
    | await links node => cases mirrors.shows
    | eval expr env =>
      refine Echoes.step (continuing (eval host evaluator expr env)) fits fun stack heap fits => ?_
      rw [continuing_state] at fits
      refine (eval_reduces (mirrors.unmoved stack heap) fits).echoes fun grown items plain mirrors' => ?_
      rw [heap] at grown
      rw [stack] at items
      exact Shares.grown holds settled grown items plain mirrors'
    | force handle =>
      refine Echoes.step (continuing (demandFrom evaluator [] handle)) fits fun stack heap _ => ?_
      exact demand_echoes (mirrors.unmoved stack heap) (by rwa [heap, stack]) (by rwa [heap, stack])
    | deliver whnf =>
      refine Echoes.step (finish host evaluator whnf) fits fun stack heap fits => ?_
      rw [← stack]
      exact finish_shares (mirrors.unmoved stack heap) (by rwa [heap, stack]) (by rwa [heap, stack]) fits

end Machine

end LazyGraph

import LazyGraph.Proofs.Heap.Routes
import LazyGraph.Proofs.Machine.Wraparound
import LazyGraph.Proofs.Session

/-! Where a call ends.

A call walks from its root to the end of a chain. A value there is the result at once. A
thunk is claimed, and its update frame is the last but the frame that collapses the chain;
both stay at the bottom of the stack until the thunk has its value. So the call ends with
the chain pointed at a value that has a slot. -/

set_option autoImplicit false

namespace LazyGraph

theorem Heap.Resolves.live {heap : Heap} {target handle : Handle} (resolves : heap.Resolves target handle) :
    heap.Live handle := by
  cases resolves with
  | here solid =>
    obtain ⟨slot, found, _⟩ := solid
    exact ⟨slot, found⟩
  | link links _ =>
    obtain ⟨state, found⟩ := links
    exact ⟨_, found⟩

theorem Heap.LinksTo.lookup {heap : Heap} {link target : Handle} (links : heap.LinksTo link target)
    (regular : heap.Regular) : heap.lookup link = .ok ⟨.evaluated, .indirection target⟩ := by
  obtain ⟨state, found⟩ := links
  have done : state = .evaluated := by
    by_contra unfinished
    cases (regular.proper found).mpr unfinished
  rw [found, done]

namespace Machine

variable {σ : Type} {host : Host σ} {evaluator : Evaluator} {actor : Actor} {control next : Control}
  {state before after ready reached : State σ} {start heap : Heap} {root target : Handle} {links : List Handle} {count : Nat}

/-! ### Demanding a node -/

theorem redirectAll_points (live : ∀ link ∈ links, state.world.heap.Live link) :
    redirectAll links target state =
      .ok () { state with world := { state.world with heap := state.world.heap.pointAll links target } } := by
  induction links generalizing state with
  | nil => rfl
  | cons link links ih =>
    obtain ⟨⟨slot, found⟩, rest⟩ := List.forall_mem_cons.mp live
    obtain ⟨done, redirected⟩ : ∃ done, Heap.redirect link target state.world.heap =
        .ok done (Heap.redirect link target state.world.heap).state := by
      simp only [Heap.redirect, Heap.transition, found]
      cases slot.redirect target <;> exact ⟨_, rfl⟩
    have first : (do let _ ← onHeap (Heap.redirect link target)) state = .ok () { state with
        world := { state.world with heap := (Heap.redirect link target state.world.heap).state } } :=
      bind_ok (onHeap_ok redirected)
    refine (bind_ok first).trans (ih fun other member => ?_)
    obtain ⟨slot', found'⟩ := rest other member
    have lookup := Heap.lookup_pointAll state.world.heap [link] target other
    rw [found'] at lookup
    show ∃ slot, (state.world.heap.pointAll [link] target).lookup other = .ok slot
    rw [lookup]
    split <;> exact ⟨_, rfl⟩

/-- The links of a chain are live, so each is pointed at the end. -/
theorem collapse_points {slot : Slot} (chain : state.world.heap.followOn [] root = ⟨links, .at target slot⟩) (value : Node) :
    (do redirectAll links target; return .deliver (.stored target value) : MachineM σ Control) state =
      .ok (.deliver (.stored target value))
        { state with world := { state.world with heap := state.world.heap.pointAll links target } } := by
  have live : ∀ link ∈ links, state.world.heap.Live link := by
    intro link member
    obtain ⟨_, _, linked⟩ := (Heap.follow_route chain).linksTo member
    exact ⟨_, linked⟩
  exact bind_ok (redirectAll_points live)

theorem demandFrom_arrives {slotState : SlotState} {value : Node}
    (chain : state.world.heap.followOn [] root = ⟨links, .at target ⟨slotState, value⟩⟩) (isWhnf : value.tag.isWhnf) :
    demandFrom evaluator [] root state = .ok (.deliver (.stored target value))
      { state with world := { state.world with heap := state.world.heap.pointAll links target } } :=
  (demandFrom_value evaluator chain (Tag.ne_thunk_of_whnf isWhnf)).trans (collapse_points chain value)

/-- What demanding a node leads to: its thunk is claimed, its value is found, or another
actor holds it. -/
inductive Demands (actor : Actor) (before after : State σ) (root : Handle) : Control → Prop where
  | claims {node : Handle} {links : List Handle} {expr : Expr} {env : Env}
      (found : Discovers before.world.heap [] root links node expr env)
      (claims : Claims actor before.world.heap after.world.heap node expr env)
      (stack : after.stack.items = .update node :: redirection links ++ before.stack.items) :
      Demands actor before after root (.eval expr env)
  | arrives {target : Handle} {links : List Handle} {value : Node}
      (chain : before.world.heap.followOn [] root = ⟨links, .at target ⟨.evaluated, value⟩⟩) (isWhnf : value.tag.isWhnf)
      (heap : after.world.heap = before.world.heap.pointAll links target) (stack : after.stack.items = before.stack.items) :
      Demands actor before after root (.deliver (.stored target value))
  | blocks {node : Handle} {links : List Handle} {owner : Actor} {content : Node} (other : owner ≠ actor)
      (heap : after.world.heap.entries = before.world.heap.entries) (stack : after.stack.items = before.stack.items)
      (held : after.world.heap.lookup node = .ok ⟨.inProgress owner, content⟩) :
      Demands actor before after root (.await links node)

/-- The chain from the root is pointed at the value it leads to. -/
theorem Demands.of_value {slot : Slot} (regular : before.world.heap.Regular) (stack : ready.stack = before.stack)
    (same : ready.world.heap = before.world.heap) (chain : ready.world.heap.followOn [] root = ⟨links, .at target slot⟩)
    (isWhnf : slot.node.tag.isWhnf)
    (ended : (do
      redirectAll links target
      return .deliver (.stored target slot.node) : MachineM σ Control) ready = .ok next after) :
    Demands evaluator.actor before after root next := by
  have found := (Heap.followOn_at (congrArg Chain.landing chain)).1
  rw [collapse_points chain] at ended
  cases ended
  obtain ⟨slotState, content⟩ := slot
  obtain rfl : slotState = .evaluated := (regular.proper (same ▸ found)).done (Tag.ne_thunk_of_whnf isWhnf)
  refine .arrives (same ▸ chain) isWhnf ?_ (congrArg Stack.items stack)
  simp only [same]

theorem Demands.of_enter {heap : Heap} {node : Handle} {expr : Expr} {env : Env} (stack : ready.stack = before.stack)
    (same : ready.world.heap = before.world.heap) (found : Discovers ready.world.heap [] root links node expr env)
    (claims : Claims evaluator.actor ready.world.heap heap node expr env)
    (ended : enter evaluator links node expr env { ready with world := { ready.world with heap := heap } } = .ok next after) :
    Demands evaluator.actor before after root next := by
  rcases enter_cases evaluator links node expr env { ready with world := { ready.world with heap := heap } } with
    ⟨_, entered, enters, items, world⟩ | ⟨_, _, _, refused, _⟩
  · cases ended.symm.trans enters
    refine .claims (same ▸ found) ?_ ?_
    · rw [world, ← same]
      exact claims
    · rw [items, stack]
  · cases ended.symm.trans refused

theorem demandFrom_demands (regular : before.world.heap.Regular) (stack : ready.stack = before.stack)
    (same : ready.world.heap = before.world.heap) (ended : demandFrom evaluator [] root ready = .ok next after) :
    Demands evaluator.actor before after root next := by
  have demands := demandFrom_cases evaluator [] root ready
  rw [ended] at demands
  generalize result : EStateM.Result.ok next after = answer at demands
  cases demands with
  | broken | loop | own => cases result
  | claims found _ claims _ => exact .of_enter stack same found claims result.symm
  | @waits links node owner expr env chain other =>
    rcases startWait_cases evaluator links node ready with ⟨_, refused⟩ | ⟨_, granted, stack', entries, _⟩
    · cases result.trans refused
    · cases result.trans granted
      have found := (Heap.followOn_at (congrArg Chain.landing chain)).1
      exact .blocks other (same ▸ entries) (congrArg Stack.items (stack'.trans stack))
        ((Heap.lookup_congr entries node).trans found)
  | stuck chain =>
    have found := (Heap.followOn_at (congrArg Chain.landing chain)).1
    exact absurd rfl ((regular.proper (same ▸ found)).mp rfl)
  | value chain isWhnf => exact .of_value regular stack same chain isWhnf result.symm

/-! ### From the first demand to the result -/

structure Landed (start heap : Heap) (root target : Handle) : Prop where
  arrives : root = target ∨ heap.LinksTo root target
  collapses : ∀ link ∈ (start.follow root).links, heap.LinksTo link target

inductive Stage (start : Heap) (actor : Actor) (root : Handle) (heap : Heap) : Control → List Frame → Prop where
  -- another actor holds the thunk at the end
  | waiting {links : List Handle} {node : Handle} {owner : Actor} {content : Node} (other : owner ≠ actor)
      (held : heap.lookup node = .ok ⟨.inProgress owner, content⟩) : Stage start actor root heap (.await links node) []
  | owing {control : Control} {links : List Handle} {node : Handle} {slot : Slot} (above : List Frame)
      (chain : start.follow root = ⟨links, .at node slot⟩) :
      Stage start actor root heap control (above ++ .update node :: redirection links)
  | collapsing {target node : Handle} {value : Node} {links : List Handle} {slot : Slot}
      (chain : start.follow root = ⟨links, .at node slot⟩) (begins : root ∈ links) :
      Stage start actor root heap (.deliver (.stored target value)) [.redirect links]
  | landed {target : Handle} {value : Node} (landed : Landed start heap root target) :
      Stage start actor root heap (.deliver (.stored target value)) []

theorem root_of_chain {node : Handle} {slot : Slot} (chain : heap.follow root = ⟨links, .at node slot⟩) :
    links = [] ∧ root = node ∨ root ∈ links := by
  cases Heap.follow_route chain with
  | here => exact .inl ⟨rfl, rfl⟩
  | link _ _ => exact .inr (.head _)

theorem links_of_chain {node link : Handle} {slot : Slot} (settles : start.Settles heap)
    (chain : start.follow root = ⟨links, .at node slot⟩) (member : link ∈ links) : ∃ next, heap.LinksTo link next := by
  obtain ⟨_, _, found⟩ := (Heap.follow_route chain).linksTo member
  obtain ⟨⟨slotState, content⟩, found', assigns⟩ := settles.kept.live found
  have isLink := (assigns.link rfl).1
  cases content with
  | indirection next => exact ⟨next, slotState, found'⟩
  | _ => cases isLink

theorem Landed.of_pointAll {node : Handle} {slot : Slot} (settles : start.Settles heap)
    (chain : start.follow root = ⟨links, .at node slot⟩) (arrives : root = target ∨ root ∈ links) :
    Landed start (heap.pointAll links target) root target := by
  have pointed : ∀ link ∈ links, (heap.pointAll links target).LinksTo link target := by
    intro link member
    obtain ⟨next, slotState, found⟩ := links_of_chain settles chain member
    exact ⟨slotState, by rw [Heap.lookup_pointAll, if_pos member, found]; rfl⟩
  refine ⟨arrives.imp_right (pointed root), ?_⟩
  rw [chain]
  exact pointed

theorem Demands.stage (demands : Demands actor before after root next) (idle : before.stack.items = [])
    (regular : before.world.heap.Regular) :
    Stage before.world.heap actor root after.world.heap next after.stack.items := by
  cases demands with
  | claims found claims stack =>
    rw [stack, idle, List.append_nil]
    exact .owing [] found
  | arrives chain isWhnf heap stack =>
    rw [stack, idle, heap]
    exact .landed (.of_pointAll (.refl regular.free) chain ((root_of_chain chain).imp_left And.right))
  | blocks other _ stack held =>
    rw [stack, idle]
    exact .waiting other held

theorem iterate_blocked {node : Handle} {owner : Actor} {content : Node} {progress : Progress} (other : owner ≠ evaluator.actor)
    (held : before.world.heap.lookup node = .ok ⟨.inProgress owner, content⟩)
    (stepped : iterate host evaluator (.await links node) before = .ok progress after) :
    progress = .continues (.await links node) ∧ after.stack = before.stack ∧ after.world.heap = before.world.heap := by
  have still : ¬ Walks evaluator before (.await links node) links node := by
    intro walks
    cases walks with
    | await _ live unheld =>
      cases held.symm.trans live
      simp [SlotState.heldByOther, other] at unheld
  obtain ⟨stack, heap, waits, _⟩ := resumeWait_still still
  obtain ⟨next, rfl, ended⟩ := continuing_eq_ok.mp stepped
  rw [ended] at stack heap
  exact ⟨congrArg Progress.continues (waits _ _ ended), stack, heap⟩

/-- The update frame at the bottom takes the value, and the chain is left. -/
theorem update_stage {whnf : Whnf} {node : Handle} {slot : Slot} (poised : Poised start evaluator (.deliver whnf) before)
    (chain : start.follow root = ⟨links, .at node slot⟩) (items : before.stack.items = .update node :: redirection links)
    (stepped : iterate host evaluator (.deliver whnf) before = .ok (.continues next) after) :
    Stage start evaluator.actor root after.world.heap next after.stack.items := by
  obtain ⟨ready, stack, heap, going⟩ := step_ok stepped
  obtain ⟨rest, popped, restItems⟩ := Stack.pop?_of_items ((congrArg Stack.items stack).trans items)
  rw [finish_pops host evaluator whnf popped] at going
  have marked : .update node ∈ before.stack.items := by simp [items]
  obtain ⟨expr, env, held⟩ := poised.held.thunk marked
  obtain ⟨after', ended, stack', rewrites, _⟩ :=
    @update_held _ evaluator node _ { ready with stack := rest } whnf (heap ▸ held)
  cases (continuing_inv going).symm.trans ended
  rw [stack', restItems]
  rcases root_of_chain chain with ⟨rfl, rfl⟩ | begins
  · refine .landed ⟨?_, by simp [chain]⟩
    rcases updatePayload_cases root whnf with ⟨existing, _, _, payload⟩ | payload
    · rw [payload] at rewrites ⊢
      exact .inr ⟨.evaluated, by rw [rewrites.lookup, if_pos rfl]⟩
    · rw [payload]
      exact .inl rfl
  · have frame : redirection links = [.redirect links] := by
      cases links with
      | nil => cases begins
      | cons link links => rfl
    rw [frame]
    exact .collapsing chain begins

theorem Transition.owing {motion : HeapMotion} {above bottom : List Frame}
    (transition : Transition motion evaluator before control (.ok (.continues next) after))
    (items : before.stack.items = above ++ bottom) (busy : (∀ whnf, control ≠ .deliver whnf) ∨ above ≠ []) :
    ∃ above', after.stack.items = above' ++ bottom := by
  have popped : ∀ {whnf frame rest}, control = .deliver whnf → before.stack.pop? = some (frame, rest) →
      ∃ above', rest.items = above' ++ bottom := by
    intro whnf frame rest delivers popped
    cases above with
    | nil =>
      cases busy with
      | inl other => exact absurd delivers (other whnf)
      | inr some => exact absurd rfl some
    | cons first above =>
      rw [Stack.pop?_eq_some popped] at items
      exact ⟨above, (List.cons.inj items).2⟩
  cases transition with
  | worked _ _ works =>
    obtain ⟨pushed, _, pushes⟩ := works.stack
    exact ⟨pushed ++ above, by rw [List.append_assoc, ← items]; exact pushes⟩
  | claimed _ _ _ stack => exact ⟨_ ++ above, by rw [List.append_assoc, ← items]; exact stack⟩
  | finished _ final _ _ => exact absurd rfl (final _ _)
  | resumed top _ _ works =>
    obtain ⟨pushed, _, pushes⟩ := works.stack
    obtain ⟨above', rest⟩ := popped rfl top
    exact ⟨pushed ++ above', by rw [List.append_assoc, ← rest]; exact pushes⟩
  | completed top stack _ =>
    rw [stack]
    exact popped rfl top

theorem Stage.step (keeps : host.KeepsTo Heap.Advances) (poised : Poised start evaluator control before)
    (stage : Stage start evaluator.actor root before.world.heap control before.stack.items)
    (stepped : iterate host evaluator control before = .ok (.continues next) after) :
    Stage start evaluator.actor root after.world.heap next after.stack.items := by
  generalize items : before.stack.items = frames at stage
  cases stage with
  | waiting other held =>
    obtain ⟨waits, stack, heap⟩ := iterate_blocked other held stepped
    cases waits
    rw [stack, items]
    exact .waiting other (heap ▸ held)
  | @owing _ links node slot above chain =>
    by_cases bottom : above = [] ∧ ∃ whnf, control = .deliver whnf
    · obtain ⟨rfl, whnf, rfl⟩ := bottom
      exact update_stage poised chain items stepped
    · have follows : host.Follows growing := fun fn operands world => (keeps fn operands world).grows
      have transition := iterate_transition follows evaluator control before
      rw [stepped] at transition
      obtain ⟨above', items'⟩ := transition.owing items (by
        by_cases empty : above = []
        · exact .inl fun whnf delivers => bottom ⟨empty, whnf, delivers⟩
        · exact .inr empty)
      rw [items']
      exact .owing above' chain
  | @collapsing target _ value links _ chain begins =>
    obtain ⟨ready, stack, heap, going⟩ := step_ok stepped
    obtain ⟨rest, popped, restItems⟩ := Stack.pop?_of_items ((congrArg Stack.items stack).trans items)
    rw [finish_pops host evaluator _ popped] at going
    have live : ∀ link ∈ links, ready.world.heap.Live link := by
      intro link member
      obtain ⟨_, _, found⟩ := links_of_chain (heap ▸ poised.settles) chain member
      exact ⟨_, found⟩
    have collapsed : resume host evaluator (.redirect links) (.stored target value) { ready with stack := rest } = .ok _ _ :=
      bind_ok (redirectAll_points live)
    cases (continuing_inv going).symm.trans collapsed
    have settles : start.Settles ready.world.heap := heap ▸ poised.settles
    rw [restItems]
    exact .landed (.of_pointAll settles chain (.inr begins))
  | landed landed =>
    obtain ⟨ready, stack, heap, going⟩ := step_ok stepped
    obtain ⟨frame, rest, popped, _⟩ := finish_continues going
    cases (Stack.pop?_eq_none.mpr ((congrArg Stack.items stack).trans items)).symm.trans popped

/-- A call that is finished has landed, with nothing left to do. -/
theorem Stage.finished (keeps : host.KeepsTo Heap.Advances)
    (stage : Stage start evaluator.actor root before.world.heap control before.stack.items)
    (stepped : iterate host evaluator control before = .ok (.finished target) after) :
    Landed start before.world.heap root target ∧ (∃ value, control = .deliver (.stored target value)) ∧
      after.stack.items = [] ∧ after.world.heap = before.world.heap := by
  generalize items : before.stack.items = frames at stage
  have follows : host.Follows growing := fun fn operands world => (keeps fn operands world).grows
  have transition := iterate_transition follows evaluator control before
  rw [stepped] at transition
  have empty : before.stack.items = [] := by
    cases transition with
    | worked _ unfinished _ => exact absurd rfl (unfinished _ _)
    | finished empty _ _ _ => exact empty
    | resumed _ _ unfinished _ => exact absurd rfl (unfinished _ _)
  cases stage with
  | waiting other held =>
    obtain ⟨waits, _⟩ := iterate_blocked other held stepped
    cases waits
  | owing above chain =>
    rw [empty] at items
    simp at items
  | collapsing chain begins => cases empty.symm.trans items
  | landed landed =>
    obtain ⟨ready, stack, heap, going⟩ := step_ok stepped
    have popped : ready.stack.pop? = none := Stack.pop?_eq_none.mpr ((congrArg Stack.items stack).trans items)
    unfold finish at going
    rw [bind_ok (rfl : (get : MachineM σ (State σ)) ready = .ok ready ready), popped] at going
    cases going
    exact ⟨landed, ⟨_, rfl⟩, (congrArg Stack.items stack).trans items, heap⟩

theorem iterations_stage (keeps : host.KeepsTo Heap.Advances) (regular : state.world.heap.Regular)
    (idle : state.stack.items = [])
    (standing : iterations host evaluator (.force root) (begin evaluator state) (count + 1) = some (control, reached))
    (fits : reached.world.heap.Addressable) :
    Stage state.world.heap evaluator.actor root reached.world.heap control reached.stack.items := by
  induction count generalizing control reached with
  | zero =>
    obtain ⟨first, before, begins, stepped⟩ := iterations_succ standing
    cases begins
    obtain ⟨ready, stack, heap, going⟩ := step_ok stepped
    have demands := @demandFrom_demands _ _ _ (begin evaluator state) _ _ _ regular stack heap (continuing_inv going)
    exact demands.stage idle regular
  | succ count ih =>
    obtain ⟨middle, before, earlier, stepped⟩ := iterations_succ standing
    have grows := iterate_grows keeps evaluator middle before
    rw [stepped] at grows
    have fits' : before.world.heap.Addressable := fits.mono grows
    exact (ih earlier fits').step keeps (iterations_poised keeps regular (.begin regular idle root) earlier fits') stepped

/-- A call that returns has landed on a value, by a last transition that finds it in its slot. -/
theorem force_lands (keeps : host.KeepsTo Heap.Advances) (regular : state.world.heap.Regular) (idle : state.stack.items = [])
    {fuel : Nat} (ended : force host evaluator fuel root state = some (.ok target, after))
    (fits : after.world.heap.Addressable) :
    ∃ count reached value,
      iterations host evaluator (.force root) (begin evaluator state) count = some (.deliver (.stored target value), reached) ∧
      iterate host evaluator (.deliver (.stored target value)) reached = .ok (.finished target) after ∧
      after.world.heap = reached.world.heap ∧ after.stack.items = [] ∧ value.tag.isWhnf ∧
      after.world.heap.lookup target = .ok ⟨.evaluated, value⟩ ∧
      Landed state.world.heap after.world.heap root target ∧ after.world.heap.Regular := by
  obtain ⟨count, control, reached, standing, ends⟩ := iterations_of_run (force_eq_ok.mp ended)
  have finishes := Progress.outcome?_eq_ok ends
  cases count with
  | zero =>
    cases standing
    obtain ⟨ready, _, _, going⟩ := step_ok finishes
    exact absurd going (continuing_unfinished _ _ _ _)
  | succ count =>
    have grows := iterate_grows keeps evaluator control reached
    rw [finishes] at grows
    have fits' : reached.world.heap.Addressable := fits.mono grows
    have poised := iterations_poised keeps regular (.begin regular idle root) standing fits'
    obtain ⟨landed, ⟨value, rfl⟩, empty, heap⟩ := (iterations_stage keeps regular idle standing fits').finished keeps finishes
    obtain ⟨isWhnf, stored⟩ := poised.sound
    refine ⟨_, reached, value, standing, finishes, heap, empty, isWhnf, ?_⟩
    rw [heap]
    exact ⟨stored _ rfl, landed, poised.settles.regular regular⟩

/-- A call that returns leaves its root and the whole chain from it one hop from the result,
which is a value in a slot; the last transition finds it there and changes no slot. Host
functions may use the heap meanwhile. -/
theorem force_collapses_chain (uses : host.KeepsTo Heap.Uses) (regular : state.world.heap.Regular)
    (idle : state.stack.items = []) {fuel : Nat} {result : Handle}
    (ended : force host evaluator fuel root state = some (.ok result, after)) (fits : after.world.heap.Addressable) :
    ∃ value, value.tag.isWhnf ∧ after.world.heap.lookup result = .ok ⟨.evaluated, value⟩ ∧
      after.world.heap.resolve root = .ok result ∧
      (root = result ∨ after.world.heap.lookup root = .ok ⟨.evaluated, .indirection result⟩) ∧
      (∀ link ∈ (state.world.heap.follow root).links,
        after.world.heap.lookup link = .ok ⟨.evaluated, .indirection result⟩) ∧
      ∃ count reached,
        iterations host evaluator (.force root) (begin evaluator state) count = some (.deliver (.stored result value), reached) ∧
        iterate host evaluator (.deliver (.stored result value)) reached = .ok (.finished result) after ∧
        after.world.heap = reached.world.heap := by
  have keeps : host.KeepsTo Heap.Advances := fun fn operands world => (uses fn operands world).advances
  obtain ⟨count, reached, value, standing, finishes, heap, _, isWhnf, stored, landed, regular'⟩ :=
    force_lands keeps regular idle ended fits
  have solid : after.world.heap.Solid result := ⟨_, stored, Tag.ne_indirection_of_whnf isWhnf⟩
  refine ⟨value, isWhnf, stored, ?_, ?_, ?_, count, reached, standing, finishes, heap⟩
  · rcases landed.arrives with rfl | links
    · exact Heap.resolve_iff.mpr (.here solid)
    · exact Heap.resolve_iff.mpr (.link links (.here solid))
  · exact landed.arrives.imp_right fun links => links.lookup regular'
  · exact fun link member => (landed.collapses link member).lookup regular'

/-! ### A chain to a shared value -/

-- The thunk at index 2 stands for a value that lives elsewhere, and is two links away.
def chainNodes : List Node :=
  [.data 1 "Box" [], .indirection ⟨0, 0⟩, .thunk ⟨0, .var 0⟩ [⟨1, 0⟩], .indirection ⟨2, 0⟩, .indirection ⟨3, 0⟩]

def worldOf (nodes : List Node) : World Unit :=
  { Moment.sessionStart with heap := .ofNodes nodes }

theorem worldOf_regular (nodes : List Node) (fits : (worldOf nodes).heap.Addressable) : (worldOf nodes).heap.Regular :=
  Heap.ofNodes_regular nodes fits

theorem chainCall_ends :
    ∃ after, force failingHost Moment.sessionEvaluator 9 ⟨4, 0⟩ ⟨.empty, 0, none, worldOf chainNodes⟩ =
        some (.ok ⟨0, 0⟩, after) ∧
      (worldOf chainNodes).heap.capacity = 5 ∧ after.world.heap.capacity = 5 ∧
      ((worldOf chainNodes).heap.follow ⟨4, 0⟩).links = [⟨4, 0⟩, ⟨3, 0⟩] := by
  have computed : (force failingHost Moment.sessionEvaluator 9 ⟨4, 0⟩ ⟨.empty, 0, none, worldOf chainNodes⟩).map
      (fun (result, after) => (result, (worldOf chainNodes).heap.capacity, after.world.heap.capacity,
        ((worldOf chainNodes).heap.follow ⟨4, 0⟩).links)) = some (.ok ⟨0, 0⟩, 5, 5, [⟨4, 0⟩, ⟨3, 0⟩]) := by
    decide +kernel
  obtain ⟨⟨result, after⟩, ended, facts⟩ := Option.map_eq_some_iff.mp computed
  simp only [Prod.mk.injEq] at facts
  obtain ⟨rfl, capacity, capacity', links⟩ := facts
  exact ⟨after, ended, capacity, capacity', links⟩

theorem force_collapses_chain_shared :
    ∃ after, force failingHost Moment.sessionEvaluator 9 ⟨4, 0⟩ ⟨.empty, 0, none, worldOf chainNodes⟩ =
        some (.ok ⟨0, 0⟩, after) ∧
      after.world.heap.resolve ⟨4, 0⟩ = .ok ⟨0, 0⟩ ∧
      after.world.heap.lookup ⟨4, 0⟩ = .ok ⟨.evaluated, .indirection ⟨0, 0⟩⟩ ∧
      after.world.heap.lookup ⟨3, 0⟩ = .ok ⟨.evaluated, .indirection ⟨0, 0⟩⟩ := by
  obtain ⟨after, ended, capacity, capacity', links⟩ := chainCall_ends
  have regular : (worldOf chainNodes).heap.Regular :=
    worldOf_regular chainNodes (by rw [Heap.Addressable, capacity]; decide)
  have fits : after.world.heap.Addressable := by
    rw [Heap.Addressable, capacity']
    decide
  obtain ⟨_, _, _, resolved, _, collapsed, _⟩ :=
    force_collapses_chain Moment.failingHost_uses regular rfl ended fits
  rw [show ((worldOf chainNodes).heap.follow ⟨4, 0⟩).links = [⟨4, 0⟩, ⟨3, 0⟩] from links] at collapsed
  exact ⟨after, ended, resolved, collapsed _ (.head _), collapsed _ (.tail _ (.head _))⟩

/-- A link in the first slot is overwritten by the content of the box that it leads to. -/
theorem force_loses_link {box : Handle} (full : state.world.heap.Full) (idle : state.stack.items = [])
    (linked : state.world.heap.LinksTo ⟨0, 0⟩ box) (apart : box ≠ ⟨0, 0⟩)
    (found : state.world.heap.lookup box = .ok ⟨.unevaluated, .thunk wrapping []⟩) :
    ∃ after, force host ⟨actor, {}, none⟩ 5 ⟨0, 0⟩ state = some (.ok box, after) ∧
      after.world.heap.lookup ⟨0, 0⟩ = .ok ⟨.unevaluated, wrapped⟩ := by
  obtain ⟨slotState, first⟩ := linked
  have discovers : Discovers state.world.heap [] ⟨0, 0⟩ [⟨0, 0⟩] box wrapping [] :=
    (Heap.Route.link ⟨slotState, first⟩ .here).follow found (by simp [Node.tag])
  obtain ⟨reached, standing, unhurried, items, lookup⟩ :=
    @force_wraps σ host actor state ⟨0, 0⟩ box [⟨0, 0⟩] _ full first idle discovers
  have held : reached.world.heap.lookup box = .ok ⟨.inProgress actor, .thunk wrapping []⟩ := by
    rw [lookup, if_neg apart, if_pos rfl]
  obtain ⟨stored, stores, unhurried', items', lookup'⟩ := @iterate_stores σ host actor reached box _ unhurried items held
  have lost : stored.world.heap.lookup ⟨0, 0⟩ = .ok (.ofNode wrapped) := by
    rw [lookup', if_neg (Ne.symm apart), lookup, if_pos rfl]
  obtain ⟨below, popped, empty⟩ := Stack.pop?_of_items (show (begun stored).stack.items = [.redirect [⟨0, 0⟩]] from items')
  let passing : State σ := { begun stored with stack := below }
  have refused : Heap.redirect ⟨0, 0⟩ box passing.world.heap = .ok false passing.world.heap := by
    simp [Heap.redirect, Heap.transition, show passing.world.heap.lookup ⟨0, 0⟩ = _ from lost, Slot.redirect, Slot.ofNode, wrapped]
  have nothing : (do let _ ← onHeap (Heap.redirect ⟨0, 0⟩ box) : MachineM σ Unit) passing = .ok () passing :=
    bind_ok (onHeap_ok refused)
  have stays : redirectAll [⟨0, 0⟩] box passing = .ok () passing := bind_ok nothing
  have passes : resume host ⟨actor, {}, none⟩ (.redirect [⟨0, 0⟩]) (.stored box wrapper) passing =
      .ok (.deliver (.stored box wrapper)) passing := bind_ok stays
  have redirects : iterate host ⟨actor, {}, none⟩ (.deliver (.stored box wrapper)) stored =
      .ok (.continues (.deliver (.stored box wrapper))) passing :=
    (unlimited_begins _ _ unhurried').trans ((finish_pops host _ _ popped).trans (continuing_ok passes))
  have returns := @iterate_returns σ host actor passing box unhurried' empty wrapper
  have standing' : iterations host ⟨actor, {}, none⟩ (.force ⟨0, 0⟩) (begin ⟨actor, {}, none⟩ state) 4 =
      some (.deliver (.stored box wrapper), passing) := by
    rw [iterations, iterations, standing]
    simp only [stores, redirects]
  exact ⟨begun passing, force_eq_ok.mpr (run_of_iterations standing' (congrArg Progress.outcome? returns)), lost⟩

/-- On a heap with a slot for each word a call may return a result to which its root does not lead. -/
theorem force_leaves_root :
    ∃ (heap : Heap) (after : State Unit), heap.Brims [.indirection ⟨1, 0⟩, .thunk wrapping []] ∧ heap.Regular ∧
      force failingHost Moment.sessionEvaluator 5 ⟨0, 0⟩ (idleOn heap) = some (.ok ⟨1, 0⟩, after) ∧
      after.world.heap.lookup ⟨0, 0⟩ = .ok ⟨.unevaluated, wrapped⟩ ∧ after.world.heap.resolve ⟨0, 0⟩ = .ok ⟨0, 0⟩ := by
  obtain ⟨heap, brims, -⟩ :=
    @Heap.exists_brims (fun _ => True) [.indirection ⟨1, 0⟩, .thunk wrapping []] trivial fun _ _ _ _ => trivial
  obtain ⟨after, ended, lost⟩ := @force_loses_link Unit failingHost ⟨1⟩ (idleOn heap) ⟨1, 0⟩ brims.full rfl
    ⟨_, brims.lookup 0⟩ (by decide) (brims.lookup 1)
  have solid : after.world.heap.Solid ⟨0, 0⟩ := ⟨_, lost, by simp [wrapped, Node.tag]⟩
  exact ⟨heap, after, brims, brims.regular, ended, lost, Heap.resolve_iff.mpr (.here solid)⟩

end Machine

end LazyGraph

import LazyGraph.Proofs.Ledger.NodeLimit
import LazyGraph.Proofs.Machine.StepEffects
import LazyGraph.Proofs.Machine.Upkeep

/-! Steps that do what is expected of them unless a limit stops them.

Who demands a value finds it, who demands a free thunk claims it, and a marker takes the value
that is delivered to it. The node limit is never changed, and waits are noted only by who goes
on to wait. -/

set_option autoImplicit false

namespace LazyGraph

theorem Heap.alloc_maxNodes (node : Node) (heap : Heap) : (alloc node heap).state.maxNodes = heap.maxNodes := by
  rcases alloc_cases node heap with ⟨handle, after, granted, _⟩ | ⟨limit, refused⟩
  · obtain ⟨opened, opens, closes⟩ := alloc_eq_group granted
    have closed : (closeGroup 1 [handle] [node] opened).state.maxNodes = opened.maxNodes := maxNodes_closeGroup _ _
    rw [closes] at closed
    rw [granted]
    exact closed.trans (maxNodes_openGroup opens)
  · rw [refused]
    rfl

theorem Heap.allocGroup_maxNodes (count : UInt64) (build : List Handle → Heap → List Node × Heap)
    (leaves : ∀ handles heap, (build handles heap).2 = heap) (heap : Heap) :
    (allocGroup count build heap).state.maxNodes = heap.maxNodes := by
  unfold allocGroup
  split
  · rfl
  · rcases openGroup_cases count heap with ⟨handles, opened, opens, _⟩ | ⟨limit, refused⟩
    · have built : (modifyGet (build handles) : HeapM (List Node)) opened = .ok (build handles opened).1 opened :=
        congrArg (EStateM.Result.ok _) (leaves handles opened)
      have closed : (closeGroup count handles (build handles opened).1 opened).state.maxNodes = opened.maxNodes :=
        maxNodes_closeGroup _ _
      rw [bind_ok opens, bind_ok built]
      cases closes : closeGroup count handles (build handles opened).1 opened with
      | ok _ after =>
        rw [closes] at closed
        rw [bind_ok closes]
        exact closed.trans (maxNodes_openGroup opens)
      | error fault after =>
        rw [closes] at closed
        rw [bind_error closes]
        exact closed.trans (maxNodes_openGroup opens)
    · rw [bind_error refused]
      rfl

instance : Upkeep (fun before after : Heap => after.maxNodes = before.maxNodes) where
  refl _ := rfl
  trans early late := late.trans early
  alloc := Heap.alloc_maxNodes
  allocGroup := Heap.allocGroup_maxNodes
  transition handle change _ := Heap.maxNodes_transition handle change
  noted _ _ _ := rfl

instance : Pathway (fun before after : Heap => after.waits = before.waits) where
  refl _ := rfl
  trans early late := late.trans early
  alloc node heap := by
    rcases Heap.alloc_cases node heap with ⟨handle, after, granted, enlarges⟩ | ⟨limit, refused⟩
    · rw [granted]
      exact enlarges.waits
    · rw [refused]
      rfl
  allocGroup count build leaves heap := by
    rcases Heap.allocGroup_cases count build heap with ⟨_, none⟩ | ⟨limit, refused⟩ | ⟨handles, opened, _, opens, ended⟩
    · rw [none]
      rfl
    · rw [refused]
      rfl
    · rw [leaves] at ended
      rcases ended with ⟨after, _, granted, filled⟩ | ⟨fault, after, _, refused, dropped⟩
      · rw [granted]
        exact filled.waits.trans opens.waits
      · rw [refused]
        exact dropped.waits.trans opens.waits

namespace Machine

variable {σ : Type} {host : Host σ} {evaluator : Evaluator} {control next : Control} {state after : State σ}
  {root node target : Handle} {links : List Handle} {rest : List Frame}

def Halts (host : Host σ) (evaluator : Evaluator) (control : Control) (state : State σ) : Prop :=
  ∃ limit after, iterate host evaluator control state = .error (.exhausted limit) after

theorem eval_begins (host : Host σ) (evaluator : Evaluator) (state : State σ) (expr : Expr) (env : Env) :
    Halts host evaluator (.eval expr env) state ∨
      ∃ ready, ready.stack.items = state.stack.items ∧ ready.world.heap = state.world.heap ∧
        iterate host evaluator (.eval expr env) state = continuing (eval host evaluator expr env) ready := by
  rcases step_cases evaluator (.eval expr env) (continuing (eval host evaluator expr env)) state with
    ⟨limit, refused⟩ | ⟨_, ready, stack, heap, going⟩
  · exact .inl ⟨limit, _, refused⟩
  · exact .inr ⟨ready, congrArg Stack.items stack, heap, going⟩

theorem force_arrives (host : Host σ) (evaluator : Evaluator) {slotState : SlotState} {value : Node}
    (chain : state.world.heap.followOn [] root = ⟨links, .at target ⟨slotState, value⟩⟩) (isWhnf : value.tag.isWhnf) :
    Halts host evaluator (.force root) state ∨
      ∃ after, iterate host evaluator (.force root) state = .ok (.continues (.deliver (.stored target value))) after ∧
        after.stack.items = state.stack.items ∧ after.world.heap = state.world.heap.pointAll links target := by
  rcases step_cases evaluator (.force root) (continuing (demand evaluator root)) state with
    ⟨limit, refused⟩ | ⟨_, ready, stack, heap, going⟩
  · exact .inl ⟨limit, _, refused⟩
  · have demanded : demand evaluator root ready = .ok (.deliver (.stored target value))
        { ready with world := { ready.world with heap := ready.world.heap.pointAll links target } } :=
      demandFrom_arrives (heap ▸ chain) isWhnf
    refine .inr ⟨_, going.trans (continuing_ok demanded), congrArg Stack.items stack, ?_⟩
    exact congrArg (Heap.pointAll · links target) heap

theorem force_claims (host : Host σ) (evaluator : Evaluator) {expr : Expr} {env : Env}
    (found : Discovers state.world.heap [] root links node expr env) :
    Halts host evaluator (.force root) state ∨
      ∃ after, iterate host evaluator (.force root) state = .ok (.continues (.eval expr env)) after ∧
        after.stack.items = .update node :: redirection links ++ state.stack.items ∧
        Claims evaluator.actor state.world.heap after.world.heap node expr env := by
  rcases step_cases evaluator (.force root) (continuing (demand evaluator root)) state with
    ⟨limit, refused⟩ | ⟨_, ready, stack, heap, going⟩
  · exact .inl ⟨limit, _, refused⟩
  · obtain ⟨claimed, claims, _, enters⟩ := demandFrom_discovers evaluator (heap ▸ found : Discovers ready.world.heap [] root links node expr env)
    rcases enter_cases evaluator links node expr env { ready with world := { ready.world with heap := claimed } } with
      ⟨_, after, entered, items, world⟩ | ⟨_, after, _, refused, _⟩
    · refine .inr ⟨after, going.trans (continuing_ok (enters.trans entered)), by rw [items, stack], ?_⟩
      rw [world, ← heap]
      exact claims
    · exact .inl ⟨_, after, going.trans (continuing_error (enters.trans refused))⟩

theorem deliver_resumes (host : Host σ) (evaluator : Evaluator) (whnf : Whnf) {frame : Frame}
    (top : state.stack.items = frame :: rest) :
    Halts host evaluator (.deliver whnf) state ∨
      ∃ ready, ready.stack.items = rest ∧ ready.world.heap = state.world.heap ∧
        iterate host evaluator (.deliver whnf) state = continuing (resume host evaluator frame whnf) ready := by
  rcases step_cases evaluator (.deliver whnf) (finish host evaluator whnf) state with
    ⟨limit, refused⟩ | ⟨_, ready, stack, heap, going⟩
  · exact .inl ⟨limit, _, refused⟩
  · obtain ⟨below, popped, items⟩ := Stack.pop?_of_items (stack ▸ top)
    exact .inr ⟨{ ready with stack := below }, items, heap, going.trans (finish_pops host evaluator whnf popped)⟩

theorem deliver_completes (host : Host σ) (evaluator : Evaluator) (whnf : Whnf) {old : Node}
    (top : state.stack.items = .update node :: rest)
    (held : state.world.heap.lookup node = .ok ⟨.inProgress evaluator.actor, old⟩) :
    Halts host evaluator (.deliver whnf) state ∨
      ∃ after, iterate host evaluator (.deliver whnf) state =
          .ok (.continues (.deliver (.stored (updatePayload node whnf).2 whnf.node))) after ∧
        after.stack.items = rest ∧ state.world.heap.Rewrites after.world.heap node ⟨.inProgress evaluator.actor, old⟩
          ⟨.evaluated, (updatePayload node whnf).1⟩ := by
  refine (deliver_resumes host evaluator whnf top).imp_right ?_
  rintro ⟨ready, items, heap, going⟩
  obtain ⟨after, written, stack, rewrites, _⟩ := @update_held _ evaluator node old ready whnf (heap ▸ held)
  exact ⟨after, going.trans (continuing_ok written), by rw [stack, items], heap ▸ rewrites⟩

theorem deliver_collapses (host : Host σ) (evaluator : Evaluator) (value : Node)
    (top : state.stack.items = .redirect links :: rest) (live : ∀ link ∈ links, state.world.heap.Live link) :
    Halts host evaluator (.deliver (.stored target value)) state ∨
      ∃ after, iterate host evaluator (.deliver (.stored target value)) state =
          .ok (.continues (.deliver (.stored target value))) after ∧
        after.stack.items = rest ∧ after.world.heap = state.world.heap.pointAll links target := by
  refine (deliver_resumes host evaluator (.stored target value) top).imp_right ?_
  rintro ⟨ready, items, heap, going⟩
  have pointed : resume host evaluator (.redirect links) (.stored target value) ready = .ok _ _ :=
    bind_ok (redirectAll_points (heap ▸ live))
  exact ⟨_, going.trans (continuing_ok pointed), items, congrArg (Heap.pointAll · links target) heap⟩

theorem iterate_waits (untouched : host.KeepsTo Eq) {start : Heap} (regular : start.Regular)
    (poised : Poised start evaluator control state) (active : ∀ links node, control ≠ .await links node)
    (busy : ∀ links node, next ≠ .await links node)
    (stepped : iterate host evaluator control state = .ok (.continues next) after) (fits : after.world.heap.Addressable) :
    after.world.heap.waits = state.world.heap.waits := by
  have keeps : host.KeepsTo (fun before after : Heap => after.waits = before.waits) := keepsTo_of_untouched untouched
  have deed := iterate_deed untouched regular poised active stepped fits
  have pointed : ∀ {links target}, after.world.heap = state.world.heap.pointAll links target →
      after.world.heap.waits = state.world.heap.waits := by
    intro links target heap
    rw [heap]
    exact (Heap.pointAll_rest _ _ _).1
  cases deed with
  | works quiet _ _ _ =>
    cases control with
    | eval expr env =>
      obtain ⟨ready, _, heap, going⟩ := step_ok stepped
      have works := eval_works keeps evaluator expr env ready
      rw [continuing_inv going] at works
      exact works.heap.trans (congrArg Heap.waits heap)
    | deliver whnf =>
      cases items : state.stack.items with
      | nil =>
        rw [items] at quiet
        exact quiet.elim
      | cons frame rest =>
        rw [items] at quiet
        rcases deliver_resumes host evaluator whnf items with ⟨limit, _, refused⟩ | ⟨ready, _, heap, going⟩
        · cases stepped.symm.trans refused
        · have works := resume_plain_works keeps evaluator quiet whnf ready
          rw [continuing_inv (going.symm.trans stepped)] at works
          exact works.heap.trans (congrArg Heap.waits heap)
    | force handle => exact quiet.elim
    | await links node => exact quiet.elim
  | @claims root node links expr env found _ _ =>
    obtain ⟨ready, _, heap, going⟩ := step_ok stepped
    obtain ⟨claimed, _, waits, enters⟩ := demandFrom_discovers evaluator (heap ▸ found : Discovers ready.world.heap [] root links node expr env)
    rcases enter_cases evaluator links node expr env { ready with world := { ready.world with heap := claimed } } with
      ⟨_, after', entered, _, world⟩ | ⟨_, after', _, refused, _⟩
    · cases (continuing_inv going).symm.trans (enters.trans entered)
      rw [world]
      exact waits.trans (congrArg Heap.waits heap)
    · cases (continuing_inv going).symm.trans (enters.trans refused)
  | arrives _ _ heap _ => exact pointed heap
  | collapses _ _ heap _ => exact pointed heap
  | @completes whnf node rest expr env top rewrites _ =>
    rcases deliver_resumes host evaluator whnf top with ⟨limit, _, refused⟩ | ⟨ready, _, heap, going⟩
    · cases stepped.symm.trans refused
    · obtain ⟨after', written, _, _, waits⟩ := @update_held _ evaluator node _ ready whnf (heap ▸ rewrites.found)
      cases (continuing_inv (going.symm.trans stepped)).symm.trans written
      exact waits.trans (congrArg Heap.waits heap)
  | blocks _ _ _ _ => exact absurd rfl (busy _ _)

end Machine

end LazyGraph

import LazyGraph.Proofs.Machine.Unwinding
import LazyGraph.Proofs.Parallel.Demand

/-! What becomes of an evaluator among others.

An evaluator goes from one standing to the next until it returns the value that its root comes
to, or meets a limit. Then it hands its thunks back; whoever waits for them can claim them. -/

set_option autoImplicit false

namespace LazyGraph.Parallel

open Unshared Machine

variable {σ α : Type} {host : Host σ} {evaluator : Evaluator} {graph : Heap} {known : Handle → Prop}
  {account account' : Account} {state : State σ} {actor : Actor} {shape value : Shape} {before after heap : Heap}
  {node handle : Handle} {frames : List Frame} {control : Control} {whnf : Whnf} {pace : Pace}

/-! ### Plans -/

def Returned (known : Handle → Prop) (shape : Shape) (account : Account) (heap : Heap) (handle : Handle) : Prop :=
  ∃ node, heap.settled.Keeps handle node ∧ Denotes known account.reading node shape

theorem Returned.later (returned : Returned known shape account before handle)
    (minds : Minds actor account before account' after) : Returned known shape account' after handle := by
  obtain ⟨node, keeps, denotes⟩ := returned
  exact ⟨node, minds.keeps denotes.whnf keeps, denotes.mono minds.wider⟩

/-- Where a plan ends: the evaluator goes on from there, or has its result. -/
def Reaches (graph : Heap) (known : Handle → Prop) (actor : Actor) (shape : Shape) :
    Pace ⊕ Handle → Account → State σ → Prop
  | .inl pace, account, state => Standing graph known actor shape account state pace
  | .inr handle, account, state => Returned known shape account state.world.heap handle

theorem begins_sure {gives : α → Account → State σ → Prop} {next : Unit → Plan σ α}
    (holds : Holds state.world.heap actor state.stack.items) (sure : Sure graph known actor gives (next ()) account state) :
    Sure graph known actor gives (.act (do tick evaluator; trace evaluator control) next) account state := by
  refine Sure.limited holds fun account' state' later => ?_
  have reached := tick_state evaluator state'
  cases ticked : tick evaluator state' with
  | error fault refused =>
    rw [ticked] at reached
    cases reached
    obtain ⟨limit, rfl⟩ := tick_refused ticked
    exact .inr ⟨limit, _, bind_error ticked, rfl, rfl⟩
  | ok _ granted =>
    rw [ticked] at reached
    cases reached
    obtain ⟨ready, traced, stack, heap⟩ := trace_state evaluator control (begun state')
    have same : ready.world.heap = state'.world.heap := heap
    refine .inl ⟨(), ready, (bind_ok ticked).trans traced, same, sure.later ⟨?_, ?_, stack.trans later.stack⟩⟩
    · exact same ▸ later.sound
    · exact same ▸ later.minds

/-- The value is handed to the top frame; without one, it is the result. -/
theorem finish_sure (standing : Standing graph known evaluator.actor shape account state (.turn (.deliver whnf))) :
    Sure graph known evaluator.actor (Reaches graph known evaluator.actor shape) (finish host evaluator whnf)
      account state := by
  show Sure _ _ _ _ (.act pop (receive host evaluator whnf)) _ _
  intro account₁ state₁ later₁ _
  have standing₁ := standing.later later₁
  cases standing₁ with
  | @turn _ task holes shows working unwaiting =>
  cases shows with
  | @deliver _ value denotes stored =>
  cases popped : state₁.stack.pop? with
  | some top =>
    obtain ⟨frame, below⟩ := top
    have pops : pop state₁ = .ok (some frame) { state₁ with stack := below } := by simp only [pop, popped]
    rw [pops]
    refine ⟨account₁, .same later₁.sound rfl, ?_⟩
    have items : state₁.stack.items = frame :: below.items := Stack.pop?_eq_some popped
    rw [items] at working
    refine Sure.bind later₁.sound (resume_sure later₁.sound denotes stored working unwaiting) ?_
    exact fun control account₂ state₂ _ standing account₃ state₃ later₃ => standing.later later₃
  | none =>
    have empty : state₁.stack.items = [] := Stack.pop?_eq_none.mp popped
    have pops : pop state₁ = .ok none state₁ := by simp only [pop, popped]
    rw [pops]
    refine ⟨account₁, .same later₁.sound rfl, ?_⟩
    have backs := working.backs
    rw [empty] at backs
    cases backs
    have ends := working.ends
    obtain ⟨_, whole⟩ := ends
    cases whole.unique .done
    cases located : whnf.handle? with
    | some handle =>
      simp only [receive, located]
      intro account₂ state₂ later₂
      have returned : Returned known shape account₁ state₁.world.heap handle := ⟨whnf.node, stored handle located, denotes⟩
      exact returned.later later₂.minds
    | none =>
      simp only [receive, located]
      intro account₂ state₂ later₂ fits
      rcases Heap.alloc_cases whnf.node state₂.world.heap with ⟨handle, after, allocated, enlarges⟩ | ⟨limit, refused⟩
      · simp only [onHeap_ok allocated] at fits ⊢
        obtain ⟨sound₃, minds₃⟩ := later₂.sound.alloc allocated fits (.refl _) fun _ _ read => .inl read
        refine ⟨account₂, ⟨sound₃, fun other _ => minds₃ other, enlarges.registry⟩, fun account₄ state₄ later₄ => ?_⟩
        have returned : Returned known shape account₂ after handle := by
          refine ⟨whnf.node, (Heap.keeps_settled denotes.whnf).mpr ⟨.evaluated, ?_⟩, denotes.mono later₂.minds.wider⟩
          rw [← Slot.ofNode_of_whnf denotes.whnf]
          exact alloc_filled later₂.sound.free allocated fits
        exact returned.later later₄.minds
      · simp only [onHeap_error refused]
        refine ⟨⟨_, rfl⟩, ?_, account₂, .same later₂.sound rfl⟩
        exact later₂.holds working.holds

theorem plan_sure (sound : Sound graph known account state.world.heap)
    (standing : Standing graph known evaluator.actor shape account state pace) :
    Sure graph known evaluator.actor (Reaches graph known evaluator.actor shape) (plan host evaluator pace) account state := by
  cases standing with
  | onward read comes working unwaiting =>
    refine Sure.bind sound (walk_sure (.onward read comes working unwaiting)) ?_
    exact fun _ _ _ _ standing _ _ later => standing.later later
  | landed keeps denotes comes working unwaiting =>
    refine Sure.bind sound (walk_sure (.landed keeps denotes comes working unwaiting)) ?_
    exact fun _ _ _ _ standing _ _ later => standing.later later
  | awaits read comes working =>
    refine Sure.bind sound (resumeWait_sure working read comes) ?_
    exact fun _ _ _ _ standing _ _ later => standing.later later
  | turn shows working unwaiting =>
    cases shows with
    | @eval expr env _ reads code =>
      refine begins_sure working.holds ?_
      show Sure _ _ _ _ (do return Sum.inl (Pace.turn (← eval host evaluator expr env))) _ _
      refine Sure.bind sound (eval_sure sound reads code working unwaiting) ?_
      exact fun _ _ _ _ standing _ _ later => standing.later later
    | force read =>
      refine begins_sure working.holds fun account' state' later => ?_
      exact Standing.later (.onward read (List.forall_mem_nil _) working unwaiting) later
    | deliver denotes stored =>
      exact begins_sure working.holds (finish_sure (.turn (.deliver denotes stored) working unwaiting))

/-! ### Unwinding -/

theorem release_sound {expr : Expr} {env : Env} (sound : Sound graph known account before)
    (rewrites : before.Rewrites after node ⟨.inProgress actor, .thunk expr env⟩ ⟨.unevaluated, .thunk expr env⟩)
    (waits : after.waits = before.waits) :
    Sound graph known account after ∧ ∀ other, other ≠ actor → Minds other account before account after := by
  have faithful : Faithful graph known account.reading after.settled := by
    refine sound.faithful.rewrites rewrites.settled (by rw [Slot.node_settled]; rfl) fun closure read => ?_
    have depicts := sound.faithful.live read (Heap.lookup_settled_of_ok rewrites.found)
    rw [Slot.settled_of_thunk rfl] at depicts ⊢
    cases depicts with
    | thunk _ reads code becomes => exact .thunk (by simp) reads code becomes
  refine ⟨sound.rewrites rewrites faithful waits (fun _ => rfl) (by simp), fun other apart => ?_⟩
  refine ⟨.rewrites sound.free rewrites ⟨fun expr' env' held => ?_, by simp, id, fun _ => rfl⟩ waits, rfl⟩
  cases held
  exact absurd rfl apart

theorem release_ok {content : Node} (found : heap.lookup node = .ok ⟨.inProgress actor, content⟩) :
    Heap.release node actor heap = .ok true (heap.put node.index.toNat ⟨.unevaluated, content⟩).notify := by
  have released : Heap.transition node (Slot.release actor) heap =
      .ok true (heap.put node.index.toNat ⟨.unevaluated, content⟩) := by
    simp [Heap.transition, found, Slot.release]
  exact bind_ok released

theorem releaseAll_sure (released : Nat) (holds : Holds state.world.heap actor frames) :
    Sure graph known actor (fun _ _ _ => True) (releaseAll actor frames released) account state := by
  induction frames generalizing account state released with
  | nil => exact fun _ _ _ => trivial
  | cons frame frames ih =>
    cases frame with
    | update node =>
      intro account' state' later _
      have holds' : Holds state'.world.heap actor (.update node :: frames) := holds.step fun _ found => later.minds.held found
      obtain ⟨expr, env, found⟩ := holds'.thunk (.head _)
      have rewrites : state'.world.heap.Rewrites (state'.world.heap.put node.index.toNat ⟨.unevaluated, .thunk expr env⟩).notify
          node ⟨.inProgress actor, .thunk expr env⟩ ⟨.unevaluated, .thunk expr env⟩ := Heap.put_rewrites found rfl rfl
      obtain ⟨sound, minds⟩ := release_sound later.sound rewrites rfl
      have acted : (tryCatch (onHeap (Heap.release node actor)) fun _ => pure false : MachineM σ Bool) state' =
          .ok true { state' with world := { state'.world with
            heap := (state'.world.heap.put node.index.toNat ⟨.unevaluated, .thunk expr env⟩).notify } } := by
        show EStateM.tryCatch (onHeap (Heap.release node actor)) (fun _ => pure false) state' = _
        rw [EStateM.tryCatch, onHeap_ok (release_ok found)]
      rw [acted]
      refine ⟨account', ⟨sound, minds, rfl⟩, ih _ ?_⟩
      exact holds'.tail.step (spared_of_rewrites rewrites fun other member => holds'.apart member)
    | _ => exact ih released holds.tail

theorem unwind_sure {fault : Fault} (holds : Holds state.world.heap evaluator.actor frames) :
    Sure graph known evaluator.actor (fun _ _ _ => True) (unwind evaluator fault frames) account state := by
  have plan : unwind evaluator fault frames =
      (.act (modifyWorld fun world => { world with heap := world.heap.endWait evaluator.actor }) fun _ => do
        let released ← releaseAll evaluator.actor frames 0
        .once (modify fun state => { state with
          stack := .empty
          world := state.world.record (.aborted evaluator.actor state.steps fault released) }) : Plan σ Unit) := rfl
  rw [plan]
  intro account₁ state₁ later₁ _
  obtain ⟨sound₂, minds₂⟩ := endWait_sound later₁.sound evaluator.actor
  refine ⟨account₁, ⟨sound₂, minds₂, rfl⟩, Sure.bind sound₂ (releaseAll_sure 0 ?_) ?_⟩
  · exact holds.step fun _ found => later₁.minds.held found
  · exact fun released _ _ _ _ account₃ _ later₃ _ => ⟨account₃, .same later₃.sound rfl, fun _ _ _ => trivial⟩

/-! ### Threads -/

/-- What the thread is at, beside the evaluation that ends with the shape. -/
def Thread.Stands (graph : Heap) (known : Handle → Prop) (shape : Shape) (account : Account) (world : World σ)
    (thread : Thread σ) : Prop :=
  match thread.activity with
  | .reducing rest =>
    Sure graph known thread.evaluator.actor (Reaches graph known thread.evaluator.actor shape) rest account (thread.state world)
  | .unwinding fault rest =>
    (∃ limit, fault = .exhausted limit) ∧
      Sure graph known thread.evaluator.actor (fun _ _ _ => True) rest account (thread.state world)
  | .ended (.ok handle) => Returned known shape account world.heap handle
  | .ended (.error fault) => ∃ limit, fault = .exhausted limit

theorem Thread.Stands.later {thread : Thread σ} {world world' : World σ}
    (stands : thread.Stands graph known shape account world) (sound : Sound graph known account' world'.heap)
    (minds : Minds thread.evaluator.actor account world.heap account' world'.heap) :
    thread.Stands graph known shape account' world' := by
  have later : Later graph known thread.evaluator.actor account (thread.state world) account' (thread.state world') :=
    ⟨sound, minds, rfl⟩
  unfold Stands at stands ⊢
  cases activity : thread.activity with
  | reducing rest =>
    simp only [activity] at stands ⊢
    exact stands.later later
  | unwinding fault rest =>
    simp only [activity] at stands ⊢
    exact ⟨stands.1, stands.2.later later⟩
  | ended outcome =>
    simp only [activity] at stands ⊢
    cases outcome with
    | ok handle => exact Returned.later stands minds
    | error fault => exact stands

theorem Thread.Stands.acts {thread : Thread σ} {world : World σ} (stands : thread.Stands graph known shape account world)
    (sound : Sound graph known account world.heap) (fits : (thread.act host world).2.heap.Addressable) :
    ∃ account', Fair graph known thread.evaluator.actor account world.heap account' (thread.act host world).2.heap ∧
      (thread.act host world).1.Stands graph known shape account' (thread.act host world).2 ∧
      (thread.act host world).1.evaluator = thread.evaluator := by
  have still : ∀ {thread' : Thread σ}, thread'.Stands graph known shape account world → thread'.evaluator = thread.evaluator →
      ∃ account', Fair graph known thread.evaluator.actor account world.heap account' world.heap ∧
        thread'.Stands graph known shape account' world ∧ thread'.evaluator = thread.evaluator :=
    fun stands same => ⟨account, .same sound rfl, stands, same⟩
  have here : Later graph known thread.evaluator.actor account (thread.state world) account (thread.state world) := .refl sound
  obtain ⟨evaluator, stack, steps, deadline, activity⟩ := thread
  cases activity with
  | reducing rest =>
    cases rest with
    | ended reached =>
      have reaches := stands account _ here
      cases reached with
      | inl pace => exact still (plan_sure sound reaches) rfl
      | inr handle => exact still reaches rfl
    | act action next =>
      unfold act at fits ⊢
      simp only at fits ⊢
      have achieves := stands account _ here
      cases acted : action (state ⟨evaluator, stack, steps, deadline, .reducing (.act action next)⟩ world) with
      | ok value after =>
        simp only [acted] at fits achieves ⊢
        obtain ⟨account', fair, sure⟩ := achieves fits
        exact ⟨account', fair, sure, rfl⟩
      | error fault after =>
        simp only [acted] at fits achieves ⊢
        obtain ⟨limited, holds, account', fair⟩ := achieves fits
        exact ⟨account', fair, ⟨limited, unwind_sure holds⟩, rfl⟩
  | unwinding fault rest =>
    obtain ⟨limited, sure⟩ := stands
    cases rest with
    | ended _ => exact still limited rfl
    | act action next =>
      unfold act at fits ⊢
      simp only at fits ⊢
      have achieves := sure account _ here
      cases acted : action (state ⟨evaluator, stack, steps, deadline, .unwinding fault (.act action next)⟩ world) with
      | ok value after =>
        simp only [acted] at fits achieves ⊢
        obtain ⟨account', fair, sure⟩ := achieves fits
        exact ⟨account', fair, ⟨limited, sure⟩, rfl⟩
      | error other after =>
        simp only [acted] at fits achieves ⊢
        obtain ⟨_, _, account', fair⟩ := achieves fits
        exact ⟨account', fair, limited, rfl⟩
  | ended outcome => exact still stands rfl

end LazyGraph.Parallel

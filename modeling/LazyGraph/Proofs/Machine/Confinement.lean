import LazyGraph.Proofs.Heap.Confinement
import LazyGraph.Proofs.Machine.Assignment
import LazyGraph.Proofs.Machine.Contract

/-! Evaluation that stays in a region of the heap. -/

set_option autoImplicit false

namespace LazyGraph

/-! ### Frames and actions that stay in a region -/

-- What is evaluated of the operands is only read.
def Operands.StaysIn (region : Handle → Prop) (operands : Operands) : Prop :=
  ∀ expr ∈ operands.pending, ClosureIn region expr operands.env

def Callee.IsPrimitive : Callee → Prop
  | .primitive _ => True
  | .host _ => False

def Frame.StaysIn (region : Handle → Prop) : Frame → Prop
  | .update node => region node
  | .redirect handles | .apply handles => ∀ handle ∈ handles, region handle
  | .call callee operands => callee.IsPrimitive ∧ operands.StaysIn region
  | .choose alternatives otherwise env =>
    (∀ handle ∈ env, region handle) ∧ (∀ alternative ∈ alternatives, alternative.body.StaysIn region) ∧
      ∀ body, otherwise = some body → body.StaysIn region
  | .seq next env => ClosureIn region next env

structure Whnf.StaysIn (region : Handle → Prop) (whnf : Whnf) : Prop where
  node : whnf.node.StaysIn region
  place : ∀ handle, whnf.handle? = some handle → region handle

def Control.StaysIn (region : Handle → Prop) : Control → Prop
  | .eval expr env => ClosureIn region expr env
  | .force handle => region handle
  | .deliver whnf => whnf.StaysIn region
  | .await links node => (∀ link ∈ links, region link) ∧ region node

def Progress.StaysIn (region : Handle → Prop) : Progress → Prop
  | .continues control => control.StaysIn region
  | .finished result => region result

variable {region : Handle → Prop}

theorem Node.StaysIn.fields {node : Node} (stays : node.StaysIn region) :
    ∀ field ∈ Machine.scrutineeFields node, region field := by
  cases node with
  | data ordinal name fields => exact stays.references
  | _ => exact nofun

namespace Machine

variable {σ α β : Type} {start : Heap} {needs needs' : Prop} {gives : α → Prop} {between : β → Prop}

/-! ### Contracts -/

structure Enclosed (start : Heap) (region : Handle → Prop) (state : State σ) : Prop where
  heap : start.Confined region state.world.heap
  frames : ∀ frame ∈ state.stack.items, frame.StaysIn region

-- How a computation may end; a fault leaves frames to be unwound.
def Remains (start : Heap) (region : Handle → Prop) (gives : α → Prop) : EStateM.Result Fault (State σ) α → Prop
  | .ok value after => Enclosed start region after ∧ gives value
  | .error _ after => Enclosed start region after

/-- Where `needs` holds, the computation stays in the region and gives what `gives` says; the
heap never loses slots. -/
structure Confines (start : Heap) (region : Handle → Prop) (needs : Prop) (computation : MachineM σ α)
    (gives : α → Prop) : Prop where
  grows : ∀ state, state.world.heap.capacity ≤ (computation state).state.world.heap.capacity
  remains : needs → ∀ {state}, Enclosed start region state → (computation state).state.world.heap.Addressable →
    Remains start region gives (computation state)

namespace Confines

theorem pure {value : α} (given : needs → gives value) :
    Confines start region needs (Pure.pure value : MachineM σ α) gives where
  grows := fun _ => Nat.le_refl _
  remains := fun needed _ enclosed _ => ⟨enclosed, given needed⟩

theorem throw {fault : Fault} : Confines start region needs (MonadExcept.throw fault : MachineM σ α) gives where
  grows := fun _ => Nat.le_refl _
  remains := fun _ _ enclosed _ => enclosed

theorem settle {outcome : Except Fault α} (given : needs → ∀ value, outcome = .ok value → gives value) :
    Confines start region needs (Machine.settle (σ := σ) outcome) gives := by
  cases outcome with
  | ok value => exact .pure fun needed => given needed value rfl
  | error fault => exact .throw

theorem weaken {computation : MachineM σ α} (confines : Confines start region needs computation gives)
    (implies : needs' → needs) : Confines start region needs' computation gives where
  grows := confines.grows
  remains := fun needed => confines.remains (implies needed)

theorem bind {first : MachineM σ β} {next : β → MachineM σ α} (early : Confines start region needs first between)
    (late : ∀ value, Confines start region (between value ∧ needs) (next value) gives) :
    Confines start region needs (first >>= next) gives where
  grows := by
    intro state
    have grows := early.grows state
    cases ended : first state with
    | ok value middle =>
      rw [bind_ok ended]
      rw [ended] at grows
      exact Nat.le_trans grows ((late value).grows middle)
    | error fault middle =>
      rw [bind_error ended]
      rw [ended] at grows
      exact grows
  remains := by
    intro needed state enclosed fits
    cases ended : first state with
    | ok value middle =>
      rw [bind_ok ended] at fits ⊢
      have fits' := fits.mono ((late value).grows middle)
      have reached := early.remains needed enclosed (ended ▸ fits')
      rw [ended] at reached
      exact (late value).remains ⟨reached.2, needed⟩ reached.1 fits
    | error fault middle =>
      rw [bind_error ended] at fits ⊢
      have reached := early.remains needed enclosed (ended ▸ fits)
      rw [ended] at reached
      exact reached

theorem mapM {f : β → MachineM σ α} (items : List β)
    (each : ∀ item ∈ items, Confines start region needs (f item) gives) :
    Confines start region needs (items.mapM f) fun values => ∀ value ∈ values, gives value := by
  induction items with
  | nil => exact .pure fun _ => nofun
  | cons head tail ih =>
    rw [List.mapM_cons]
    have rest := ih fun item member => each item (.tail _ member)
    refine (each head (.head _)).bind fun first => (rest.weaken And.right).bind fun values => .pure ?_
    rintro ⟨every, here, _⟩
    exact List.forall_mem_cons.mpr ⟨here, every⟩

theorem forM {f : β → MachineM σ PUnit} (items : List β)
    (each : ∀ item ∈ items, Confines start region needs (f item) fun _ => True) :
    Confines start region needs (items.forM f) fun _ => True := by
  induction items with
  | nil => exact .pure fun _ => trivial
  | cons head tail ih =>
    have rest := ih fun item member => each item (.tail _ member)
    exact (each head (.head _)).bind fun _ => rest.weaken And.right

/-- A computation that changes neither the frames nor the slots. -/
theorem idle {computation : MachineM σ α}
    (entries : ∀ state, (computation state).state.world.heap.entries = state.world.heap.entries)
    (free : ∀ state, (computation state).state.world.heap.free = state.world.heap.free)
    (stack : ∀ state, (computation state).state.stack = state.stack)
    (given : needs → ∀ {state value after}, Enclosed start region state → computation state = .ok value after →
      gives value) : Confines start region needs computation gives where
  grows := fun state => Nat.le_of_eq (congrArg Array.size (entries state).symm)
  remains := by
    intro needed state enclosed _
    have enclosed' : Enclosed start region (computation state).state :=
      ⟨enclosed.heap.of_entries (entries state) (free state), (stack state).symm ▸ enclosed.frames⟩
    cases ended : computation state with
    | ok value after =>
      rw [ended] at enclosed'
      exact ⟨enclosed', given needed enclosed ended⟩
    | error fault after =>
      rw [ended] at enclosed'
      exact enclosed'

end Confines

theorem onHeap_confines {operation : HeapM α} (grows : ∀ heap, heap.capacity ≤ (operation heap).state.capacity)
    (confined : needs → ∀ {heap}, start.Confined region heap → (operation heap).state.Addressable →
      start.Confined region (operation heap).state ∧ ∀ value after, operation heap = .ok value after → gives value) :
    Confines start region needs (onHeap (σ := σ) operation) gives where
  grows := by
    intro state
    have grows := grows state.world.heap
    cases ended : operation state.world.heap with
    | ok value heap =>
      rw [ended] at grows
      rw [onHeap_ok ended]
      exact grows
    | error fault heap =>
      rw [ended] at grows
      rw [onHeap_error ended]
      exact grows
  remains := by
    intro needed state enclosed fits
    cases ended : operation state.world.heap with
    | ok value heap =>
      rw [onHeap_ok ended] at fits ⊢
      obtain ⟨confined', given⟩ := confined needed enclosed.heap (ended ▸ fits)
      rw [ended] at confined'
      exact ⟨⟨confined', enclosed.frames⟩, given value heap ended⟩
    | error fault heap =>
      rw [onHeap_error ended] at fits ⊢
      obtain ⟨confined', _⟩ := confined needed enclosed.heap (ended ▸ fits)
      rw [ended] at confined'
      exact ⟨confined', enclosed.frames⟩

/-! ### Frames and slots -/

theorem push_confines (evaluator : Evaluator) (frame : Frame) :
    Confines start region (frame.StaysIn region) (push (σ := σ) evaluator frame) fun _ => True where
  grows := by
    intro state
    unfold push
    split <;> exact Nat.le_refl _
  remains := by
    intro stays state enclosed _
    unfold push
    split
    · exact enclosed
    · exact ⟨⟨enclosed.heap, List.forall_mem_cons.mpr ⟨stays, enclosed.frames⟩⟩, trivial⟩

theorem claim_confines (node : Handle) (actor : Actor) :
    Confines start region (region node) (onHeap (σ := σ) (Heap.claim node actor)) fun _ => True :=
  onHeap_confines (fun heap => Nat.le_of_eq (Heap.capacity_transition _ _ heap).symm) fun inside _ confined _ =>
    ⟨confined.claim inside actor, fun _ _ _ => trivial⟩

theorem complete_confines (node : Handle) (actor : Actor) (payload : Node) :
    Confines start region (region node ∧ payload.StaysIn region)
      (onHeap (σ := σ) (Heap.complete node actor payload)) fun _ => True :=
  onHeap_confines (fun heap => Nat.le_of_eq (Heap.capacity_complete _ _ _ heap).symm) fun needed _ confined _ =>
    ⟨confined.complete needed.1 needed.2 actor, fun _ _ _ => trivial⟩

theorem redirect_confines (link target : Handle) :
    Confines start region (region link ∧ region target) (onHeap (σ := σ) (Heap.redirect link target)) fun _ => True :=
  onHeap_confines (fun heap => Nat.le_of_eq (Heap.capacity_transition _ _ heap).symm) fun needed _ confined _ =>
    ⟨confined.redirect needed.1 needed.2, fun _ _ _ => trivial⟩

theorem redirectAll_confines (links : List Handle) (target : Handle) :
    Confines start region ((∀ link ∈ links, region link) ∧ region target) (redirectAll (σ := σ) links target)
      fun _ => True :=
  .forM links fun link member =>
    ((redirect_confines link target).weaken fun needed => ⟨needed.1 link member, needed.2⟩).bind fun _ =>
      .pure fun _ => trivial

theorem beginWait_confines (actor : Actor) (node : Handle) :
    Confines start region needs (onHeap (σ := σ) (Heap.beginWait actor node)) fun _ => True := by
  refine onHeap_confines (fun heap => Nat.le_of_eq ?_) fun _ _ confined _ =>
    ⟨confined.beginWait actor node, fun _ _ _ => trivial⟩
  unfold Heap.beginWait
  split <;> rfl

theorem getHeap_confines : Confines start region needs (getHeap (σ := σ)) (start.Confined region) :=
  .idle (fun _ => rfl) (fun _ => rfl) (fun _ => rfl) fun _ _ _ _ enclosed ended => by
    cases ended
    exact enclosed.heap

theorem modifyWorld_confines {change : World σ → World σ}
    (entries : ∀ world, (change world).heap.entries = world.heap.entries)
    (free : ∀ world, (change world).heap.free = world.heap.free) :
    Confines start region needs (modifyWorld change) fun _ => True :=
  .idle (fun state => entries state.world) (fun state => free state.world) (fun _ => rfl) fun _ _ _ _ _ _ => trivial

theorem record_confines (event : Event) : Confines start region needs (record (σ := σ) event) fun _ => True :=
  modifyWorld_confines (fun _ => rfl) fun _ => rfl

theorem checkInterruption_confines (evaluator : Evaluator) :
    Confines start region needs (checkInterruption (σ := σ) evaluator) fun _ => True := by
  refine .idle (fun state => ?_) (fun state => ?_) (fun state => ?_) fun _ _ _ _ _ _ => trivial
  all_goals rw [checkInterruption_state]

/-! ### Suspending, binding and calling -/

theorem deliver_confines {node : Node} (given : needs → node.StaysIn region) :
    Confines start region needs (deliver (σ := σ) node) (Control.StaysIn region) :=
  .pure fun needed => ⟨given needed, nofun⟩

theorem select_confines (alternatives : List (Alternative Expr)) (otherwise : Option Expr) (env : Env)
    (scrutinee : Node) :
    Confines start region ((Frame.choose alternatives otherwise env).StaysIn region ∧ scrutinee.StaysIn region)
      (settle (σ := σ) (select alternatives otherwise env scrutinee)) (Control.StaysIn region) := by
  refine .settle ?_
  rintro ⟨⟨inside, each, default⟩, stays⟩ control selected
  unfold select at selected
  split at selected
  · cases selected
    exact ⟨inside, default _ rfl⟩
  · obtain ⟨ordinal, _, chosen⟩ := ok_of_bind selected
    clear selected
    split at chosen
    · rename_i found _
      have body := each _ (List.mem_of_find?_eq_some found)
      simp only at chosen
      split at chosen
      · cases chosen
        exact ⟨List.forall_mem_append.mpr ⟨inside, stays.fields⟩, body⟩
      · cases chosen
    · cases chosen
      exact ⟨inside, default _ rfl⟩
    · cases chosen

section Fresh

variable (fresh : ∀ handle, ¬ start.Live handle → region handle)

include fresh

theorem alloc_confines (node : Node) :
    Confines start region (node.StaysIn region) (onHeap (σ := σ) (Heap.alloc node)) region := by
  refine onHeap_confines (growing.alloc node) fun stays heap confined fits => ?_
  rcases Heap.alloc_cases node heap with ⟨handle, after, ended, enlarges⟩ | ⟨limit, refused⟩
  · rw [ended] at fits ⊢
    obtain ⟨free, gains⟩ := enlarges.result fits confined.free
    refine ⟨confined.gains gains free fresh fun member => ?_, ?_⟩
    · cases List.mem_singleton.mp member
      exact stays
    · rintro _ _ ⟨⟩
      exact confined.gains_inside gains fresh (.head _)
  · rw [refused]
    exact ⟨confined, nofun⟩

theorem suspend_confines (env : Env) (expr : Expr) :
    Confines start region (ClosureIn region expr env) (suspend (σ := σ) env expr) region := by
  have suspended : Confines start region (ClosureIn region expr env) (settle (σ := σ) (env.suspend expr))
      (Suspension.StaysIn region) := .settle fun closure _ => Env.suspend_staysIn closure
  refine suspended.bind fun suspension => ?_
  cases suspension with
  | existing handle => exact .pure And.left
  | new node => exact (alloc_confines fresh node).weaken And.left

theorem suspendAll_confines (env : Env) (exprs : List Expr) :
    Confines start region (∀ expr ∈ exprs, ClosureIn region expr env) (suspendAll (σ := σ) env exprs)
      fun handles => ∀ handle ∈ handles, region handle :=
  .mapM exprs fun expr member => (suspend_confines fresh env expr).weaken fun each => each expr member

omit fresh in
/-- A binding that cannot be built is replaced by a value without references. -/
theorem bindingNodes_staysIn {env : Env} {bindings : List Expr} {handles : List Handle}
    (each : ∀ binding ∈ bindings, ClosureIn region binding (env ++ handles)) :
    ∀ node ∈ bindingNodes env bindings handles, node.StaysIn region := by
  intro node member
  obtain ⟨binding, listed, rfl⟩ := List.mem_map.mp member
  cases bound : (env ++ handles).binding binding with
  | ok node => exact Env.binding_staysIn (each binding listed) bound
  | error fault => exact Node.Plain.staysIn ⟨rfl, rfl, rfl⟩

/-- The slots of a group are new, whether it is filled or given back. -/
theorem allocGroup_confines (env : Env) (bindings : List Expr) :
    Confines start region ((∀ handle ∈ env, region handle) ∧ ∀ binding ∈ bindings, binding.StaysIn region)
      (onHeap (σ := σ) (Heap.allocGroup (UInt64.ofNat bindings.length) fun handles heap =>
        (bindingNodes env bindings handles, heap)))
      fun handles => ∀ handle ∈ handles, region handle := by
  refine onHeap_confines (growing.allocGroup _ _ fun _ _ => rfl) fun needed heap confined fits => ?_
  rcases Heap.allocGroup_cases (UInt64.ofNat bindings.length)
      (fun handles heap => (bindingNodes env bindings handles, heap)) heap with
    ⟨_, ended⟩ | ⟨limit, refused⟩ | ⟨handles, opened, length, opens, ended⟩
  · rw [ended]
    refine ⟨confined, ?_⟩
    rintro _ _ ⟨⟩
    exact nofun
  · rw [refused]
    exact ⟨confined, nofun⟩
  · rcases ended with ⟨after, counted, ended, closes⟩ | ⟨fault, after, _, ended, closes⟩
    · rw [ended] at fits ⊢
      obtain ⟨free, gains⟩ := (opens.trans closes).result fits confined.free
      have inside : ∀ handle ∈ handles, region handle := by
        intro handle member
        have paired : (handles.zip (bindingNodes env bindings handles)).map Prod.fst = handles :=
          List.map_fst_zip (Nat.le_of_eq (length.trans counted.symm))
        rw [← paired] at member
        obtain ⟨⟨_, node⟩, added, rfl⟩ := List.mem_map.mp member
        exact confined.gains_inside gains fresh added
      have scope : ∀ handle ∈ env ++ handles, region handle := List.forall_mem_append.mpr ⟨needed.1, inside⟩
      refine ⟨confined.gains gains free fresh fun added => ?_, ?_⟩
      · exact bindingNodes_staysIn (fun binding member => ⟨scope, needed.2 binding member⟩) _ (List.of_mem_zip added).2
      · rintro _ _ ⟨⟩
        exact inside
    · rw [ended] at fits ⊢
      obtain ⟨free, gains⟩ := (opens.trans closes).result fits confined.free
      exact ⟨confined.gains gains free fresh nofun, nofun⟩

theorem bindAll_confines (env : Env) (bindings : List Expr) :
    Confines start region ((∀ handle ∈ env, region handle) ∧ ∀ binding ∈ bindings, binding.StaysIn region)
      (bindAll (σ := σ) env bindings) fun scope => ∀ handle ∈ scope, region handle := by
  refine (allocGroup_confines fresh env bindings).bind fun handles => ?_
  refine Confines.bind (.settle fun _ _ _ => trivial : Confines _ _ _ _ fun _ => True) fun _ => .pure ?_
  exact fun needed => List.forall_mem_append.mpr ⟨needed.2.2.1, needed.2.1⟩

theorem answer_confines (result : Node) :
    Confines start region (result.StaysIn region) (answer (σ := σ) result) (Control.StaysIn region) := by
  unfold answer
  split
  · exact deliver_confines id
  · exact (alloc_confines fresh result).bind fun handle => .pure And.left

variable {host : Host σ} (lawful : host.Follows growing)

include lawful

theorem callStrict_confines (callee : Callee) (operands : List Node) :
    Confines start region callee.IsPrimitive (callStrict host callee operands) (Control.StaysIn region) := by
  cases callee with
  | primitive op =>
    rw [callStrict_primitive]
    refine Confines.bind (.settle fun _ node executed => ?_ : Confines _ _ _ _ (Node.StaysIn region)) fun result => ?_
    · exact (Primitive.execute_plain executed).staysIn
    · exact (answer_confines fresh result).weaken And.left
  | host fn =>
    exact ⟨fun state => (callStrict_works lawful (.host fn) operands state).heap, False.elim⟩

theorem nextOperand_confines (evaluator : Evaluator) (callee : Callee) (operands : Operands) :
    Confines start region ((Frame.call callee operands).StaysIn region) (nextOperand host evaluator callee operands)
      (Control.StaysIn region) := by
  obtain ⟨done, pending, env⟩ := operands
  cases pending with
  | cons expr pending =>
    refine Confines.bind ((push_confines evaluator _).weaken ?_) fun _ => .pure ?_
    · exact fun needed => ⟨needed.1, fun other member => needed.2 other (.tail _ member)⟩
    · exact fun needed => needed.2.2 expr (.head _)
  | nil => exact (callStrict_confines fresh lawful callee done).weaken And.left

/-! ### Evaluating and resuming -/

theorem eval_confines (evaluator : Evaluator) (expr : Expr) (env : Env) :
    Confines start region (ClosureIn region expr env) (eval host evaluator expr env) (Control.StaysIn region) := by
  obtain ⟨label, form⟩ := expr
  -- a part of the expression runs in the same environment
  have part : ∀ child ∈ form.children, ClosureIn region ⟨label, form⟩ env → ClosureIn region child env :=
    fun child member closure => ⟨closure.env, closure.code.child member⟩
  unfold eval
  cases form with
  | var slot =>
    refine Confines.bind (.settle ?_ : Confines _ _ _ _ region) fun handle => .pure And.left
    exact fun closure _ => Env.lookup_staysIn closure.env
  | global node => exact .pure fun closure => closure.code.names node .global
  | char value | int value | double value | text value => exact deliver_confines fun _ => Node.Plain.staysIn ⟨rfl, rfl, rfl⟩
  | data ordinal name args =>
    refine Confines.bind ((suspendAll_confines fresh env args).weaken ?_) fun fields => ?_
    · exact fun closure arg member => part arg member closure
    · exact deliver_confines fun needed => ⟨needed.1, nofun⟩
  | lambda code captures =>
    refine Confines.bind (.settle ?_ : Confines _ _ _ _ (Node.StaysIn region)) fun node => deliver_confines And.left
    exact fun closure _ => Env.close_staysIn closure.env (part code.body (.head _) closure).code
  | apply fn args =>
    simp only
    split
    · exact .pure (part fn (.head _))
    · refine Confines.bind ((suspendAll_confines fresh env args).weaken ?_) fun handles => ?_
      · exact fun closure arg member => part arg (.tail _ member) closure
      · refine Confines.bind ((push_confines evaluator (.apply handles)).weaken And.left) fun _ => .pure ?_
        exact fun needed => part fn (.head _) needed.2.2
  | primitive op args =>
    simp only
    split
    · refine (nextOperand_confines fresh lawful evaluator (.primitive op) ⟨[], args, env⟩).weaken ?_
      exact fun closure => ⟨trivial, fun arg member => part arg member closure⟩
    · exact .throw
  | host fn args =>
    simp only
    split
    · refine (nextOperand_confines fresh lawful evaluator (.host fn) ⟨[], args, env⟩).weaken ?_
      exact fun closure => absurd rfl (closure.code.hostFree _ fn args .whole)
    · exact .throw
  | choose scrutinee alternatives otherwise =>
    refine Confines.bind ((push_confines evaluator _).weaken ?_) fun _ => .pure fun needed => part _ (.head _) needed.2
    intro closure
    refine ⟨closure.env, fun alternative member => ?_, fun body isDefault => ?_⟩
    · have child : alternative.body ∈ alternatives.map Alternative.body := List.mem_map.mpr ⟨alternative, member, rfl⟩
      exact (part _ (.tail _ (List.mem_append_left _ child)) closure).code
    · have child : body ∈ otherwise.toList := Option.mem_toList.mpr isDefault
      exact (part _ (.tail _ (List.mem_append_right _ child)) closure).code
  | letrec bindings body =>
    refine Confines.bind ((bindAll_confines fresh env bindings).weaken ?_) fun scope => .pure ?_
    · exact fun closure => ⟨closure.env, fun binding member => (part _ (List.mem_append_left _ member) closure).code⟩
    · exact fun needed => ⟨needed.1, (part body (List.mem_append_right _ (.head _)) needed.2).code⟩
  | seq first second =>
    refine Confines.bind ((push_confines evaluator (.seq second env)).weaken ?_) fun _ => .pure ?_
    · exact part second (.tail _ (.head _))
    · exact fun needed => part first (.head _) needed.2
  | raise message => exact .throw

omit fresh lawful in
theorem apply_confines (evaluator : Evaluator) (callee : Node) (args : List Handle) :
    Confines start region (callee.StaysIn region ∧ ∀ arg ∈ args, region arg) (apply (σ := σ) evaluator callee args)
      (Control.StaysIn region) := by
  unfold apply
  cases callee with
  | function code bound =>
    simp only
    have body : (Node.function code bound).StaysIn region ∧ (∀ arg ∈ args, region arg) →
        ClosureIn region code.body (bound ++ args.take (code.remaining bound)) := by
      rintro ⟨callee, inside⟩
      refine ⟨List.forall_mem_append.mpr ⟨callee.references, fun arg member => ?_⟩, callee.code _ rfl⟩
      exact inside arg (List.mem_of_mem_take member)
    split
    · refine deliver_confines fun needed => ⟨List.forall_mem_append.mpr ⟨needed.1.references, needed.2⟩, ?_⟩
      exact needed.1.code
    · split
      · exact .pure body
      · refine Confines.bind ((push_confines evaluator _).weaken ?_) fun _ => .pure fun needed => body needed.2
        exact fun needed arg member => needed.2 arg (List.mem_of_mem_drop member)
  | _ => exact .throw

omit fresh lawful in
theorem update_confines (evaluator : Evaluator) (node : Handle) (whnf : Whnf) :
    Confines start region (region node ∧ whnf.StaysIn region) (update (σ := σ) evaluator node whnf)
      (Control.StaysIn region) := by
  have payload : region node ∧ whnf.StaysIn region →
      (updatePayload node whnf).1.StaysIn region ∧ region (updatePayload node whnf).2 := by
    rintro ⟨inside, stays⟩
    rcases updatePayload_cases node whnf with ⟨existing, stored, _, same⟩ | same
    · have leads := stays.place existing stored
      rw [same]
      exact ⟨⟨List.forall_mem_singleton.mpr leads, nofun⟩, leads⟩
    · rw [same]
      exact ⟨stays.node, inside⟩
  unfold update
  refine Confines.bind ((complete_confines node _ _).weaken fun needed => ⟨needed.1, (payload needed).1⟩) fun done => ?_
  split
  · refine (record_confines _).bind fun _ => .pure fun needed => ⟨needed.2.2.2.node, ?_⟩
    rintro _ ⟨⟩
    exact (payload needed.2.2).2
  · exact .throw

theorem resume_confines (evaluator : Evaluator) (frame : Frame) (whnf : Whnf) :
    Confines start region (frame.StaysIn region ∧ whnf.StaysIn region) (resume host evaluator frame whnf)
      (Control.StaysIn region) := by
  unfold resume
  cases frame with
  | update node => exact update_confines evaluator node whnf
  | redirect links =>
    simp only
    split
    · rename_i target stored
      refine Confines.bind ((redirectAll_confines links target).weaken ?_) fun _ => .pure fun needed => needed.2.2
      exact fun needed => ⟨needed.1, needed.2.place target stored⟩
    · exact .pure And.right
  | apply args => exact (apply_confines evaluator whnf.node args).weaken fun needed => ⟨needed.2.node, needed.1⟩
  | call callee operands =>
    exact (nextOperand_confines fresh lawful evaluator callee _).weaken And.left
  | choose alternatives otherwise env =>
    exact (select_confines alternatives otherwise env whnf.node).weaken fun needed => ⟨needed.1, needed.2.node⟩
  | seq next env => exact .pure And.left

omit lawful in
theorem finish_end_confines (whnf : Whnf) : Confines start region (whnf.StaysIn region)
    (match whnf.handle? with
      | some handle => return .finished handle
      | none => return .finished (← onHeap (σ := σ) (Heap.alloc whnf.node))) (Progress.StaysIn region) := by
  split
  · rename_i handle stored
    exact .pure fun stays => stays.place handle stored
  · exact ((alloc_confines fresh whnf.node).weaken Whnf.StaysIn.node).bind fun handle => .pure And.left

theorem finish_confines (evaluator : Evaluator) (whnf : Whnf) :
    Confines start region (whnf.StaysIn region) (finish host evaluator whnf) (Progress.StaysIn region) := by
  have looks : Confines start region (whnf.StaysIn region) (get : MachineM σ (State σ))
      fun state => ∀ frame ∈ state.stack.items, frame.StaysIn region :=
    .idle (fun _ => rfl) (fun _ => rfl) (fun _ => rfl) fun _ _ _ _ enclosed ended => by
      cases ended
      exact enclosed.frames
  refine looks.bind fun seen => ?_
  split
  · rename_i frame below popped
    have items := Stack.pop?_eq_some popped
    have pops : Confines start region ((∀ frame ∈ seen.stack.items, frame.StaysIn region) ∧ whnf.StaysIn region)
        (modify fun state : State σ => { state with stack := below }) fun _ => True := by
      refine ⟨fun _ => Nat.le_refl _, fun needed state enclosed _ => ⟨⟨enclosed.heap, ?_⟩, trivial⟩⟩
      exact fun frame member => needed.1 frame (items ▸ .tail _ member)
    refine pops.bind fun _ => ((resume_confines fresh lawful evaluator frame whnf).weaken ?_).bind fun _ => .pure And.left
    exact fun needed => ⟨needed.2.1 frame (items ▸ .head _), needed.2.2⟩
  · exact (finish_end_confines fresh whnf).weaken And.right

end Fresh

end Machine

end LazyGraph

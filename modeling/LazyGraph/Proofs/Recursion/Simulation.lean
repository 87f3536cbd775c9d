import LazyGraph.Proofs.Heap.Throughout
import LazyGraph.Proofs.Machine.Answers
import LazyGraph.Proofs.Machine.Transition
import LazyGraph.Proofs.Recursion.Evaluator

/-! What the next action and the frames of an evaluator stand for in the recursion.

An action stands for the rest of one recursive call, and a frame for what its caller
does with the result. One transition then unfolds one call: whatever it pushes, the
call comes to the next action, with its result handed through the pushed frames. -/

set_option autoImplicit false

namespace LazyGraph

namespace Machine

variable {σ α β : Type}

/-! ### Operations on the heap alone -/

theorem suspend_eq (env : Env) (expr : Expr) :
    (suspend env expr : MachineM σ Handle) = onHeap (Recursion.suspend env expr) := by
  unfold suspend Recursion.suspend
  cases env.suspend expr with
  | error fault => rfl
  | ok suspension => cases suspension <;> rfl

theorem suspendAll_eq (env : Env) (exprs : List Expr) :
    (suspendAll env exprs : MachineM σ (List Handle)) = onHeap (Recursion.suspendAll env exprs) := by
  unfold suspendAll Recursion.suspendAll
  induction exprs with
  | nil => rfl
  | cons expr exprs ih => simp only [List.mapM_cons, onHeap_bind, onHeap_pure, ih, suspend_eq]

theorem bindAll_eq (env : Env) (bindings : List Expr) :
    (bindAll env bindings : MachineM σ Env) = onHeap (Recursion.bindAll env bindings) := by
  unfold bindAll Recursion.bindAll
  rw [onHeap_bind]
  congr 1
  funext handles
  cases bindings.mapM (env ++ handles).binding <;> rfl

theorem redirectAll_eq (links : List Handle) (target : Handle) :
    (redirectAll links target : MachineM σ Unit) = onHeap (Recursion.collapse links target) := by
  induction links with
  | nil => rfl
  | cons link links ih =>
    let redirected : HeapM Unit := do let _ ← Heap.redirect link target
    have one : (do let _ ← onHeap (Heap.redirect link target)) = (onHeap redirected : MachineM σ Unit) :=
      (onHeap_bind (Heap.redirect link target) fun _ => pure ()).symm
    calc (redirectAll (link :: links) target : MachineM σ Unit)
      _ = (do let _ ← onHeap (Heap.redirect link target)) >>= fun _ => redirectAll links target := rfl
      _ = onHeap redirected >>= fun _ => onHeap (Recursion.collapse links target) := by rw [one, ih]
      _ = onHeap (Recursion.collapse (link :: links) target) := (onHeap_bind _ _).symm

theorem update_eq (evaluator : Evaluator) (node : Handle) (whnf : Whnf) :
    (update evaluator node whnf : MachineM σ Control) =
      onHeap (Recursion.update evaluator.actor node whnf) >>= fun result => do
        record (.updated evaluator.actor node whnf.node)
        return .deliver (.stored result whnf.node) := by
  unfold update Recursion.update
  rcases updatePayload node whnf with ⟨payload, result⟩
  simp only [onHeap_bind, bind_assoc]
  congr 1
  funext written
  cases written <;> rfl

theorem select_eq (alternatives : List (Alternative Expr)) (otherwise : Option Expr) (env : Env)
    (scrutinee : Node) : select alternatives otherwise env scrutinee =
      (Recursion.branch alternatives otherwise env scrutinee).map fun chosen => .eval chosen.1 chosen.2 := by
  cases known : scrutinee.ordinal with
  | error fault =>
    rcases alternatives with _ | ⟨first, rest⟩ <;> cases otherwise <;>
      simp only [select, Recursion.branch, known] <;> rfl
  | ok ordinal =>
    rcases alternatives with _ | ⟨first, rest⟩
    · cases otherwise <;> simp only [select, Recursion.branch, known] <;> rfl
    · simp only [select, Recursion.branch, known, bind, Except.bind]
      cases (first :: rest).find? (·.ordinal == ordinal) with
      | none => cases otherwise <;> rfl
      | some alternative =>
        simp only
        split <;> rfl

end Machine

/-- The result of a call depends on the function and its operands alone, and no call
touches the heap. -/
def Host.Means {σ : Type} (host : Host σ) (meaning : HostFn → List Node → Except Fault Node) : Prop :=
  ∀ fn operands world, ∃ world', world'.heap = world.heap ∧
    host.call fn operands world = match meaning fn operands with
      | .ok node => .ok node world'
      | .error fault => .error fault world'

theorem Host.Means.follows {σ : Type} {host : Host σ} {meaning : HostFn → List Node → Except Fault Node}
    (means : host.Means meaning) (actor : Actor) : host.Follows (.sole actor) := by
  intro fn operands world
  obtain ⟨world', heap, called⟩ := means fn operands world
  rw [called]
  cases meaning fn operands with
  | ok node => exact fun every => heap ▸ every
  | error fault => exact fun every => heap ▸ every

/-- A thunk that counts as evaluated can be neither claimed nor waited for. -/
def Heap.Stuck (heap : Heap) (node : Handle) : Prop :=
  ∃ expr env, heap.lookup node = .ok ⟨.evaluated, .thunk expr env⟩

-- Frames whose work pushes nothing.
def Frame.isQuiet : Frame → Bool
  | .apply _ => false
  | .call _ operands => operands.pending.isEmpty
  | _ => true

-- Frames whose work is one recursive call deeper.
def Frame.descent : Frame → Nat
  | .apply _ => 1
  | _ => 0

namespace Recursion

open Reduction

section

variable (actor : Actor) (meaning : HostFn → List Node → Except Fault Node)

def ofControl (depth : Nat) : Control → Reduction Whnf
  | .eval expr env => eval actor meaning depth expr env
  | .force handle => do return .located (← force actor meaning depth handle)
  | .deliver whnf => pure whnf
  | .await .. => diverge

def ofFrame (depth : Nat) : Frame → Whnf → Reduction Whnf
  | .update node, whnf => do return .stored (← onHeap (update actor node whnf)) whnf.node
  | .redirect links, whnf => do
    if let some target := whnf.handle? then onHeap (collapse links target)
    return whnf
  | .apply args, whnf => apply actor meaning depth whnf.node args
  | .call callee ⟨done, pending, env⟩, whnf => do
    let rest ← strict (eval actor meaning depth · env) pending
    invoke meaning (force actor meaning depth) callee (done ++ whnf.node :: rest)
  | .choose alternatives otherwise env, whnf => do
    let (body, scope) ← settle (branch alternatives otherwise env whnf.node)
    eval actor meaning depth body scope
  | .seq next env, _ => eval actor meaning depth next env

-- The top frame comes first.
def through (depth : Nat) : List Frame → Reduction Whnf → Reduction Whnf
  | [], computation => computation
  | frame :: frames, computation => through depth frames (computation >>= ofFrame actor meaning depth frame)

end

variable {actor : Actor} {meaning : HostFn → List Node → Except Fault Node}

theorem through_congr {depth : Nat} (frames : List Frame) {left right : Reduction Whnf} {heap heap' : Heap}
    (same : left heap = right heap') :
    through actor meaning depth frames left heap = through actor meaning depth frames right heap' := by
  induction frames generalizing left right with
  | nil => exact same
  | cons frame frames ih => exact ih (bind_congr same _)

theorem through_append (depth : Nat) (upper lower : List Frame) (computation : Reduction Whnf) :
    through actor meaning depth (upper ++ lower) computation =
      through actor meaning depth lower (through actor meaning depth upper computation) := by
  induction upper generalizing computation with
  | nil => rfl
  | cons frame upper ih => exact ih _

theorem through_error {depth : Nat} (frames : List Frame) {computation : Reduction Whnf} {heap heap' : Heap}
    {fault : Fault} (ended : computation heap = some (.error fault heap')) :
    through actor meaning depth frames computation heap = some (.error fault heap') := by
  induction frames generalizing computation with
  | nil => exact ended
  | cons frame frames ih => exact ih (bind_some_error ended)

theorem through_none {depth : Nat} (frames : List Frame) {computation : Reduction Whnf} {heap : Heap}
    (ended : computation heap = none) : through actor meaning depth frames computation heap = none := by
  induction frames generalizing computation with
  | nil => exact ended
  | cons frame frames ih => exact ih (bind_none ended)

/-- The frames of a claimed thunk write the result into it and collapse the chain. -/
theorem through_entered (depth : Nat) (node : Handle) (links : List Handle) (computation : Reduction Whnf) :
    through actor meaning depth (.update node :: redirection links) computation = do
      let whnf ← computation
      let result ← onHeap (update actor node whnf)
      onHeap (collapse links result)
      return .stored result whnf.node := by
  cases links with
  | nil => rfl
  | cons link links =>
    show computation >>= ofFrame actor meaning depth (.update node) >>=
      ofFrame actor meaning depth (.redirect (link :: links)) = _
    rw [bind_assoc]
    congr 1
    funext whnf
    exact bind_assoc _ _ _

theorem through_some {depth : Nat} (frames : List Frame) {computation : Reduction Whnf} {heap : Heap}
    {outcome : EStateM.Result Fault Heap Whnf}
    (ended : through actor meaning depth frames computation heap = some outcome) :
    ∃ answer, computation heap = some answer := by
  cases computed : computation heap with
  | some answer => exact ⟨answer, rfl⟩
  | none =>
    rw [through_none frames computed] at ended
    cases ended

/-- A call with operands left evaluates the next one and is then a call with one less. -/
theorem ofFrame_call_cons (depth : Nat) (callee : Callee) (done : List Node) (expr : Expr) (pending : List Expr)
    (env : Env) (whnf : Whnf) :
    ofFrame actor meaning depth (.call callee ⟨done, expr :: pending, env⟩) whnf =
      eval actor meaning depth expr env >>=
        ofFrame actor meaning depth (.call callee ⟨done ++ [whnf.node], pending, env⟩) := by
  simp only [ofFrame, strict_cons, bind_assoc, pure_bind]
  congr 1
  funext next
  simp only [ofFrame, List.append_assoc, List.singleton_append]

theorem ofControl_force_ok {depth : Nat} {root : Handle} {heap heap' : Heap} {whnf : Whnf}
    (ended : ofControl actor meaning depth (.force root) heap = some (.ok whnf heap')) :
    ∃ result node, whnf = .stored result node ∧
      force actor meaning depth root heap = some (.ok (result, node) heap') := by
  rcases forced : force actor meaning depth root heap with _ | (⟨⟨result, node⟩, after⟩ | ⟨fault, after⟩)
  · rw [ofControl, bind_none forced] at ended
    cases ended
  · rw [ofControl, bind_some_ok forced] at ended
    cases ended
    exact ⟨result, node, rfl, rfl⟩
  · rw [ofControl, bind_some_error forced] at ended
    cases ended

theorem ofControl_force_error {depth : Nat} {root : Handle} {heap heap' : Heap} {fault : Fault}
    (ended : ofControl actor meaning depth (.force root) heap = some (.error fault heap')) :
    force actor meaning depth root heap = some (.error fault heap') := by
  rcases forced : force actor meaning depth root heap with _ | (⟨place, after⟩ | ⟨fault', after⟩)
  · rw [ofControl, bind_none forced] at ended
    cases ended
  · rw [ofControl, bind_some_ok forced] at ended
    cases ended
  · rw [ofControl, bind_some_error forced] at ended
    cases ended
    rfl

theorem ofFrame_below (depth : Nat) (frame : Frame) (whnf : Whnf) :
    Below (ofFrame actor meaning depth frame whnf) (ofFrame actor meaning (depth + 1) frame whnf) := by
  cases frame with
  | update node => exact .refl _
  | redirect links => exact .refl _
  | apply args => exact (deepens depth).apply whnf.node args
  | call callee operands =>
    exact ((deepens depth).strict operands.pending operands.env).bind fun _ => (deepens depth).invoke callee _
  | choose alternatives otherwise env => exact .next _ fun chosen => (deepens depth).eval chosen.1 chosen.2
  | seq next env => exact (deepens depth).eval next env

theorem through_below {depth : Nat} (frames : List Frame) {left right : Reduction Whnf}
    (below : Below left right) :
    Below (through actor meaning depth frames left) (through actor meaning (depth + 1) frames right) := by
  induction frames generalizing left right with
  | nil => exact below
  | cons frame frames ih => exact ih (below.bind (ofFrame_below depth frame))

end Recursion

namespace Machine

open Recursion (ofControl ofFrame through)

variable {σ α : Type} {evaluator : Evaluator} {meaning : HostFn → List Node → Except Fault Node}

/-! ### One call unfolded -/

-- Every wait is for a thunk that is stuck.
def OnlyStuck (control : Control) (heap : Heap) : Prop :=
  ∀ links node, control = .await links node → heap.Stuck node

theorem onlyStuck_of_active {control : Control} (active : control.waits = false) (heap : Heap) :
    OnlyStuck control heap :=
  fun links node waits => absurd waits (Control.ne_await active links node)

/-- A transition from `before` does the part of the call `aim` that comes first: the rest
is the next action, handed through the frames that were pushed. Only a full stack keeps
it from that, and one that is quiet pushes nothing. -/
inductive Serves (evaluator : Evaluator) (meaning : HostFn → List Node → Except Fault Node) (quiet : Bool)
    (aim : Nat → Reduction Whnf) (before : State σ) : EStateM.Result Fault (State σ) Control → Prop where
  | goes {next : Control} {after : State σ} (pushed : List Frame)
      (stack : after.stack.items = pushed ++ before.stack.items) (level : quiet = true → pushed = [])
      (same : ∀ depth, aim depth before.world.heap = through evaluator.actor meaning depth pushed
        (ofControl evaluator.actor meaning depth next) after.world.heap)
      (stuck : OnlyStuck next after.world.heap) :
      Serves evaluator meaning quiet aim before (.ok next after)
  | fails {fault : Fault} {after : State σ}
      (same : ∀ depth, aim depth before.world.heap = some (.error fault after.world.heap)) :
      Serves evaluator meaning quiet aim before (.error fault after)
  | crowded {after : State σ} (loud : quiet = false) :
      Serves evaluator meaning quiet aim before
        (.error (.exhausted (.workStack evaluator.settings.maxWorkStack)) after)

namespace Serves

variable {quiet : Bool} {before : State σ}

theorem transport {aim aim' : Nat → Reduction Whnf} {middle : State σ}
    {result : EStateM.Result Fault (State σ) Control} (served : Serves evaluator meaning quiet aim' middle result)
    (stack : middle.stack = before.stack)
    (same : ∀ depth, aim depth before.world.heap = aim' depth middle.world.heap) :
    Serves evaluator meaning quiet aim before result := by
  cases served with
  | goes pushed items level agrees stuck =>
    exact .goes pushed (stack ▸ items) level (fun depth => (same depth).trans (agrees depth)) stuck
  | fails agrees => exact .fails fun depth => (same depth).trans (agrees depth)
  | crowded loud => exact .crowded loud

theorem pure (next : Control) (active : next.waits = false) :
    Serves evaluator meaning quiet (fun depth => ofControl evaluator.actor meaning depth next) before
      ((Pure.pure next : MachineM σ Control) before) :=
  .goes [] rfl (fun _ => rfl) (fun _ => rfl) (onlyStuck_of_active active _)

theorem eval (expr : Expr) (env : Env) :
    Serves evaluator meaning quiet (fun depth => Recursion.eval evaluator.actor meaning depth expr env) before
      ((Pure.pure (.eval expr env) : MachineM σ Control) before) :=
  .pure (.eval expr env) rfl

theorem force (handle : Handle) :
    Serves evaluator meaning quiet
      (fun depth => do return .located (← Recursion.force evaluator.actor meaning depth handle)) before
      ((Pure.pure (.force handle) : MachineM σ Control) before) :=
  .pure (.force handle) rfl

theorem deliver (whnf : Whnf) :
    Serves evaluator meaning quiet (fun _ => Pure.pure whnf) before
      ((Pure.pure (.deliver whnf) : MachineM σ Control) before) :=
  .pure (.deliver whnf) rfl

theorem throw (fault : Fault) :
    Serves evaluator meaning quiet (fun _ => Reduction.fail fault) before
      ((MonadExcept.throw fault : MachineM σ Control) before) :=
  .fails fun _ => rfl

theorem push (frame : Frame) (next : Control) (active : next.waits = false) :
    Serves evaluator meaning false
      (fun depth => ofControl evaluator.actor meaning depth next >>= ofFrame evaluator.actor meaning depth frame)
      before ((do Machine.push evaluator frame; return next : MachineM σ Control) before) := by
  by_cases room : before.stack.depth < evaluator.settings.maxWorkStack.toNat
  · rw [bind_ok (push_ok room)]
    exact .goes [frame] rfl nofun (fun _ => rfl) (onlyStuck_of_active active _)
  · rw [bind_error (push_error (Nat.le_of_not_lt room))]
    exact .crowded rfl

theorem onHeap {operation : HeapM α} {next : α → MachineM σ Control} {aim : α → Nat → Reduction Whnf}
    (rest : ∀ value middle, Serves evaluator meaning quiet (aim value) middle (next value middle)) :
    Serves evaluator meaning quiet (fun depth => Reduction.onHeap operation >>= fun value => aim value depth)
      before ((Machine.onHeap operation >>= next) before) := by
  cases ended : operation before.world.heap with
  | ok value heap =>
    rw [bind_ok (onHeap_ok ended)]
    refine (rest value _).transport rfl fun depth => ?_
    exact Reduction.bind_some_ok (congrArg some ended)
  | error fault heap =>
    rw [bind_error (onHeap_error ended)]
    exact .fails fun depth => Reduction.bind_some_error (congrArg some ended)

theorem settle (outcome : Except Fault α) {next : α → MachineM σ Control} {aim : α → Nat → Reduction Whnf}
    (rest : ∀ value, Serves evaluator meaning quiet (aim value) before (next value before)) :
    Serves evaluator meaning quiet (fun depth => Reduction.settle outcome >>= fun value => aim value depth)
      before ((Machine.settle outcome >>= next) before) := by
  cases outcome with
  | ok value => exact rest value
  | error fault => exact .fails fun _ => rfl

end Serves

/-- The transition hands evaluated operands to a host function. -/
def callsHost : Control → List Frame → Bool
  | .eval ⟨_, .host _ []⟩ _, _ => true
  | .deliver _, .call (.host _) ⟨_, [], _⟩ :: _ => true
  | _, _ => false

theorem answer_serves {quiet : Bool} (result : Node) (before : State σ) :
    Serves evaluator meaning quiet
      (fun depth =>
        if result.tag.isWhnf then return .fresh result
        else do
          let handle ← Reduction.onHeap (Heap.alloc result)
          return .located (← Recursion.force evaluator.actor meaning depth handle))
      before (answer result before) := by
  unfold answer
  split
  · exact .deliver _
  · exact .onHeap fun handle _ => .force handle

theorem callStrict_serves {host : Host σ} (means : host.Means meaning) {quiet : Bool} (callee : Callee)
    (done : List Node) (before : State σ) :
    Serves evaluator meaning quiet
      (fun depth => Recursion.invoke meaning (Recursion.force evaluator.actor meaning depth) callee done)
      before (callStrict host callee done before) := by
  cases callee with
  | primitive op =>
    rw [callStrict_primitive]
    exact .settle (op.execute done) fun result => answer_serves result before
  | host fn =>
    rw [callStrict_host]
    obtain ⟨world, heap, called⟩ := means fn done before.world
    cases answered : meaning fn done with
    | ok result =>
      have called' : onWorld (host.call fn done) before = .ok result { before with world := world } := by
        simp only [onWorld, called, answered]
      rw [bind_ok called']
      refine (answer_serves result _).transport rfl fun depth => ?_
      rw [Recursion.invoke, Recursion.call, answered]
      exact congrArg _ heap.symm
    | error fault =>
      have called' : onWorld (host.call fn done) before = .error fault { before with world := world } := by
        simp only [onWorld, called, answered]
      rw [bind_error called']
      refine .fails fun depth => ?_
      rw [Recursion.invoke, Recursion.call, answered]
      exact congrArg _ heap.symm

/-- Operands that are evaluated already stand before those that are still to come. -/
theorem nextOperand_serves {host : Host σ} (means : host.Means meaning) {quiet : Bool} (callee : Callee)
    (done : List Node) (pending : List Expr) (env : Env) (loud : pending ≠ [] → quiet = false)
    (before : State σ) :
    Serves evaluator meaning quiet
      (fun depth => do
        let rest ← Recursion.strict (Recursion.eval evaluator.actor meaning depth · env) pending
        Recursion.invoke meaning (Recursion.force evaluator.actor meaning depth) callee (done ++ rest))
      before (nextOperand host evaluator callee ⟨done, pending, env⟩ before) := by
  cases pending with
  | nil =>
    refine (callStrict_serves means callee done before).transport rfl fun depth => ?_
    simp only [Recursion.strict, List.mapM_nil, pure_bind, List.append_nil]
  | cons expr pending =>
    rw [loud (by simp)]
    refine (Serves.push (.call callee ⟨done, pending, env⟩) (.eval expr env) rfl).transport rfl fun depth => ?_
    simp only [Recursion.strict_cons, bind_assoc, pure_bind]
    rfl

theorem eval_serves {host : Host σ} (means : host.Means meaning) (expr : Expr) (env : Env) (frames : List Frame)
    (before : State σ) :
    Serves evaluator meaning (callsHost (.eval expr env) frames)
      (fun depth => Recursion.eval evaluator.actor meaning (depth + 1) expr env)
      before (eval host evaluator expr env before) := by
  obtain ⟨label, form⟩ := expr
  cases form with
  | var slot => exact .settle (env.lookup slot) fun handle => .force handle
  | global node => exact .force node
  | char value | int value | double value | text value => exact .deliver _
  | data ordinal name args =>
    simp only [eval, suspendAll_eq]
    exact .onHeap fun handles _ => .deliver _
  | lambda code captures => exact .settle (env.close code captures) fun node => .deliver _
  | apply fn args =>
    cases args with
    | nil => exact .eval fn env
    | cons arg args =>
      simp only [eval, suspendAll_eq]
      exact .onHeap fun handles _ => .push (.apply handles) (.eval fn env) rfl
  | primitive op args =>
    simp only [eval, Recursion.eval]
    split
    · exact nextOperand_serves means (.primitive op) [] args env (fun _ => rfl) before
    · exact .throw _
  | host fn args =>
    simp only [eval, Recursion.eval]
    split
    · refine nextOperand_serves means (.host fn) [] args env (fun pending => ?_) before
      cases args with
      | nil => exact absurd rfl pending
      | cons arg args => rfl
    · exact .throw _
  | choose scrutinee alternatives otherwise =>
    exact .push (.choose alternatives otherwise env) (.eval scrutinee env) rfl
  | letrec bindings body =>
    simp only [eval, bindAll_eq]
    exact .onHeap fun scope _ => .eval body scope
  | seq first second => exact .push (.seq second env) (.eval first env) rfl
  | raise message => exact .throw _

theorem apply_serves (callee : Node) (args : List Handle) (before : State σ) :
    Serves evaluator meaning false
      (fun depth => Recursion.apply evaluator.actor meaning (depth + 1) callee args)
      before (apply evaluator callee args before) := by
  cases callee with
  | function code bound =>
    simp only [apply, Recursion.apply]
    split
    · exact .deliver _
    · cases surplus : (args.drop (code.remaining bound)).isEmpty with
      | true =>
        refine (Serves.eval code.body (bound ++ args.take (code.remaining bound))).transport rfl fun depth => ?_
        simp only [if_true, bind_pure]
      | false =>
        exact .push (.apply (args.drop (code.remaining bound)))
          (.eval code.body (bound ++ args.take (code.remaining bound))) rfl
  | _ => exact .throw _

/-! ### Forcing -/

theorem enter_serves {links : List Handle} {node : Handle} {expr : Expr} {env : Env} (before : State σ) :
    Serves evaluator meaning false
      (fun depth => do
        let whnf ← Recursion.eval evaluator.actor meaning depth expr env
        let result ← Reduction.onHeap (Recursion.update evaluator.actor node whnf)
        Reduction.onHeap (Recursion.collapse links result)
        return .stored result whnf.node)
      before (enter evaluator links node expr env before) := by
  rcases enter_cases evaluator links node expr env before with
    ⟨_, after, entered, items, world⟩ | ⟨_, after, pushed, refused, _, _, _⟩
  · rw [entered]
    refine .goes (.update node :: redirection links) items nofun (fun depth => ?_) (onlyStuck_of_active rfl _)
    rw [Recursion.through_entered, world]
    rfl
  · rw [refused]
    exact .crowded rfl

theorem demandFrom_serves {before : State σ} (sole : before.world.heap.Sole evaluator.actor) (root : Handle) :
    Serves evaluator meaning false
      (fun depth => do return .located (← Recursion.force evaluator.actor meaning (depth + 1) root))
      before (demandFrom evaluator [] root before) := by
  have demands := demandFrom_cases evaluator [] root before
  generalize demandFrom evaluator [] root before = result at demands ⊢
  cases demands with
  | broken chain => exact .fails fun depth => Reduction.bind_some_error (Recursion.force_broken chain depth)
  | loop chain => exact .fails fun depth => Reduction.bind_some_error (Recursion.force_loop chain depth)
  | claims found granted _ _ =>
    refine (enter_serves _).transport rfl fun depth => ?_
    rw [Reduction.bind_congr (Recursion.force_unevaluated found depth)]
    simp only [bind_assoc, pure_bind]
    exact Reduction.bind_some_ok (congrArg some granted)
  | own chain => exact .fails fun depth => Reduction.bind_some_error (Recursion.force_inProgress chain depth)
  | waits chain other =>
    have live := (Heap.followOn_at (congrArg Chain.landing chain)).1
    exact absurd (sole.lookup live _ rfl) other
  | stuck chain =>
    have live := (Heap.followOn_at (congrArg Chain.landing chain)).1
    refine .goes [] rfl (by simp) (fun depth => Reduction.bind_none (Recursion.force_evaluated chain depth)) ?_
    rintro _ _ ⟨⟩
    exact ⟨_, _, live⟩
  | @value links target slot chain isWhnf =>
    have noThunk : ∀ expr env, slot.node ≠ .thunk expr env := fun expr env isThunk =>
      Tag.ne_thunk_of_whnf isWhnf (congrArg Node.tag isThunk)
    simp only [redirectAll_eq]
    refine (Serves.onHeap fun _ _ => .deliver _).transport rfl fun depth => ?_
    rw [Reduction.bind_congr (Recursion.force_value chain noThunk depth)]
    simp only [bind_assoc, pure_bind]
    rfl

/-! ### Handing a result to a frame -/

theorem update_serves {quiet : Bool} (node : Handle) (whnf : Whnf) (before : State σ) :
    Serves evaluator meaning quiet
      (fun depth => ofFrame evaluator.actor meaning depth (.update node) whnf)
      before (update evaluator node whnf before) := by
  rw [update_eq]
  refine .onHeap fun result middle => ?_
  rw [bind_ok (rfl : record (.updated evaluator.actor node whnf.node) middle = .ok () _)]
  exact (Serves.deliver (.stored result whnf.node)).transport rfl fun _ => rfl

theorem resume_serves {host : Host σ} (means : host.Means meaning) (frame : Frame) (whnf : Whnf)
    (before : State σ) :
    Serves evaluator meaning frame.isQuiet
      (fun depth => ofFrame evaluator.actor meaning (depth + frame.descent) frame whnf)
      before (resume host evaluator frame whnf before) := by
  cases frame with
  | update node => exact update_serves node whnf before
  | redirect links =>
    obtain ⟨place, node⟩ := whnf
    cases place with
    | none => exact .deliver _
    | some target =>
      simp only [resume, redirectAll_eq]
      exact .onHeap fun _ _ => .deliver _
  | apply args => exact apply_serves whnf.node args before
  | call callee operands =>
    obtain ⟨done, pending, env⟩ := operands
    have loud : pending ≠ [] → (Frame.call callee ⟨done, pending, env⟩).isQuiet = false := by
      intro more
      simpa [Frame.isQuiet] using more
    refine (nextOperand_serves means callee (done ++ [whnf.node]) pending env loud before).transport rfl ?_
    intro depth
    simp only [List.append_assoc, List.singleton_append]
    rfl
  | choose alternatives otherwise env =>
    simp only [resume, select_eq]
    simp only [ofFrame]
    cases Recursion.branch alternatives otherwise env whnf.node with
    | ok chosen => exact .eval chosen.1 chosen.2
    | error fault => exact .throw fault
  | seq next env => exact .eval next env

end Machine

end LazyGraph

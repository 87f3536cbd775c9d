import LazyGraph.Proofs.Machine.Answers
import LazyGraph.Proofs.Parallel.Plans

/-! Plans that only allocate, collapse chains and keep the books.

Each action of such a plan stays within any motion of the heap, so a plan is looked at once for
all that can be said of its actions, and for what it can give. -/

set_option autoImplicit false

namespace LazyGraph.Parallel

open Machine

variable {σ α β : Type} {motion : HeapMotion} {gives : α → Prop} {between : β → Prop}

/-- The actions of the plan stay within the motion, and what it gives is as said. -/
def Plan.Quiet (motion : HeapMotion) (gives : α → Prop) : Plan σ α → Prop
  | .ended value => gives value
  | .act action next => Moves (Works motion.along) action ∧
      ∀ before value after, action before = .ok value after → Quiet motion gives (next value)

namespace Plan.Quiet

theorem once {action : MachineM σ α} (works : Moves (Works motion.along) action) (yields : Yields gives action) :
    Quiet motion gives (Plan.once action) :=
  ⟨works, yields⟩

theorem once_any {action : MachineM σ α} (works : Moves (Works motion.along) action) :
    Quiet motion (fun _ => True) (Plan.once action) :=
  once works fun _ _ _ _ => trivial

theorem settle (outcome : Except Fault α) :
    Quiet (σ := σ) motion (fun value => outcome = .ok value) (Plan.once (settle outcome)) :=
  once (settle_works outcome) (settle_yields outcome)

theorem throw (fault : Fault) : Quiet (σ := σ) motion gives (Plan.once (throw fault)) :=
  once (Moves.throw fault) (Yields.throw fault)

theorem bind {first : Plan σ β} {next : β → Plan σ α} (early : Quiet motion between first)
    (late : ∀ value, between value → Quiet motion gives (next value)) : Quiet motion gives (first >>= next) := by
  induction first with
  | ended value => exact late value early
  | act action rest ih => exact ⟨early.1, fun before value after ended => ih value (early.2 before value after ended)⟩

theorem mapM {f : β → Plan σ α} (items : List β) (each : ∀ item, Quiet motion (fun _ => True) (f item)) :
    Quiet motion (fun _ => True) (items.mapM f) := by
  induction items with
  | nil => exact trivial
  | cons head tail ih =>
    rw [List.mapM_cons]
    exact (each head).bind fun _ _ => ih.bind fun _ _ => trivial

theorem forM {f : β → Plan σ PUnit} (items : List β) (each : ∀ item, Quiet motion (fun _ => True) (f item)) :
    Quiet motion (fun _ => True) (items.forM f) := by
  induction items with
  | nil => exact trivial
  | cons head tail ih => exact (each head).bind fun _ _ => ih

theorem alloc (node : Node) : Quiet (σ := σ) motion (fun _ => True) (Plan.once (onHeap (Heap.alloc node))) :=
  once_any (onHeap_works (motion.alloc node))

theorem suspend (env : Env) (expr : Expr) : Quiet motion (fun _ => True) (Parallel.suspend (σ := σ) env expr) := by
  refine (settle (env.suspend expr)).bind fun suspension _ => ?_
  cases suspension with
  | existing handle => exact trivial
  | new node => exact alloc node

theorem suspendAll (env : Env) (exprs : List Expr) :
    Quiet motion (fun _ => True) (Parallel.suspendAll (σ := σ) env exprs) :=
  mapM exprs fun expr => suspend env expr

theorem redirectAll (links : List Handle) (target : Handle) :
    Quiet motion (fun _ => True) (Parallel.redirectAll (σ := σ) links target) :=
  forM links fun link => once_any ((onHeap_works (motion.redirect link target)).bind fun _ => Moves.pure _)

theorem record (event : Event) : Quiet (σ := σ) motion (fun _ => True) (Plan.once (record event)) :=
  once_any (record_works event)

theorem modifyWorld {change : World σ → World σ} (entries : ∀ world, (change world).heap.entries = world.heap.entries)
    (free : ∀ world, (change world).heap.free = world.heap.free) :
    Quiet motion (fun _ => True) (Plan.once (modifyWorld change)) :=
  once_any (modifyWorld_works fun world => motion.same (entries world) (free world))

theorem getHeap_works : Moves (Works (σ := σ) motion.along) getHeap :=
  fun state => Std.Refl.refl state

theorem leadsBack {actor : Actor} (hops : Nat) (current : Handle) :
    Quiet motion (fun _ => True) (Parallel.leadsBack (σ := σ) actor hops current) := by
  induction hops generalizing current with
  | zero => exact trivial
  | succ hops ih =>
    have looks : Moves (Works (σ := σ) motion.along) (holder current) := by
      refine getHeap_works.bind fun heap => ?_
      split
      · exact Moves.throw _
      · exact Moves.pure _
      · exact Moves.pure _
    refine (once_any looks).bind fun found _ => ?_
    match found with
    | none => exact trivial
    | some (owner, next?) =>
      show Quiet motion _ (if owner = actor then _ else _)
      split
      · exact trivial
      · cases next? with
        | none => exact trivial
        | some next => exact ih next

variable (evaluator : Evaluator)

theorem startWait (links : List Handle) (node : Handle) :
    Quiet motion (fun control => control = .await links node) (Parallel.startWait (σ := σ) evaluator links node) := by
  refine (once_any (getHeap_works.bind fun _ => Moves.pure _)).bind fun entries _ => ?_
  refine (leadsBack _ node).bind fun refused _ => ?_
  cases refused with
  | true => exact throw _
  | false =>
    rw [if_neg Bool.false_ne_true]
    refine bind (modifyWorld (fun _ => ?_) fun _ => ?_) fun _ _ => (record _).bind fun _ _ => ?_ <;> exact rfl

theorem resumeWait (links : List Handle) (node : Handle) :
    Quiet motion (fun pace => pace = .turn (.await links node) ∨ pace = .walk links.reverse node)
      (Parallel.resumeWait (σ := σ) evaluator links node) := by
  have checks : Moves (Works (σ := σ) motion.along) (checkInterruption evaluator) := by
    intro state
    rw [checkInterruption_state]
    exact Std.Refl.refl state
  refine (once_any checks).bind fun _ _ => ?_
  refine (once_any (getHeap_works.bind fun heap => settle_works _)).bind fun state _ => ?_
  split
  · refine bind (modifyWorld (fun _ => ?_) fun _ => ?_) fun _ _ => .inl ?_ <;> exact rfl
  · refine bind (modifyWorld (fun _ => ?_) fun _ => ?_) fun _ _ => .inr ?_ <;> exact rfl

theorem begins (control : Control) :
    Quiet (σ := σ) motion (fun _ => True) (Plan.once do tick evaluator; trace evaluator control) := by
  have ticks : Moves (Works (σ := σ) motion.along) (tick evaluator) := by
    intro state
    rw [tick_state]
    exact .of_same rfl (motion.same rfl rfl)
  refine once_any (ticks.bind fun _ state => ?_)
  obtain ⟨events, traced⟩ := trace_ok evaluator control state
  rw [traced]
  exact .of_same rfl (motion.same rfl rfl)

end Plan.Quiet

end LazyGraph.Parallel

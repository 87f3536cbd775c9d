import Mathlib.Data.List.Nodup
import LazyGraph.Proofs.Heap.Grants
import LazyGraph.Proofs.Machine.Assignment
import LazyGraph.Proofs.Machine.Contract
import LazyGraph.Proofs.Renaming.Alike

/-! Machines that reduce side by side.

Evaluating an expression and resuming a frame that is no marker read nothing from the heap:
they allocate, push frames and go on. So two machines whose frames and controls are alike do
the same, whatever else their heaps have in common, as long as the heaps stay tied when nodes
that are alike are added to both. A lax comparison excuses a machine that meets a limit; a
strict one is for machines with the same settings at the same time. -/

set_option autoImplicit false

namespace LazyGraph

/-! ### Heaps that take any number of nodes -/

namespace Heap

variable {before after heap : Heap} {handles : List Handle} {nodes : List Node} {node : Node} {count : UInt64}

structure Adds (before after : Heap) (handles : List Handle) (nodes : List Node) : Prop where
  distinct : handles.Nodup
  lengths : handles.length = nodes.length
  free : after.FreeListSound
  gains : Gains before after (handles.zip nodes)
  grants : Grants before after handles
  waits : after.waits = before.waits
  unbounded : after.maxNodes = none

theorem reserve_unbounded (unbounded : heap.maxNodes = none) (count : UInt64) :
    ∃ counted : Heap, reserve count heap = .ok () counted ∧ counted.maxNodes = none ∧ counted.waits = heap.waits := by
  unfold reserve
  rw [unbounded]
  exact ⟨_, rfl, rfl, rfl⟩

/-- A group whose nodes are built without the heap is always granted. -/
theorem allocGroup_adds {build : List Handle → List Node} (unbounded : heap.maxNodes = none)
    (exactly : ∀ handles, (build handles).length = count.toNat) :
    ∃ handles after, allocGroup count (fun handles heap => (build handles, heap)) heap = .ok handles after ∧
      (heap.FreeListSound → after.Addressable → heap.Adds after handles (build handles)) := by
  by_cases empty : count = 0
  · subst empty
    have none : build [] = [] := List.eq_nil_of_length_eq_zero (exactly [])
    refine ⟨[], heap, rfl, fun sound _ => ?_⟩
    rw [none]
    exact ⟨.nil, rfl, sound, .of_same fun _ _ => .rfl, ⟨by simp, by simp, fun _ => id⟩, rfl, unbounded⟩
  · obtain ⟨counted, granted, unbounded', waits⟩ := reserve_unbounded unbounded count
    have opens : openGroup count heap = .ok (takeSlots count.toNat [] counted).1 (takeSlots count.toNat [] counted).2 :=
      bind_ok granted
    rw [← maxNodes_takeSlots count.toNat [] counted] at unbounded'
    rw [← waits_takeSlots count.toNat [] counted] at waits
    generalize (takeSlots count.toNat [] counted).1 = taken at *
    generalize (takeSlots count.toNat [] counted).2 = opened at *
    obtain ⟨after, closes, waits', unbounded''⟩ : ∃ after, closeGroup count taken (build taken) opened = .ok () after ∧
        after.waits = opened.waits ∧ after.maxNodes = opened.maxNodes :=
      ⟨_, by rw [closeGroup, if_pos (exactly taken)], waits_fillAll _ opened, maxNodes_fillAll _ opened⟩
    have allocated : allocGroup count (fun handles heap => (build handles, heap)) heap = .ok taken after := by
      unfold allocGroup
      rw [if_neg empty, bind_ok opens]
      have built : (modifyGet fun heap : Heap => (build taken, heap) : HeapM (List Node)) opened =
          .ok (build taken) opened := rfl
      rw [bind_ok built, bind_ok closes]
      rfl
    refine ⟨_, _, allocated, fun sound fits => ?_⟩
    have brings := allocGroup_brings sound allocated empty fits
    exact ⟨brings.distinct, brings.length.trans brings.exactly.symm, brings.free, brings.gains, brings.grants,
      waits'.trans waits, unbounded''.trans unbounded'⟩

theorem alloc_adds (unbounded : heap.maxNodes = none) (node : Node) :
    ∃ handle after, alloc node heap = .ok handle after ∧
      (heap.FreeListSound → after.Addressable → heap.Adds after [handle] [node]) := by
  obtain ⟨counted, granted, unbounded', _⟩ := reserve_unbounded unbounded 1
  have allocated : alloc node heap = .ok counted.takeSlot.1 (counted.takeSlot.2.fill counted.takeSlot.1 node) :=
    bind_ok granted
  refine ⟨_, _, allocated, fun sound fits => ?_⟩
  rcases alloc_cases node heap with ⟨handle, after, allocated', enlarges⟩ | ⟨limit, refused⟩
  · cases allocated.symm.trans allocated'
    obtain ⟨free, gains⟩ := enlarges.result fits sound
    exact ⟨List.nodup_singleton _, rfl, free, gains, alloc_grants sound allocated fits, enlarges.waits,
      (maxNodes_takeSlots 1 [] counted).trans unbounded'⟩
  · cases allocated.symm.trans refused

end Heap

/-- A relation of heaps that holds on when nodes that are alike are added to both. -/
class Joint (known : Handle → Prop) (tied : Pairing → Heap → Heap → Prop) : Prop where
  named : ∀ {pairs left right}, tied pairs left right → ∀ handle, known handle → pairs handle handle
  free : ∀ {pairs left right}, tied pairs left right → left.FreeListSound ∧ right.FreeListSound
  unbounded : ∀ {pairs left right}, tied pairs left right → left.maxNodes = none ∧ right.maxNodes = none
  adds : ∀ {pairs left right left' right' handles handles' nodes nodes'}, tied pairs left right →
    left.Adds left' handles nodes → right.Adds right' handles' nodes' →
    List.Forall₂ (Node.Alike known (pairs.adding handles handles')) nodes nodes' →
    tied (pairs.adding handles handles') left' right'

def State.gauges {σ : Type} (state : State σ) : Nat × Option Nat × Nat × List (Token × Nat) :=
  (state.steps, state.deadline, state.world.clock, state.world.cancellations)

structure Peers (lax : Prop) (peers : Actor → Actor → Prop) (left right : Evaluator) : Prop where
  exactly : OneToOne peers
  actors : peers left.actor right.actor
  settings : ¬ lax → left.settings = right.settings
  token : ¬ lax → left.token = right.token

namespace Machine

structure Abreast {σ : Type} (lax : Prop) (known : Handle → Prop) (tied : Pairing → Heap → Heap → Prop)
    (pairs : Pairing) (left right : State σ) : Prop where
  heaps : tied pairs left.world.heap right.world.heap
  frames : List.Forall₂ (Frame.Alike known pairs) left.stack.items right.stack.items
  gauges : ¬ lax → left.gauges = right.gauges

/-- Both machines come to related results, or to faults of one kind, and are abreast again. -/
inductive Concur {σ α : Type} (lax : Prop) (known : Handle → Prop) (tied : Pairing → Heap → Heap → Prop)
    (pairs : Pairing) (related : Pairing → α → α → Prop) :
    EStateM.Result Fault (State σ) α → EStateM.Result Fault (State σ) α → Prop where
  | ok {pairs' : Pairing} {value value' : α} {left right : State σ} (wider : pairs.Extends pairs')
      (abreast : Abreast lax known tied pairs' left right) (both : related pairs' value value') :
      Concur lax known tied pairs related (.ok value left) (.ok value' right)
  | error {pairs' : Pairing} {fault fault' : Fault} {left right : State σ} (wider : pairs.Extends pairs')
      (abreast : Abreast lax known tied pairs' left right) (kind : fault.kind = fault'.kind) :
      Concur lax known tied pairs related (.error fault left) (.error fault' right)
  | leftSpent (excuse : lax) {limit : Limit} {left : State σ} {result : EStateM.Result Fault (State σ) α} :
      Concur lax known tied pairs related (.error (.exhausted limit) left) result
  | rightSpent (excuse : lax) {limit : Limit} {right : State σ} {result : EStateM.Result Fault (State σ) α} :
      Concur lax known tied pairs related result (.error (.exhausted limit) right)

-- The heap that is left can be addressed.
abbrev Fits {σ α : Type} (result : EStateM.Result Fault (State σ) α) : Prop :=
  result.state.world.heap.Addressable

variable {σ α β : Type} {lax : Prop} {known : Handle → Prop} {tied : Pairing → Heap → Heap → Prop}
  {peers : Actor → Actor → Prop} {pairs pairs' : Pairing} {left right : State σ} {evaluator evaluator' : Evaluator}
  {env env' : Env} {expr : Expr}

theorem Fits.before {first : MachineM σ α} {next : α → MachineM σ β} (fits : Fits ((first >>= next) left))
    (grows : ∀ value, Moves (Works growing.along) (next value)) : Fits (first left) := by
  unfold Fits at fits ⊢
  cases ended : first left with
  | ok value middle =>
    rw [bind_ok ended] at fits
    exact fits.mono (grows value middle).heap
  | error fault middle =>
    rw [bind_error ended] at fits
    exact fits

namespace Concur

variable {related : Pairing → α → α → Prop} {related' : Pairing → β → β → Prop}

theorem earlier {result result' : EStateM.Result Fault (State σ) α} (wider : pairs.Extends pairs')
    (concur : Concur lax known tied pairs' related result result') : Concur lax known tied pairs related result result' := by
  cases concur with
  | ok wider' abreast both => exact .ok (wider.trans wider') abreast both
  | error wider' abreast kind => exact .error (wider.trans wider') abreast kind
  | leftSpent excuse => exact .leftSpent excuse
  | rightSpent excuse => exact .rightSpent excuse

theorem andThen {first first' : MachineM σ α} {next next' : α → MachineM σ β}
    (early : Concur lax known tied pairs related (first left) (first' right))
    (late : ∀ {pairs' value value' middle middle'}, first left = .ok value middle → first' right = .ok value' middle' →
      pairs.Extends pairs' → Abreast lax known tied pairs' middle middle' → related pairs' value value' →
      Concur lax known tied pairs' related' (next value middle) (next' value' middle')) :
    Concur lax known tied pairs related' ((first >>= next) left) ((first' >>= next') right) := by
  generalize ended : first left = result at early
  generalize ended' : first' right = result' at early
  cases early with
  | ok wider abreast both =>
    rw [bind_ok ended, bind_ok ended']
    exact (late ended ended' wider abreast both).earlier wider
  | error wider abreast kind =>
    rw [bind_error ended, bind_error ended']
    exact .error wider abreast kind
  | leftSpent excuse =>
    rw [bind_error ended]
    exact .leftSpent excuse
  | rightSpent excuse =>
    rw [bind_error ended']
    exact .rightSpent excuse

/-- What follows may add nodes, so the heaps must still fit at the end. -/
theorem bind {first first' : MachineM σ α} {next next' : α → MachineM σ β}
    (early : Fits (first left) → Fits (first' right) →
      Concur lax known tied pairs related (first left) (first' right))
    (grows : ∀ value, Moves (Works growing.along) (next value)) (grows' : ∀ value, Moves (Works growing.along) (next' value))
    (late : ∀ {pairs' value value' middle middle'}, pairs.Extends pairs' → Abreast lax known tied pairs' middle middle' →
      related pairs' value value' → Fits (next value middle) → Fits (next' value' middle') →
      Concur lax known tied pairs' related' (next value middle) (next' value' middle'))
    (fits : Fits ((first >>= next) left)) (fits' : Fits ((first' >>= next') right)) :
    Concur lax known tied pairs related' ((first >>= next) left) ((first' >>= next') right) := by
  refine andThen (early (fits.before grows) (fits'.before grows')) ?_
  intro pairs' value value' middle middle' ended ended' wider abreast both
  rw [Fits, bind_ok ended] at fits
  rw [Fits, bind_ok ended'] at fits'
  exact late wider abreast both fits fits'

theorem pure {value value' : α} (abreast : Abreast lax known tied pairs left right) (both : related pairs value value') :
    Concur lax known tied pairs related (.ok value left) (.ok value' right) :=
  .ok (.refl pairs) abreast both

theorem throw {fault fault' : Fault} (abreast : Abreast lax known tied pairs left right)
    (kind : fault.kind = fault'.kind) :
    Concur lax known tied pairs related (.error fault left) (.error fault' right) :=
  .error (.refl pairs) abreast kind

theorem settle {outcome outcome' : Except Fault α} (abreast : Abreast lax known tied pairs left right)
    (coincide : Coincide (related pairs) outcome outcome') :
    Concur lax known tied pairs related (settle outcome left) (settle outcome' right) := by
  cases outcome <;> cases outcome'
  · exact .throw abreast coincide
  · cases coincide
  · cases coincide
  · exact .pure abreast coincide

end Concur

/-! ### Frames that are resumed -/

theorem push_concur (alike : Peers lax peers evaluator evaluator') (abreast : Abreast lax known tied pairs left right)
    {frame frame' : Frame} (frames : frame.Alike known pairs frame') :
    Concur lax known tied pairs (fun _ _ _ => True) (push evaluator frame left) (push evaluator' frame' right) := by
  have depth : left.stack.depth = right.stack.depth := by
    rw [left.stack.depth_eq, right.stack.depth_eq, abreast.frames.length_eq]
  unfold push
  by_cases full : evaluator.settings.maxWorkStack.toNat ≤ left.stack.depth
  · rw [if_pos full]
    by_cases excuse : lax
    · exact .leftSpent excuse
    · rw [← alike.settings excuse, ← depth, if_pos full]
      exact .throw abreast rfl
  · rw [if_neg full]
    by_cases full' : evaluator'.settings.maxWorkStack.toNat ≤ right.stack.depth
    · rw [if_pos full']
      refine .rightSpent (Classical.byContradiction fun strict => full ?_)
      rw [alike.settings strict, depth]
      exact full'
    · rw [if_neg full']
      exact .pure ⟨abreast.heaps, .cons frames abreast.frames, abreast.gauges⟩ trivial

theorem pushing_concur (alike : Peers lax peers evaluator evaluator') (abreast : Abreast lax known tied pairs left right)
    {frame frame' : Frame} (frames : frame.Alike known pairs frame') {control control' : Control}
    (controls : control.Alike known pairs control') :
    Concur lax known tied pairs (Control.Alike known) ((push evaluator frame >>= fun _ => pure control) left)
      ((push evaluator' frame' >>= fun _ => pure control') right) :=
  (push_concur alike abreast frames).andThen fun _ _ wider abreast' _ => .pure abreast' (controls.mono wider)

theorem nextOperand_concur {host host' : Host σ} (alike : Peers lax peers evaluator evaluator')
    (abreast : Abreast lax known tied pairs left right) {op : Primitive} {done done' : List Node} {pending : List Expr}
    (evaluated : List.Forall₂ (Node.Alike known pairs) done done') (code : ∀ expr ∈ pending, expr.Sealed known)
    (each : List.Forall₂ pairs env env') :
    Concur lax known tied pairs (Control.Alike known)
      (nextOperand host evaluator (.primitive op) ⟨done, pending, env⟩ left)
      (nextOperand host' evaluator' (.primitive op) ⟨done', pending, env'⟩ right) := by
  cases pending with
  | cons expr pending =>
    obtain ⟨here, rest⟩ := List.forall_mem_cons.mp code
    exact pushing_concur alike abreast (.call evaluated rest each) (.eval here each)
  | nil =>
    simp only [nextOperand, callStrict_primitive, Primitive.execute_alike op evaluated]
    cases executed : op.execute done with
    | error fault => exact .throw abreast rfl
    | ok node =>
      have plain : node.Plain := Primitive.execute_plain executed
      have answered : ∀ state : State σ, (settle (.ok node) >>= answer) state = .ok (.deliver (.fresh node)) state := by
        intro state
        show answer node state = _
        rw [answer, if_pos plain.whnf]
        rfl
      rw [answered, answered]
      exact .pure abreast (.deliver (.fresh (.of_plain plain)))

theorem apply_concur (alike : Peers lax peers evaluator evaluator') (abreast : Abreast lax known tied pairs left right)
    {callee callee' : Node} {args args' : List Handle} (callees : callee.Alike known pairs callee')
    (each : List.Forall₂ pairs args args') :
    Concur lax known tied pairs (Control.Alike known) (apply evaluator callee args left)
      (apply evaluator' callee' args' right) := by
  cases callees with
  | @function code bound bound' body bounds =>
    have remaining : code.remaining bound = code.remaining bound' := by simp only [Lambda.remaining, bounds.length_eq]
    have rest := List.forall₂_drop (code.remaining bound') each
    have inner : List.Forall₂ pairs (bound ++ args.take (code.remaining bound'))
        (bound' ++ args'.take (code.remaining bound')) := List.rel_append bounds (List.forall₂_take _ each)
    unfold apply
    simp only [remaining, each.length_eq, Forall₂.isEmpty_eq rest]
    by_cases few : args'.length < code.remaining bound'
    · simp only [few, if_true]
      exact .pure abreast (.deliver (.fresh (.function body (List.rel_append bounds each))))
    · by_cases exactly : (args'.drop (code.remaining bound')).isEmpty
      · simp only [few, exactly, if_true, if_false]
        exact .pure abreast (.eval body inner)
      · simp only [few, exactly, if_false]
        exact pushing_concur alike abreast (.apply rest) (.eval body inner)
  | _ => exact .throw abreast rfl

theorem resume_concur {host host' : Host σ} (alike : Peers lax peers evaluator evaluator')
    (abreast : Abreast lax known tied pairs left right) {frame frame' : Frame} {whnf whnf' : Whnf}
    (frames : frame.Alike known pairs frame') (plain : frame.isPlain) (values : whnf.Alike known pairs whnf') :
    Concur lax known tied pairs (Control.Alike known) (resume host evaluator frame whnf left)
      (resume host' evaluator' frame' whnf' right) := by
  have nodes : whnf.node.Alike known pairs whnf'.node := by cases values <;> assumption
  cases frames with
  | update | redirect => cases plain
  | apply each => exact apply_concur alike abreast nodes each
  | call evaluated code each =>
    exact nextOperand_concur alike abreast (List.rel_append evaluated (.cons nodes .nil)) code each
  | choose code default each => exact .settle abreast (select_coincide code default each nodes)
  | seq code each => exact .pure abreast (.eval code each)

/-! ### Expressions, with new nodes -/

variable [Joint known tied]

theorem Abreast.adds (abreast : Abreast lax known tied pairs left right) {heap heap' : Heap}
    {handles handles' : List Handle} {nodes nodes' : List Node} (adds : left.world.heap.Adds heap handles nodes)
    (adds' : right.world.heap.Adds heap' handles' nodes')
    (alike : List.Forall₂ (Node.Alike known (pairs.adding handles handles')) nodes nodes') :
    Abreast lax known tied (pairs.adding handles handles') { left with world := { left.world with heap := heap } }
      { right with world := { right.world with heap := heap' } } where
  heaps := Joint.adds abreast.heaps adds adds' alike
  frames := abreast.frames.imp fun _ _ frames => frames.mono (pairs.extends_adding handles handles')
  gauges := abreast.gauges

theorem alloc_concur (abreast : Abreast lax known tied pairs left right) {node node' : Node}
    (alike : node.Alike known pairs node') (fits : Fits (onHeap (Heap.alloc node) left))
    (fits' : Fits (onHeap (Heap.alloc node') right)) :
    Concur lax known tied pairs id (onHeap (Heap.alloc node) left) (onHeap (Heap.alloc node') right) := by
  obtain ⟨unbounded, unbounded'⟩ := Joint.unbounded known abreast.heaps
  obtain ⟨free, free'⟩ := Joint.free known abreast.heaps
  obtain ⟨handle, heap, allocated, adds⟩ := Heap.alloc_adds unbounded node
  obtain ⟨handle', heap', allocated', adds'⟩ := Heap.alloc_adds unbounded' node'
  unfold Fits at fits fits'
  rw [onHeap_ok allocated] at fits ⊢
  rw [onHeap_ok allocated'] at fits' ⊢
  have wider := pairs.extends_adding [handle] [handle']
  refine .ok wider (abreast.adds (adds free fits) (adds' free' fits') (.cons (alike.mono wider) .nil)) ?_
  exact .inr (.head _)

theorem allocGroup_concur (abreast : Abreast lax known tied pairs left right) {count : UInt64}
    {build build' : List Handle → List Node} (exactly : ∀ handles, (build handles).length = count.toNat)
    (exactly' : ∀ handles, (build' handles).length = count.toNat)
    (alike : ∀ {handles handles'}, handles.length = handles'.length →
      List.Forall₂ (Node.Alike known (pairs.adding handles handles')) (build handles) (build' handles'))
    (fits : Fits (onHeap (Heap.allocGroup count fun handles heap => (build handles, heap)) left))
    (fits' : Fits (onHeap (Heap.allocGroup count fun handles heap => (build' handles, heap)) right)) :
    Concur lax known tied pairs List.Forall₂
      (onHeap (Heap.allocGroup count fun handles heap => (build handles, heap)) left)
      (onHeap (Heap.allocGroup count fun handles heap => (build' handles, heap)) right) := by
  obtain ⟨unbounded, unbounded'⟩ := Joint.unbounded known abreast.heaps
  obtain ⟨free, free'⟩ := Joint.free known abreast.heaps
  obtain ⟨handles, heap, allocated, adds⟩ := Heap.allocGroup_adds unbounded exactly
  obtain ⟨handles', heap', allocated', adds'⟩ := Heap.allocGroup_adds unbounded' exactly'
  unfold Fits at fits fits'
  rw [onHeap_ok allocated] at fits ⊢
  rw [onHeap_ok allocated'] at fits' ⊢
  have added := adds free fits
  have added' := adds' free' fits'
  have lengths : handles.length = handles'.length := by
    rw [added.lengths, added'.lengths, exactly, exactly']
  exact .ok (pairs.extends_adding handles handles') (abreast.adds added added' (alike lengths))
    (pairs.adding_forall₂ lengths)

theorem suspend_concur (abreast : Abreast lax known tied pairs left right) (each : List.Forall₂ pairs env env')
    (code : expr.Sealed known) (fits : Fits (suspend env expr left)) (fits' : Fits (suspend env' expr right)) :
    Concur lax known tied pairs id (suspend env expr left) (suspend env' expr right) := by
  have coincide := Env.suspend_coincide each (Joint.named abreast.heaps) code
  unfold suspend at fits fits' ⊢
  generalize env.suspend expr = outcome at coincide fits ⊢
  generalize env'.suspend expr = outcome' at coincide fits' ⊢
  cases outcome <;> cases outcome'
  · exact .throw abreast coincide
  · cases coincide
  · cases coincide
  · cases coincide with
    | existing both => exact .pure abreast both
    | new alike => exact alloc_concur abreast alike fits fits'

theorem suspendAll_concur {exprs : List Expr} (abreast : Abreast lax known tied pairs left right)
    (each : List.Forall₂ pairs env env') (code : ∀ expr ∈ exprs, expr.Sealed known)
    (fits : Fits (suspendAll env exprs left)) (fits' : Fits (suspendAll env' exprs right)) :
    Concur lax known tied pairs List.Forall₂ (suspendAll env exprs left) (suspendAll env' exprs right) := by
  induction exprs generalizing pairs left right with
  | nil => exact .pure abreast .nil
  | cons head tail ih =>
    have unfolds : ∀ env, suspendAll (σ := σ) env (head :: tail) =
        (do let first ← suspend env head; let rest ← suspendAll env tail; return first :: rest) := fun _ => List.mapM_cons
    obtain ⟨here, rest⟩ := List.forall_mem_cons.mp code
    rw [unfolds] at fits fits' ⊢
    rw [unfolds env']
    have grows : ∀ env (first : Handle), Moves (Works growing.along)
        (do let rest ← suspendAll env tail; return first :: rest : MachineM σ (List Handle)) :=
      fun env _ => (suspendAll_works env tail).bind fun _ => Moves.pure _
    refine Concur.bind (suspend_concur abreast each here) (grows env) (grows env') ?_ fits fits'
    intro pairs' first first' middle middle' wider abreast' both fits fits'
    refine Concur.bind (ih abreast' (each.imp wider) rest) (fun _ => Moves.pure _) (fun _ => Moves.pure _) ?_ fits fits'
    intro pairs'' others others' last last' wider' abreast'' all _ _
    exact .pure abreast'' (.cons (wider' _ _ both) all)

theorem bindingNodes_alike (each : List.Forall₂ pairs env env') (named : ∀ handle, known handle → pairs handle handle)
    {bindings : List Expr} (code : ∀ binding ∈ bindings, binding.Sealed known) {handles handles' : List Handle}
    (lengths : handles.length = handles'.length) :
    List.Forall₂ (Node.Alike known (pairs.adding handles handles')) (bindingNodes env bindings handles)
      (bindingNodes env' bindings handles') := by
  have wider := pairs.extends_adding handles handles'
  have inner : List.Forall₂ (pairs.adding handles handles') (env ++ handles) (env' ++ handles') :=
    List.rel_append (each.imp wider) (pairs.adding_forall₂ lengths)
  unfold bindingNodes
  rw [List.forall₂_map_left_iff, List.forall₂_map_right_iff, List.forall₂_same]
  intro binding member
  have coincide := Env.binding_coincide inner (fun handle isKnown => wider _ _ (named handle isKnown)) (code binding member)
  generalize (env ++ handles).binding binding = outcome at coincide ⊢
  generalize (env' ++ handles').binding binding = outcome' at coincide ⊢
  cases outcome <;> cases outcome'
  · exact .data .nil
  · cases coincide
  · cases coincide
  · exact coincide

theorem bindAll_concur {bindings : List Expr} (abreast : Abreast lax known tied pairs left right)
    (each : List.Forall₂ pairs env env') (code : ∀ binding ∈ bindings, binding.Sealed known)
    (short : bindings.length < UInt64.size) (fits : Fits (bindAll env bindings left))
    (fits' : Fits (bindAll env' bindings right)) :
    Concur lax known tied pairs List.Forall₂ (bindAll env bindings left) (bindAll env' bindings right) := by
  have unfolds : ∀ env, bindAll (σ := σ) env bindings =
      onHeap (Heap.allocGroup (UInt64.ofNat bindings.length) fun handles heap =>
        (bindingNodes env bindings handles, heap)) >>= fun handles => do
          let _ ← settle (bindings.mapM (env ++ handles).binding)
          return env ++ handles := fun _ => rfl
  rw [unfolds] at fits fits' ⊢
  rw [unfolds env']
  have grows : ∀ env handles, Moves (Works growing.along) (do
      let _ ← settle (bindings.mapM (Env.binding (env ++ handles)))
      return env ++ handles : MachineM σ Env) := fun _ _ => (settle_works _).bind fun _ => Moves.pure _
  have named : ∀ handle, known handle → pairs handle handle := Joint.named abreast.heaps
  have exactly : ∀ env handles, (bindingNodes env bindings handles).length = (UInt64.ofNat bindings.length).toNat := by
    intro env handles
    rw [bindingNodes, List.length_map, UInt64.toNat_ofNat_of_lt' short]
  refine Concur.bind (allocGroup_concur abreast (exactly env) (exactly env') (bindingNodes_alike each named code))
    (grows env) (grows env') ?_ fits fits'
  intro pairs' handles handles' middle middle' wider abreast' both fits fits'
  have inner : List.Forall₂ pairs' (env ++ handles) (env' ++ handles') := List.rel_append (each.imp wider) both
  have built : Concur lax known tied pairs' (fun pairs => List.Forall₂ (Node.Alike known pairs))
      (settle (bindings.mapM (env ++ handles).binding) middle) (settle (bindings.mapM (env' ++ handles').binding) middle') :=
    .settle abreast' (Coincide.mapM bindings fun binding member =>
      Env.binding_coincide inner (fun handle isKnown => wider _ _ (named handle isKnown)) (code binding member))
  refine Concur.bind (fun _ _ => built) (fun _ => Moves.pure _) (fun _ => Moves.pure _) ?_ fits fits'
  intro pairs'' _ _ last last' wider' abreast'' _ _ _
  exact .pure abreast'' (inner.imp wider')

theorem eval_concur {host host' : Host σ} (alike : Peers lax peers evaluator evaluator')
    (abreast : Abreast lax known tied pairs left right) (code : expr.Sealed known) (each : List.Forall₂ pairs env env')
    (fits : Fits (eval host evaluator expr env left)) (fits' : Fits (eval host' evaluator' expr env' right)) :
    Concur lax known tied pairs (Control.Alike known) (eval host evaluator expr env left)
      (eval host' evaluator' expr env' right) := by
  obtain ⟨label, form⟩ := expr
  have fresh : ∀ {node : Node}, node.Plain →
      Concur lax known tied pairs (Control.Alike known) (deliver node left) (deliver node right) := fun plain =>
    .pure abreast (.deliver (.fresh (.of_plain plain)))
  unfold eval at fits fits' ⊢
  cases form with
  | var slot =>
    have found : Concur lax known tied pairs id (settle (env.lookup slot) left) (settle (env'.lookup slot) right) :=
      .settle abreast (Env.lookup_coincide each slot)
    exact found.andThen fun _ _ _ abreast' both => .pure abreast' (.force both)
  | global node => exact .pure abreast (.force (Joint.named abreast.heaps node (code.names node .global)))
  | char value | int value | double value | text value => exact fresh ⟨rfl, rfl, rfl⟩
  | data ordinal name args =>
    refine Concur.bind (suspendAll_concur abreast each fun arg member => code.child member) (fun _ => Moves.pure _)
      (fun _ => Moves.pure _) ?_ fits fits'
    exact fun wider abreast' both _ _ => .pure abreast' (.deliver (.fresh (.data both)))
  | lambda lambda captures =>
    have body : lambda.body.Sealed known := code.child (.head _)
    have closed : Concur lax known tied pairs (Node.Alike known) (settle (env.close lambda captures) left)
        (settle (env'.close lambda captures) right) := .settle abreast (Env.close_coincide each body captures)
    exact closed.andThen fun _ _ _ abreast' alike => .pure abreast' (.deliver (.fresh alike))
  | apply fn args =>
    have fn' : fn.Sealed known := code.child (.head _)
    simp only at fits fits' ⊢
    split
    · exact .pure abreast (.eval fn' each)
    · rename_i present
      rw [if_neg present] at fits fits'
      have args' : ∀ arg ∈ args, arg.Sealed known := fun arg member => code.child (.tail _ member)
      have grows : ∀ (evaluator : Evaluator) (env : Env) (handles : List Handle), Moves (Works growing.along)
          (do push evaluator (.apply handles); return .eval fn env : MachineM σ Control) := fun evaluator env handles =>
        (push_works evaluator rfl).bind fun _ => Moves.pure _
      refine Concur.bind (suspendAll_concur abreast each args') (grows evaluator env) (grows evaluator' env') ?_ fits fits'
      exact fun wider abreast' both _ _ => pushing_concur alike abreast' (.apply both) (.eval fn' (each.imp wider))
  | primitive op args =>
    simp only
    split
    · exact nextOperand_concur alike abreast .nil (fun arg member => code.child member) each
    · exact .throw abreast rfl
  | host fn args => exact absurd rfl (code.hostFree _ fn args .whole)
  | choose scrutinee alternatives otherwise =>
    refine pushing_concur alike abreast (.choose (fun alternative member => code.child ?_)
      (fun body present => code.child ?_) each) (.eval (code.child (.head _)) each)
    · exact .tail _ (List.mem_append_left _ (List.mem_map_of_mem member))
    · exact .tail _ (List.mem_append_right _ (by simp [present]))
  | letrec bindings body =>
    have bindings' : ∀ binding ∈ bindings, binding.Sealed known := fun binding member =>
      code.child (List.mem_append_left _ member)
    have body' : body.Sealed known := code.child (List.mem_append_right bindings (.head []))
    have short := code.short _ bindings body .whole rfl
    refine Concur.bind (bindAll_concur abreast each bindings' short) (fun _ => Moves.pure _) (fun _ => Moves.pure _) ?_
      fits fits'
    exact fun wider abreast' inner _ _ => .pure abreast' (.eval body' inner)
  | seq first second =>
    exact pushing_concur alike abreast (.seq (code.child (.tail _ (.head _))) each) (.eval (code.child (.head _)) each)
  | raise message => exact .throw abreast rfl

end Machine

end LazyGraph

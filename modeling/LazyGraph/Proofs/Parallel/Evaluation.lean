import LazyGraph.Proofs.Parallel.Allocation
import LazyGraph.Proofs.Sharing.Mirror

/-! Evaluators that keep step with an evaluation that ends.

The frames of an evaluator lie beside the holes of an unshared configuration, as they do for an
evaluator that works alone. That the configuration ends is all that is known of it, and it
is enough: where evaluation without sharing can move, the evaluator can. -/

set_option autoImplicit false

namespace LazyGraph

open Unshared Machine

theorem Comes.wider {graph : Heap} {reading reading' : Reading} {task : Task} {handle : Handle}
    (comes : Comes graph reading task handle) (wider : reading.Extends reading') : Comes graph reading' task handle := by
  obtain ⟨closure, read, becomes⟩ := comes
  exact ⟨closure, wider _ _ read, becomes⟩

namespace Parallel

variable {σ α : Type} {host : Host σ} {evaluator : Evaluator} {graph : Heap} {known : Handle → Prop}
  {account account' : Account} {state state' after : State σ} {actor : Actor} {frames pushed : List Frame}
  {task task' : Task} {above above' below : List Hole} {config config' : Config} {shape : Shape} {heap heap' : Heap}
  {control : Control} {expr : Expr} {env : Env} {scope : List Closure}

/-! ### Configurations that end -/

theorem ends_onward {least : Nat} (ends : Ends graph config shape) (leads : Arrives graph least config config') :
    Ends graph config' shape := by
  obtain ⟨count, whole⟩ := ends
  obtain ⟨left, _, remains⟩ := leads.remains whole
  exact ⟨left, remains⟩

theorem eval_moves (ends : Ends graph (.eval expr scope, below) shape) : ∃ move, eval? expr scope = some move := by
  cases moves : eval? expr scope with
  | some move => exact ⟨move, rfl⟩
  | none => exact absurd ⟨shape, ends⟩ (unfinished_of_stuck (by simp [step, moves]) (by simp))

theorem resume_moves {hole : Hole} {scrutinee : Shape} (ends : Ends graph (.deliver scrutinee, hole :: below) shape) :
    ∃ move, resume? hole scrutinee = some move := by
  cases moves : resume? hole scrutinee with
  | some move => exact ⟨move, rfl⟩
  | none => exact absurd ⟨shape, ends⟩ (unfinished_of_stuck (by simp [step, moves]) (by simp))

/-! ### Frames beside holes -/

/-- The frames lie beside an unshared configuration that ends with the shape. -/
structure Beside (graph : Heap) (known : Handle → Prop) (actor : Actor) (shape : Shape) (account : Account) (heap : Heap)
    (frames : List Frame) (task : Task) (above below : List Hole) : Prop where
  backs : Backs graph known account.reading task above frames below
  ends : Ends graph (task, above ++ below) shape
  holds : Holds heap actor frames
  own : account.own actor = []

structure Working (graph : Heap) (known : Handle → Prop) (actor : Actor) (shape : Shape) (account : Account) (heap : Heap)
    (frames : List Frame) (task : Task) (above below : List Hole) : Prop extends
    Beside graph known actor shape account heap frames task above below where
  only : ∀ {node content}, heap.lookup node = .ok ⟨.inProgress actor, content⟩ → .update node ∈ frames

theorem Beside.later (beside : Beside graph known actor shape account heap frames task above below)
    (minds : Minds actor account heap account' heap') :
    Beside graph known actor shape account' heap' frames task above below where
  backs := beside.backs.mono minds.wider
  ends := beside.ends
  holds := beside.holds.step fun _ found => minds.held found
  own := minds.own.trans beside.own

namespace Working

theorem later (working : Working graph known actor shape account heap frames task above below)
    (minds : Minds actor account heap account' heap') :
    Working graph known actor shape account' heap' frames task above below where
  toBeside := working.toBeside.later minds
  only := by
    intro node content found
    obtain ⟨_, found⟩ := minds.unclaimed found
    exact working.only found

/-- The configuration moves on, and plain frames are pushed for the holes that it opens. -/
theorem moves {least : Nat} (working : Working graph known actor shape account heap frames task above below)
    (turns : Turns graph least task above task' above') (fits : List.Forall₂ (Matches known account.reading) pushed above') :
    Working graph known actor shape account heap (pushed ++ frames) task' [] (above' ++ below) where
  backs := .push fits (by simpa using working.backs.turns turns (List.append_nil above).symm)
  ends := ends_onward working.ends (turns below)
  holds := working.holds.append fun node member => by cases isPlain_of_matches fits _ member
  only := fun found => List.mem_append_right _ (working.only found)
  own := working.own

end Working

/-- What an evaluator is at. While it follows a chain it has yet to come to a closure, or it has
come to where the value lies. -/
inductive Standing (graph : Heap) (known : Handle → Prop) (actor : Actor) (shape : Shape) (account : Account)
    (state : State σ) : Pace → Prop where
  | turn {control : Control} {task : Task} {holes : List Hole}
      (shows : Shows known account.reading state.world.heap.settled control task)
      (working : Working graph known actor shape account state.world.heap state.stack.items task [] holes)
      (unwaiting : state.world.heap.waits.lookup actor = none) : Standing graph known actor shape account state (.turn control)
  | onward {links : List Handle} {current : Handle} {closure : Closure} {holes : List Hole}
      (read : account.reading current = some closure)
      (comes : ∀ link ∈ links, Comes graph account.reading (.force closure) link)
      (working : Working graph known actor shape account state.world.heap state.stack.items (.force closure) [] holes)
      (unwaiting : state.world.heap.waits.lookup actor = none) :
      Standing graph known actor shape account state (.walk links current)
  | landed {links : List Handle} {current : Handle} {node : Node} {value : Shape} {holes : List Hole}
      (keeps : state.world.heap.settled.Keeps current node) (denotes : Denotes known account.reading node value)
      (comes : ∀ link ∈ links, Comes graph account.reading (.deliver value) link)
      (working : Working graph known actor shape account state.world.heap state.stack.items (.deliver value) [] holes)
      (unwaiting : state.world.heap.waits.lookup actor = none) :
      Standing graph known actor shape account state (.walk links current)
  | awaits {links : List Handle} {node : Handle} {closure : Closure} {holes : List Hole}
      (read : account.reading node = some closure) (comes : ∀ link ∈ links, Comes graph account.reading (.force closure) link)
      (working : Working graph known actor shape account state.world.heap state.stack.items (.force closure) [] holes) :
      Standing graph known actor shape account state (.turn (.await links node))

theorem shows_later (shows : Shows known account.reading heap.settled control task)
    (minds : Minds actor account heap account' heap') : Shows known account'.reading heap'.settled control task := by
  cases shows with
  | eval reads code => exact .eval (reads.mono minds.wider) code
  | force read => exact .force (minds.wider _ _ read)
  | deliver denotes stored =>
    exact .deliver (denotes.mono minds.wider) fun handle located => minds.keeps denotes.whnf (stored handle located)

theorem Standing.later {pace : Pace} (standing : Standing graph known actor shape account state pace)
    (later : Later graph known actor account state account' state') :
    Standing graph known actor shape account' state' pace := by
  have minds := later.minds
  cases standing with
  | turn shows working unwaiting =>
    exact .turn (shows_later shows minds) (later.stack ▸ working.later minds) (minds.waits.trans unwaiting)
  | onward read comes working unwaiting =>
    exact .onward (minds.wider _ _ read) (fun link member => (comes link member).wider minds.wider)
      (later.stack ▸ working.later minds) (minds.waits.trans unwaiting)
  | landed keeps denotes comes working unwaiting =>
    exact .landed (minds.keeps denotes.whnf keeps) (denotes.mono minds.wider)
      (fun link member => (comes link member).wider minds.wider) (later.stack ▸ working.later minds)
      (minds.waits.trans unwaiting)
  | awaits read comes working =>
    exact .awaits (minds.wider _ _ read) (fun link member => (comes link member).wider minds.wider)
      (later.stack ▸ working.later minds)

theorem Standing.of_heap {holes : List Hole} (same : state.world.heap = heap) (items : state.stack.items = frames)
    (shows : Shows known account.reading heap.settled control task)
    (working : Working graph known actor shape account heap frames task [] holes)
    (unwaiting : heap.waits.lookup actor = none) : Standing graph known actor shape account state (.turn control) := by
  subst same items
  exact .turn shows working unwaiting

/-! ### Actions that take no notice of the heap -/

def withHeap (state : State σ) (heap : Heap) : State σ :=
  { state with world := { state.world with heap := heap } }

/-- The action leaves the heap as it is, perhaps pushes plain frames, and does the same on any
other heap. -/
def Blind (action : MachineM σ α) : Prop :=
  ∀ state heap,
    (∃ value after, action state = .ok value after ∧ Works Eq state after ∧
      action (withHeap state heap) = .ok value (withHeap after heap)) ∨
    ∃ fault after, action state = .error fault after ∧ Works Eq state after ∧
      action (withHeap state heap) = .error fault (withHeap after heap)

namespace Blind

variable {β : Type}

theorem pure (value : α) : Blind (Pure.pure value : MachineM σ α) :=
  fun state _ => .inl ⟨value, state, rfl, .of_same rfl rfl, rfl⟩

theorem throw (fault : Fault) : Blind (MonadExcept.throw fault : MachineM σ α) :=
  fun state _ => .inr ⟨fault, state, rfl, .of_same rfl rfl, rfl⟩

theorem settle (outcome : Except Fault α) : Blind (settle outcome : MachineM σ α) := by
  cases outcome with
  | ok value => exact .pure value
  | error fault => exact .throw fault

theorem push {frame : Frame} (plain : frame.isPlain) : Blind (push evaluator frame : MachineM σ Unit) := by
  intro state heap
  unfold Machine.push
  by_cases full : evaluator.settings.maxWorkStack.toNat ≤ state.stack.depth
  · have full' : evaluator.settings.maxWorkStack.toNat ≤ (withHeap state heap).stack.depth := full
    rw [if_pos full, if_pos full']
    exact .inr ⟨_, _, rfl, .of_same rfl rfl, rfl⟩
  · have room : ¬ evaluator.settings.maxWorkStack.toNat ≤ (withHeap state heap).stack.depth := full
    rw [if_neg full, if_neg room]
    exact .inl ⟨_, _, rfl, ⟨⟨[frame], List.forall_mem_singleton.mpr plain, rfl⟩, rfl⟩, rfl⟩

theorem works_trans (early : Works Eq state state') (late : Works Eq state' after) : Works Eq state after := by
  obtain ⟨⟨pushed, plain, items⟩, heap⟩ := early
  obtain ⟨⟨pushed', plain', items'⟩, heap'⟩ := late
  exact ⟨⟨pushed' ++ pushed, List.forall_mem_append.mpr ⟨plain', plain⟩, by rw [items', items, List.append_assoc]⟩,
    heap.trans heap'⟩

theorem bind {first : MachineM σ β} {next : β → MachineM σ α} (early : Blind first) (late : ∀ value, Blind (next value)) :
    Blind (first >>= next) := by
  intro state heap
  rcases early state heap with ⟨value, middle, ended, works, ended'⟩ | ⟨fault, after, ended, works, ended'⟩
  · rw [bind_ok ended, bind_ok ended']
    rcases late value middle heap with ⟨value', after, goes, works', goes'⟩ | ⟨fault, after, goes, works', goes'⟩
    · exact .inl ⟨value', after, goes, works_trans works works', goes'⟩
    · exact .inr ⟨fault, after, goes, works_trans works works', goes'⟩
  · rw [bind_error ended, bind_error ended']
    exact .inr ⟨fault, after, rfl, works, rfl⟩

/-- Operations return values, so nothing is allocated for them. -/
theorem nextOperand (op : Primitive) (operands : Operands) :
    Blind (nextOperand host evaluator (.primitive op) operands) := by
  unfold Machine.nextOperand
  split
  · exact (push rfl).bind fun _ => .pure _
  · rw [callStrict_primitive]
    cases executed : op.execute operands.done with
    | error fault => exact .throw fault
    | ok node =>
      have answers : (Machine.settle (.ok node) >>= answer : MachineM σ Control) = Pure.pure (.deliver (.fresh node)) := by
        show answer node = _
        rw [answer, if_pos (Primitive.execute_plain executed).whnf]
        rfl
      rw [answers]
      exact .pure _

theorem apply (callee : Node) (args : List Handle) : Blind (apply evaluator callee args : MachineM σ Control) := by
  unfold Machine.apply
  split
  · simp only
    split
    · exact .pure _
    · split
      · exact .pure _
      · exact (push rfl).bind fun _ => .pure _
  · exact .throw _

theorem resume {frame : Frame} {hole : Hole} {reading : Reading} (fits : Matches known reading frame hole) (whnf : Whnf) :
    Blind (Machine.resume host evaluator frame whnf) := by
  cases fits with
  | apply reads => exact apply _ _
  | call reads code => exact nextOperand _ _
  | choose reads code default => exact settle _
  | seq reads code => exact .pure _

theorem achieves {action : MachineM σ Control} {move : Move} (blind : Blind action)
    (sound : Sound graph known account state.world.heap)
    (working : Working graph known actor shape account state.world.heap state.stack.items task above below)
    (unwaiting : state.world.heap.waits.lookup actor = none) (fits : (action state).state.world.heap.Addressable)
    (tracked : (action (withHeap state state.world.heap.settled)).state.world.heap.Addressable →
      Tracks graph known account.reading state.world.heap.settled (Going known state.stack)
        (action (withHeap state state.world.heap.settled)) (some move))
    (turns : Turns graph 1 task above move.1 move.2.toList) :
    Achieves graph known actor (fun control account' after => Standing graph known actor shape account' after (.turn control))
      account state (action state) := by
  have settled : ∀ {after : State σ}, after.world.heap = state.world.heap → after.world.heap.Addressable →
      (withHeap after state.world.heap.settled).world.heap.Addressable := by
    intro after same fits
    rw [same] at fits
    unfold Heap.Addressable at fits ⊢
    simpa [withHeap] using fits
  rcases blind state state.world.heap.settled with
    ⟨control, after, ended, ⟨_, same⟩, ended'⟩ | ⟨fault, after, ended, ⟨⟨pushed, plain, items⟩, same⟩, ended'⟩
  · rw [ended] at fits ⊢
    rw [ended'] at tracked
    obtain ⟨_, expected, reading', grown, shows, pushed, items, matched⟩ := tracked (settled same.symm fits)
    cases expected
    have gains : state.world.heap.Gains state.world.heap [] := .of_same fun _ _ => .rfl
    have sound' : Sound graph known ⟨reading', account.pledged⟩ state.world.heap :=
      sound.grows grown gains sound.reserved sound.unread rfl
    have minds : ∀ other, Minds other account state.world.heap ⟨reading', account.pledged⟩ state.world.heap :=
      fun other => ⟨.grows gains sound.free grown.wider rfl, rfl⟩
    refine ⟨⟨reading', account.pledged⟩, ?_,
      .of_heap same.symm items shows ((working.later (minds actor)).moves turns matched) unwaiting⟩
    rw [← same]
    exact ⟨sound', fun other _ => minds other, rfl⟩
  · rw [ended'] at tracked
    rw [ended] at fits ⊢
    refine ⟨(tracked (settled same.symm fits)).resolve_right (by simp), ?_, account, .same sound same.symm⟩
    rw [← same, items]
    exact working.holds.append fun node member => by cases plain _ member

end Blind

/-! ### Evaluating -/

/-- The arguments of a constructor are suspended, and the value is delivered. -/
theorem data_sure {label : Nat} {ordinal : UInt32} {name : String} {args : List Expr}
    (sound : Sound graph known account state.world.heap) (reads : account.reading.Reads env scope)
    (code : (Expr.mk label (.data ordinal name args)).StaysIn known)
    (working : Working graph known actor shape account state.world.heap state.stack.items
      (.eval ⟨label, .data ordinal name args⟩ scope) [] below)
    (unwaiting : state.world.heap.waits.lookup actor = none) :
    Sure graph known actor (fun control account' after => Standing graph known actor shape account' after (.turn control))
      (eval host evaluator ⟨label, .data ordinal name args⟩ env) account state := by
  obtain ⟨move, moved⟩ := eval_moves working.ends
  obtain ⟨parts, suspended, same⟩ := Option.map_eq_some_iff.mp moved
  subst same
  refine (suspendAll_sure sound working.holds reads (fun arg member => code.child member) suspended).bind sound ?_
  rintro handles account' state' _ ⟨later, reads'⟩ account'' state'' latest
  refine Standing.later ?_ latest
  have working' := (working.later later.minds).moves (turns_eval moved) .nil
  have denotes : Denotes known account'.reading (.data ordinal name handles) ⟨.data ordinal name [], parts⟩ :=
    ⟨rfl, rfl, reads', by simp [Node.code?]⟩
  exact .turn (Shows.fresh denotes) (later.stack ▸ working') (later.minds.waits.trans unwaiting)

/-- Without arguments the function is evaluated at once; else they are suspended and wait in a frame. -/
theorem apply_sure {label : Nat} {fn : Expr} {args : List Expr}
    (sound : Sound graph known account state.world.heap) (reads : account.reading.Reads env scope)
    (code : (Expr.mk label (.apply fn args)).StaysIn known)
    (working : Working graph known actor shape account state.world.heap state.stack.items
      (.eval ⟨label, .apply fn args⟩ scope) [] below)
    (unwaiting : state.world.heap.waits.lookup actor = none) :
    Sure graph known actor (fun control account' after => Standing graph known actor shape account' after (.turn control))
      (eval host evaluator ⟨label, .apply fn args⟩ env) account state := by
  obtain ⟨move, moved⟩ := eval_moves working.ends
  have fn' := code.child (.head _)
  by_cases empty : args.isEmpty
  · have opened : eval? ⟨label, .apply fn args⟩ scope = some (.eval fn scope, none) := by simp only [eval?, empty, if_true]
    have plan : eval host evaluator ⟨label, .apply fn args⟩ env = (Plan.ended (.eval fn env) : Plan σ Control) := by
      simp only [eval, empty, if_true]
      rfl
    rw [plan]
    intro account' state' later
    have working' := (working.later later.minds).moves (turns_eval opened) .nil
    exact .turn (.eval (reads.mono later.minds.wider) fn') (later.stack ▸ working') (later.minds.waits.trans unwaiting)
  · have plan : eval host evaluator ⟨label, .apply fn args⟩ env = (do
        let handles ← suspendAll env args
        .act (push evaluator (.apply handles)) fun _ => .ended (.eval fn env) : Plan σ Control) := by
      simp only [eval, empty]
      rfl
    rw [plan]
    have opened : (args.mapM (suspend? scope)).map (fun closures => ((.eval fn scope, some (.apply closures)) : Move)) =
        some move := by
      simpa only [eval?, empty, Bool.false_eq_true, if_false] using moved
    obtain ⟨closures, suspended, same⟩ := Option.map_eq_some_iff.mp opened
    subst same
    refine (suspendAll_sure sound working.holds reads (fun arg member => code.child (.tail _ member)) suspended).bind sound ?_
    rintro handles account' state' _ ⟨later, reads'⟩
    refine Sure.push (later.holds working.holds) fun account'' state'' after latest items world account''' state''' last => ?_
    refine Standing.later ?_ last
    have whole := later.trans latest
    have working' := (working.later whole.minds).moves (turns_eval moved)
      (.cons (.apply (reads'.mono latest.minds.wider)) .nil)
    refine .of_heap (by rw [world]) (by rw [items, whole.stack]; rfl) (.eval (reads.mono whole.minds.wider) fn') working' ?_
    exact whole.minds.waits.trans unwaiting

theorem letrec_sure {label : Nat} {bindings : List Expr} {body : Expr}
    (sound : Sound graph known account state.world.heap) (reads : account.reading.Reads env scope)
    (code : (Expr.mk label (.letrec bindings body)).StaysIn known)
    (working : Working graph known actor shape account state.world.heap state.stack.items
      (.eval ⟨label, .letrec bindings body⟩ scope) [] below)
    (unwaiting : state.world.heap.waits.lookup actor = none) :
    Sure graph known actor (fun control account' after => Standing graph known actor shape account' after (.turn control))
      (eval host evaluator ⟨label, .letrec bindings body⟩ env) account state := by
  obtain ⟨move, moved⟩ := eval_moves working.ends
  obtain ⟨inner, bound, same⟩ := Option.map_eq_some_iff.mp moved
  subst same
  have bindings' : ∀ binding ∈ bindings, binding.StaysIn known := fun binding member =>
    code.child (List.mem_append_left _ member)
  refine (bindAll_sure sound working.holds working.own reads bindings' bound).bind sound ?_
  rintro env' account' state' _ ⟨later, reads'⟩ account'' state'' latest
  refine Standing.later ?_ latest
  have working' := (working.later later.minds).moves (turns_eval moved) .nil
  exact .turn (.eval reads' (code.child (List.mem_append_right bindings (.head [])))) (later.stack ▸ working')
    (later.minds.waits.trans unwaiting)

theorem eval_sure (sound : Sound graph known account state.world.heap) (reads : account.reading.Reads env scope)
    (code : expr.StaysIn known)
    (working : Working graph known actor shape account state.world.heap state.stack.items (.eval expr scope) [] below)
    (unwaiting : state.world.heap.waits.lookup actor = none) :
    Sure graph known actor (fun control account' after => Standing graph known actor shape account' after (.turn control))
      (eval host evaluator expr env) account state := by
  obtain ⟨move, moved⟩ := eval_moves working.ends
  have once : Blind (Machine.eval host evaluator expr env) →
      Sure graph known actor (fun control account' after => Standing graph known actor shape account' after (.turn control))
        (.once (Machine.eval host evaluator expr env)) account state := by
    intro blind account' state' later fits
    have minds := later.minds
    refine Achieves.mono (blind.achieves later.sound (later.stack ▸ working.later minds) (minds.waits.trans unwaiting) fits
      (fun fits' => ?_) (turns_eval moved)) fun control account'' state'' standing _ _ latest => standing.later latest
    rw [← moved]
    exact eval_tracks later.sound.faithful (reads.mono minds.wider) code fits'
  obtain ⟨label, form⟩ := expr
  cases form with
  | data ordinal name args => exact data_sure sound reads code working unwaiting
  | apply fn args => exact apply_sure sound reads code working unwaiting
  | letrec bindings body => exact letrec_sure sound reads code working unwaiting
  | var slot => exact once ((Blind.settle _).bind fun _ => .pure _)
  | global node => exact once (.pure _)
  | char value | int value | double value | text value => exact once (.pure _)
  | lambda lambda captures => exact once ((Blind.settle _).bind fun _ => .pure _)
  | primitive op args =>
    refine once ?_
    unfold Machine.eval
    simp only
    split
    · exact .nextOperand _ _
    · exact .throw _
  | host fn args => exact absurd rfl (code.hostFree _ fn args .whole)
  | choose scrutinee alternatives otherwise => exact once ((Blind.push rfl).bind fun _ => .pure _)
  | seq first second => exact once ((Blind.push rfl).bind fun _ => .pure _)
  | raise message => exact once (.throw _)

end Parallel

end LazyGraph

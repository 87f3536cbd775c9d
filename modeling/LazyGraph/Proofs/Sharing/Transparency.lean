import LazyGraph.Proofs.Machine.Correspondence
import LazyGraph.Proofs.Sharing.ByNeed
import LazyGraph.Proofs.Sharing.Runs

/-! Sharing does not show in results.

On a heap at rest every handle stands for its own node, and both machines, the one that
shares and the one that evaluates by name, keep step with the same evaluation without a
heap. So they return the same heads, and one returns if the other does, unless the machine
that shares meets a thunk that was in progress from the start. -/

set_option autoImplicit false

namespace LazyGraph

open Unshared

/-! ### Heads -/

inductive Head where
  | char (value : Char)
  | int (value : Int64)
  | double (value : Float)
  | object (value : HostObject)
  | data (ordinal : UInt32) (name : String) (fields : Nat)
  | function (name : String) (remaining : Nat)

def Value.head : Value → Head
  | .char value => .char value
  | .int value => .int value
  | .double value => .double value
  | .object value => .object value
  | .data ordinal name fields => .data ordinal name fields.length
  | .function name remaining => .function name remaining

/-- The head of the value at the end of the chain, if it ends in one. -/
def Heap.head? (heap : Heap) (handle : Handle) : Option Head :=
  match heap.value handle with
  | .ok (some value) => some value.head
  | _ => none

def Unshared.Shape.head? (shape : Shape) : Option Head :=
  match shape.node with
  | .data ordinal name _ => some (.data ordinal name shape.parts.length)
  | .function code _ => some (.function code.name (code.envSize.toNat - shape.parts.length))
  | node => node.value?.map Value.head

variable {graph heap heap' : Heap} {known : Handle → Prop} {reading : Reading} {root handle handle' : Handle}
  {closure : Closure} {node : Node} {shape : Shape} {config : Config}

theorem Denotes.head (denotes : Denotes known reading node shape) :
    ∃ head, node.value?.map Value.head = some head ∧ shape.head? = some head := by
  obtain ⟨content, parts⟩ := shape
  obtain ⟨whnf, bare, reads, _⟩ := denotes
  have length := reads.length
  simp only at bare length
  subst bare
  cases node with
  | thunk | indirection => cases whnf
  | data ordinal name fields => exact ⟨_, rfl, by simp [Shape.head?, Node.bare, Value.head, ← length, Node.references]⟩
  | function code bound =>
    exact ⟨_, rfl, by simp [Shape.head?, Node.bare, Value.head, ← length, Node.references, Lambda.remaining]⟩
  | _ => exact ⟨_, rfl, rfl⟩

theorem Heap.head?_of_lookup {slotState : SlotState} (found : heap.lookup handle = .ok ⟨slotState, node⟩)
    (isWhnf : node.tag.isWhnf) :
    heap.head? handle = node.value?.map Value.head := by
  have landed : (heap.follow handle).landing = .at handle ⟨slotState, node⟩ := by
    rw [follow, followOn, followFrom_eq, found]
    cases node with
    | thunk | indirection => cases isWhnf
    | _ => rfl
  have shown : heap.value handle = .ok node.value? := by
    simp [value, resolveSlot, landed, Except.map]
  rw [Heap.head?, shown]
  cases node.value? <;> rfl

theorem Heap.Keeps.head? (keeps : heap.Keeps handle node) (isWhnf : node.tag.isWhnf) :
    heap.head? handle = node.value?.map Value.head :=
  head?_of_lookup keeps isWhnf

/-- Calls that return what one evaluation ends with return the same head. -/
theorem Machine.Returns.same (returns : Returns graph known config heap handle)
    (returns' : Returns graph known config heap' handle') :
    ∃ head, heap.head? handle = some head ∧ heap'.head? handle' = some head := by
  obtain ⟨shape, reading, node, ⟨_, ends⟩, keeps, denotes⟩ := returns
  obtain ⟨shape', reading', node', ⟨_, ends'⟩, keeps', denotes'⟩ := returns'
  cases ends.unique ends'
  obtain ⟨head, shows, same⟩ := denotes.head
  obtain ⟨head', shows', same'⟩ := denotes'.head
  cases same.symm.trans same'
  exact ⟨head, (keeps.head? denotes.whnf).trans shows, (keeps'.head? denotes'.whnf).trans shows'⟩

/-! ### Heaps at rest -/

namespace Heap

/-- What the root reaches, and what is held or named there. -/
def Mentions (heap : Heap) (root handle : Handle) : Prop :=
  heap.Reachable (· = root) handle ∨ ∃ source, heap.Reachable (· = root) source ∧ heap.Edge source handle

theorem Mentions.reachable (mentions : heap.Mentions root handle) (live : heap.Live handle) :
    heap.Reachable (· = root) handle := by
  rcases mentions with reached | ⟨source, reached, edge⟩
  · exact reached
  · obtain ⟨slot, found⟩ := live
    exact .step reached edge found

open Classical in
noncomputable def resting (heap : Heap) (root : Handle) : Reading :=
  fun handle => if heap.Mentions root handle then some (.node handle) else none

theorem resting_mentioned (mentions : heap.Mentions root handle) : heap.resting root handle = some (.node handle) :=
  if_pos mentions

theorem resting_eq_some (read : heap.resting root handle = some closure) :
    heap.Mentions root handle ∧ closure = .node handle := by
  unfold resting at read
  split at read
  · rename_i mentions
    cases read
    exact ⟨mentions, rfl⟩
  · cases read

theorem reads_resting {handles : List Handle} (each : ∀ handle ∈ handles, heap.Mentions root handle) :
    (heap.resting root).Reads handles (handles.map .node) := by
  unfold Reading.Reads
  rw [List.map_map]
  exact List.map_congr_left fun handle member => resting_mentioned (each handle member)

theorem Live.granted (live : heap.Live handle) (sound : heap.FreeListSound) : ¬ heap.Offers handle := by
  obtain ⟨slot, found⟩ := live
  rintro (beyond | ⟨listed, _⟩)
  · exact absurd (index_lt_of_lookup found) (Nat.not_lt_of_le beyond)
  · obtain ⟨generation, empty⟩ := sound.empty _ listed
    cases empty.symm.trans (lookup_eq_ok.mp found)

end Heap

theorem enter_value (keeps : heap.Keeps handle node) (isWhnf : node.tag.isWhnf) :
    enter? heap (.node handle) = some (.deliver ⟨node.bare, node.references.map .node⟩, none) := by
  simp only [enter?, show heap.lookup handle = _ from keeps]
  cases node with
  | thunk | indirection => cases isWhnf
  | _ => rfl

/-- The code that the root reaches calls no host function, and what it names and what the
nodes there hold was issued by the heap. -/
structure Heap.SelfContained (heap : Heap) (root : Handle) : Prop where
  regular : heap.Regular
  hostFree : ∀ {handle slot code}, heap.Reachable (· = root) handle → heap.lookup handle = .ok slot →
    slot.node.code? = some code → code.HostFree
  issued : ∀ {source target}, heap.Reachable (· = root) source → heap.Edge source target → ¬ heap.Offers target

theorem faithful_resting (contained : heap.SelfContained root) :
    Faithful heap (heap.Mentions root) (heap.resting root) heap where
  free := contained.regular.free
  live := by
    intro handle closure slot read found
    obtain ⟨mentions, rfl⟩ := Heap.resting_eq_some read
    have reached := mentions.reachable ⟨slot, found⟩
    have references : ∀ target ∈ slot.node.references, heap.Mentions root target :=
      fun target member => .inr ⟨handle, reached, .held found member⟩
    have code : ∀ code, slot.node.code? = some code → code.StaysIn (heap.Mentions root) := fun code runs =>
      ⟨contained.hostFree reached found runs, fun target names => .inr ⟨handle, reached, .named found runs names⟩⟩
    have proper := contained.regular.proper found
    obtain ⟨state, node⟩ := slot
    have evaluated : node.tag ≠ .thunk → state = .evaluated := proper.done
    cases node with
    | thunk expr env =>
      have becomes := becomes_of_enter (by simp [enter?, found] : enter? heap (.node handle) = some (.eval expr (env.map .node), none))
      exact .thunk (proper.mp rfl) (Heap.reads_resting references) (code expr rfl) becomes
    | indirection target =>
      obtain rfl := evaluated (by simp [Node.tag])
      exact .link (Heap.resting_mentioned (references target (.head _))) (becomes_of_enter (by simp [enter?, found]))
    | _ =>
      obtain rfl := evaluated (by simp [Node.tag])
      have becomes := becomes_of_enter (enter_value found rfl)
      exact .value ⟨rfl, rfl, Heap.reads_resting references, code⟩ becomes
  dead := by
    intro handle closure read dead
    obtain ⟨_, rfl⟩ := Heap.resting_eq_some read
    cases found : heap.lookup handle with
    | error fault => simp [enter?, found]
    | ok slot => exact absurd ⟨slot, found⟩ dead
  granted := by
    intro handle closure read
    obtain ⟨reached | ⟨source, reached, edge⟩, rfl⟩ := Heap.resting_eq_some read
    · exact Heap.Live.granted (by cases reached <;> exact ⟨_, ‹_›⟩) contained.regular.free
    · exact contained.issued reached edge
  known := Heap.resting_mentioned

/-! ### Calls -/

namespace Machine

variable {σ : Type} {host : Host σ} {evaluator : Evaluator} {state after : State σ} {result : Handle} {fuel : Nat}

/-- Both machines begin beside the evaluation of the root's own node. -/
theorem mirrors_begin (contained : state.world.heap.SelfContained root) (idle : state.stack.items = [])
    (live : state.world.heap.Live root) :
    Mirrors state.world.heap (state.world.heap.Mentions root) (state.world.heap.resting root) (.force root)
      (begin evaluator state) (.force (.node root), []) := by
  obtain ⟨slot, found⟩ := live
  refine ⟨faithful_resting contained, .force (Heap.resting_mentioned (.inl (.root rfl found))), ?_⟩
  have items : (begin evaluator state).stack.items = [] := idle
  rw [items]
  exact .nil []

theorem shares_begin (contained : state.world.heap.SelfContained root) (idle : state.stack.items = [])
    (live : state.world.heap.Live root) {calm : Prop}
    (settled : calm → ∀ {handle slot owner}, state.world.heap.Reachable (· = root) handle →
      state.world.heap.lookup handle = .ok slot → slot.state ≠ .inProgress owner) :
    Shares state.world.heap (state.world.heap.Mentions root) evaluator calm (.force root) (begin evaluator state)
      (.force (.node root), []) := by
  refine .runs (mirrors_begin contained idle live) ?_ fun isCalm => ?_
  · have items : (begin evaluator state).stack.items = [] := idle
    rw [items]
    exact .nil _ _
  · intro handle closure owner content read found
    obtain ⟨mentions, rfl⟩ := Heap.resting_eq_some read
    exact absurd rfl (settled isCalm (mentions.reachable ⟨_, found⟩) found)

theorem repeats_begin (contained : state.world.heap.SelfContained root) (idle : state.stack.items = [])
    (live : state.world.heap.Live root) :
    Repeats state.world.heap (state.world.heap.Mentions root) (.force root) (begin evaluator state)
      (.force (.node root), []) := by
  refine ⟨_, mirrors_begin contained idle live, ?_⟩
  have items : (begin evaluator state).stack.items = [] := idle
  rw [items]
  nofun

theorem live_of_forceWith {step : Control → MachineM σ Progress} {demanding : MachineM σ Control}
    (steps : step (.force root) = do tick evaluator; trace evaluator (.force root); continuing demanding)
    (failing : ∀ ready fault, ready.world.heap.followOn [] root = ⟨[], .broken fault⟩ → demanding ready = .error fault ready)
    (ended : forceWith step evaluator fuel root state = some (.ok result, after)) : state.world.heap.Live root := by
  cases found : state.world.heap.lookup root with
  | ok slot => exact ⟨slot, found⟩
  | error fault =>
    have broken : state.world.heap.followOn [] root = ⟨[], .broken fault⟩ := by
      rw [Heap.followOn, Heap.followFrom_eq, found]
      rfl
    have stepped : ∃ fault after, step (.force root) (begin evaluator state) = .error fault after := by
      rw [steps]
      rcases step_cases evaluator (.force root) (continuing demanding) (begin evaluator state) with
        ⟨limit, refused⟩ | ⟨_, ready, _, heap, going⟩
      · exact ⟨_, _, refused⟩
      · have broken' : ready.world.heap.followOn [] root = ⟨[], .broken fault⟩ := by
          rw [heap]
          exact broken
        exact ⟨_, _, going.trans (continuing_error (failing ready fault broken'))⟩
    obtain ⟨_, _, stepped⟩ := stepped
    rw [forceWith_eq_ok] at ended
    cases fuel with
    | zero => cases ended
    | succ fuel =>
      rw [runWith, stepped] at ended
      cases ended

theorem live_of_force (ended : force host evaluator fuel root state = some (.ok result, after)) :
    state.world.heap.Live root := by
  rw [force_eq_forceWith] at ended
  exact live_of_forceWith rfl (fun ready fault broken => demandFrom_broken evaluator (congrArg Chain.landing broken)) ended

theorem live_of_forceByName (ended : forceByName host evaluator fuel root state = some (.ok result, after)) :
    state.world.heap.Live root := by
  refine live_of_forceWith rfl (fun ready fault broken => ?_) ended
  unfold demandByName
  rw [bind_ok (rfl : getHeap ready = .ok ready.world.heap ready), broken]
  rfl

/-- Sharing is transparent, with no limit met. What a call returns, call by name returns too,
with the same head. The other way round the call must not meet a thunk that was in progress
when it began. -/
theorem force_transparent {evaluator' : Evaluator} (contained : state.world.heap.SelfContained root)
    (idle : state.stack.items = [])
    (unlimited : Unlimited (iterate host evaluator) (.force root) (begin evaluator state))
    (unlimited' : Unlimited (iterateByName host evaluator') (.force root) (begin evaluator' state)) :
    (∀ fuel result after, force host evaluator fuel root state = some (.ok result, after) →
      ∃ fuel' result' after' head, forceByName host evaluator' fuel' root state = some (.ok result', after') ∧
        after.world.heap.head? result = some head ∧ after'.world.heap.head? result' = some head) ∧
    ((∀ {handle slot owner}, state.world.heap.Reachable (· = root) handle →
        state.world.heap.lookup handle = .ok slot → slot.state ≠ .inProgress owner) →
      ∀ fuel result after, forceByName host evaluator' fuel root state = some (.ok result, after) →
        ∃ fuel' result' after' head, force host evaluator fuel' root state = some (.ok result', after') ∧
          after.world.heap.head? result = some head ∧ after'.world.heap.head? result' = some head) := by
  constructor
  · intro fuel result after ended
    have live := live_of_force ended
    rw [force_eq_forceWith, forceWith_eq_ok] at ended
    have shares := @shares_begin _ _ evaluator _ contained idle live False False.elim
    have repeats := @repeats_begin _ _ evaluator' _ contained idle live
    have returns := runWith_returns iterate_echoes shares unlimited ended
    obtain ⟨count, shape, whole⟩ := returns.ends
    obtain ⟨fuel', result', after', ended'⟩ := runWith_ends iterateByName_echoes id repeats unlimited' whole
    have returns' := runWith_returns iterateByName_echoes repeats unlimited' ended'
    obtain ⟨head, same⟩ := returns.same returns'
    exact ⟨fuel', result', after', head, forceWith_eq_ok.mpr ended', same⟩
  · intro settled fuel result after ended
    have live := live_of_forceByName ended
    rw [forceByName, forceWith_eq_ok] at ended
    have shares := @shares_begin _ _ evaluator _ contained idle live True fun _ => settled
    have repeats := @repeats_begin _ _ evaluator' _ contained idle live
    have returns := runWith_returns iterateByName_echoes repeats unlimited' ended
    obtain ⟨count, shape, whole⟩ := returns.ends
    obtain ⟨fuel', result', after', ended'⟩ := runWith_ends iterate_echoes (not_not_intro trivial) shares unlimited whole
    have returns' := runWith_returns iterate_echoes shares unlimited ended'
    obtain ⟨head, same⟩ := returns.same returns'
    refine ⟨fuel', result', after', head, ?_, same⟩
    rw [force_eq_forceWith, forceWith_eq_ok]
    exact ended'

/-! ### A number added to itself, and a thunk left in progress -/

-- Nothing leads to a dead handle.
theorem selfContained_of_live (free : heap.free = []) (each : ∀ {handle slot}, heap.lookup handle = .ok slot →
      slot.Proper ∧ (∀ target ∈ slot.node.references, heap.Live target) ∧
        ∀ code, slot.node.code? = some code → code.StaysIn heap.Live) :
    heap.SelfContained root := by
  have sound : heap.FreeListSound := by
    constructor <;> simp [free]
  refine ⟨⟨sound, fun found => (each found).1⟩, fun _ found runs => ((each found).2.2 _ runs).hostFree, fun _ edge => ?_⟩
  refine Heap.Live.granted ?_ sound
  cases edge with
  | held found member => exact (each found).2.1 _ member
  | named found runs names => exact ((each found).2.2 _ runs).names _ names

theorem slot_mem_of_lookup {slot : Slot} (found : heap.lookup handle = .ok slot) :
    some slot ∈ heap.entries.toList.map Entry.slot := by
  have member := Array.mem_of_getElem? (Heap.lookup_eq_ok.mp found)
  exact List.mem_map_of_mem (Array.mem_toList_iff.mpr member)

theorem number_staysIn (label : Nat) (value : Int64) (region : Handle → Prop) : Expr.StaysIn region ⟨label, .int value⟩ :=
  ⟨.of_children nofun nofun, nofun⟩

-- A thunk, and one that adds it to itself.
def doubled : Expr :=
  ⟨1, .primitive .intAdd [⟨2, .var 0⟩, ⟨3, .var 0⟩]⟩

def doubledHeap : Heap :=
  let number := Heap.alloc (.thunk ⟨0, .int 21⟩ []) (.ofSettings {})
  (Heap.alloc (.thunk doubled [⟨0, 0⟩]) number.state).state

def doubledCall : Evaluator × State Unit :=
  start ⟨doubledHeap, 0, [], #[], ()⟩ {} none

theorem doubled_staysIn (region : Handle → Prop) : doubled.StaysIn region := by
  have var : ∀ label, Expr.HostFree ⟨label, .var 0⟩ := fun _ => .of_children nofun nofun
  refine ⟨.of_children nofun ?_, fun handle names => ?_⟩
  · exact List.forall_mem_cons.mpr ⟨var 2, List.forall_mem_singleton.mpr (var 3)⟩
  · cases names with
    | primitive member names =>
      rcases List.mem_pair.mp member with rfl | rfl <;> cases names

theorem doubledCall_live {handle : Handle} {slot : Slot} (found : doubledCall.2.world.heap.lookup handle = .ok slot) :
    slot = ⟨.unevaluated, .thunk ⟨0, .int 21⟩ []⟩ ∨ slot = ⟨.unevaluated, .thunk doubled [⟨0, 0⟩]⟩ := by
  have slots : doubledCall.2.world.heap.entries.toList.map Entry.slot =
      [some ⟨.unevaluated, .thunk ⟨0, .int 21⟩ []⟩, some ⟨.unevaluated, .thunk doubled [⟨0, 0⟩]⟩] := rfl
  simpa [slots] using slot_mem_of_lookup found

theorem doubledCall_contained : doubledCall.2.world.heap.SelfContained ⟨1, 0⟩ := by
  refine selfContained_of_live rfl fun found => ?_
  rcases doubledCall_live found with rfl | rfl
  · refine ⟨by simp [Slot.Proper, Node.tag], nofun, ?_⟩
    rintro _ ⟨⟩
    exact number_staysIn _ _ _
  · refine ⟨by simp [Slot.Proper, Node.tag], List.forall_mem_singleton.mpr ⟨_, rfl⟩, ?_⟩
    rintro _ ⟨⟩
    exact doubled_staysIn _

theorem doubledCall_within :
    withinLimits (iterate failingHost doubledCall.1) 20 (.force ⟨1, 0⟩) (begin doubledCall.1 doubledCall.2) := by
  decide +kernel

theorem doubledCall_ends :
    ∃ after, force failingHost doubledCall.1 20 ⟨1, 0⟩ doubledCall.2 = some (.ok ⟨1, 0⟩, after) ∧
      after.world.heap.lookup ⟨1, 0⟩ = .ok ⟨.evaluated, .int 42⟩ := by
  have computed : (force failingHost doubledCall.1 20 ⟨1, 0⟩ doubledCall.2).map (fun ended =>
      (ended.1, ended.2.world.heap.int? ⟨1, 0⟩)) = some (.ok ⟨1, 0⟩, some 42) := by
    decide +kernel
  obtain ⟨⟨_, after⟩, ended, facts⟩ := Option.map_eq_some_iff.mp computed
  simp only [Prod.mk.injEq] at facts
  obtain ⟨rfl, number⟩ := facts
  exact ⟨after, ended, Heap.int?_eq_some.mp number⟩

theorem force_transparent_doubled :
    (∃ fuel result after, forceByName failingHost doubledCall.1 fuel ⟨1, 0⟩ doubledCall.2 = some (.ok result, after) ∧
      after.world.heap.head? result = some (.int 42)) ∧
    ∃ fuel result after, force failingHost doubledCall.1 fuel ⟨1, 0⟩ doubledCall.2 = some (.ok result, after) ∧
      after.world.heap.head? result = some (.int 42) := by
  have within : withinLimits (iterateByName failingHost doubledCall.1) 20 (.force ⟨1, 0⟩)
      (begin doubledCall.1 doubledCall.2) := by
    decide +kernel
  obtain ⟨after, ended, number⟩ := doubledCall_ends
  have shown : after.world.heap.head? ⟨1, 0⟩ = some (.int 42) := Heap.head?_of_lookup number rfl
  obtain ⟨forth, back⟩ := force_transparent doubledCall_contained rfl (unlimited_of_within doubledCall_within)
    (unlimited_of_within within)
  obtain ⟨fuel', result', after', head, ended', same, same'⟩ := forth 20 ⟨1, 0⟩ after ended
  cases shown.symm.trans same
  refine ⟨⟨fuel', result', after', ended', same'⟩, ?_⟩
  have unclaimed : ∀ {handle slot owner}, doubledCall.2.world.heap.Reachable (· = ⟨1, 0⟩) handle →
      doubledCall.2.world.heap.lookup handle = .ok slot → slot.state ≠ .inProgress owner := by
    intro handle slot owner _ found
    rcases doubledCall_live found with rfl | rfl
    all_goals
      intro same
      cases same
  obtain ⟨fuel, result, after, head, ended, same, same''⟩ := back unclaimed fuel' result' after' ended'
  cases same'.symm.trans same
  exact ⟨fuel, result, after, ended, same''⟩

-- The stack has room for the frame of the link, and none for the frame of the thunk.
def narrowCall : Evaluator × State Unit :=
  start ⟨chainedThunk, 0, [], #[], ()⟩ { maxWorkStack := 1 } none

/-- A call that fails at a limit can leave a thunk in progress. A later call that meets no limit
then finds no value, where call by name finds it. -/
theorem force_misses_value :
    ∃ left, force failingHost narrowCall.1 9 ⟨1, 0⟩ narrowCall.2 = some (.error (.exhausted (.workStack 1)), left) ∧
      left.stack.items = [] ∧ left.world.heap.SelfContained ⟨0, 0⟩ ∧
      Unlimited (iterate failingHost narrowCall.1) (.force ⟨0, 0⟩) (begin narrowCall.1 left) ∧
      Unlimited (iterateByName failingHost narrowCall.1) (.force ⟨0, 0⟩) (begin narrowCall.1 left) ∧
      (∃ result after, forceByName failingHost narrowCall.1 9 ⟨0, 0⟩ left = some (.ok result, after) ∧
        after.world.heap.head? result = some (.int 5)) ∧
      ∀ fuel result after, force failingHost narrowCall.1 fuel ⟨0, 0⟩ left ≠ some (.ok result, after) := by
  have computed : (force failingHost narrowCall.1 9 ⟨1, 0⟩ narrowCall.2).map (fun ended =>
      (ended.1, ended.2.stack.items, ended.2.world.heap.free, ended.2.world.heap.entries.toList.map Entry.slot,
        ended.2.world.heap.lookup ⟨0, 0⟩,
        withinLimits (iterate failingHost narrowCall.1) 9 (.force ⟨0, 0⟩) (begin narrowCall.1 ended.2),
        withinLimits (iterateByName failingHost narrowCall.1) 9 (.force ⟨0, 0⟩) (begin narrowCall.1 ended.2),
        (forceByName failingHost narrowCall.1 9 ⟨0, 0⟩ ended.2).map fun later =>
          (later.1, later.2.world.heap.head? ⟨2, 0⟩),
        (force failingHost narrowCall.1 9 ⟨0, 0⟩ ended.2).map Prod.fst)) =
      some (.error (.exhausted (.workStack 1)), [], [],
        [some ⟨.inProgress ⟨1⟩, .thunk ⟨0, .int 5⟩ []⟩, some ⟨.evaluated, .indirection ⟨0, 0⟩⟩],
        .ok ⟨.inProgress ⟨1⟩, .thunk ⟨0, .int 5⟩ []⟩, true, true,
        some (.ok ⟨2, 0⟩, some (.int 5)), some (.error (.nonTermination ⟨0, 0⟩))) := by
    with_unfolding_all rfl
  obtain ⟨⟨_, left⟩, failed, facts⟩ := Option.map_eq_some_iff.mp computed
  simp only [Prod.mk.injEq] at facts
  obtain ⟨rfl, items, free, slots, thunk, within, within', byName, byNeed⟩ := facts
  obtain ⟨⟨_, after⟩, returned, shown⟩ := Option.map_eq_some_iff.mp byName
  simp only [Prod.mk.injEq] at shown
  obtain ⟨rfl, shown⟩ := shown
  obtain ⟨⟨_, after'⟩, missed, same⟩ := Option.map_eq_some_iff.mp byNeed
  cases same
  refine ⟨left, failed, items, selfContained_of_live free fun found => ?_, unlimited_of_within within,
    unlimited_of_within within', ⟨⟨2, 0⟩, after, returned, shown⟩, fun fuel result last ended => ?_⟩
  · have member := slot_mem_of_lookup found
    rw [slots] at member
    rcases List.mem_pair.mp member with same | same <;> cases same
    · refine ⟨by simp [Slot.Proper, Node.tag], fun _ member => absurd member List.not_mem_nil, ?_⟩
      rintro _ ⟨⟩
      exact number_staysIn _ _ _
    · exact ⟨by simp [Slot.Proper, Node.tag], List.forall_mem_singleton.mpr ⟨_, thunk⟩, fun _ code => by cases code⟩
  · obtain ⟨raised, stopped, _⟩ := force_eq_error.mp missed
    cases run_unique (force_eq_ok.mp ended) stopped

end Machine

end LazyGraph

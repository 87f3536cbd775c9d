import LazyGraph.Proofs.Heap.Assignment
import LazyGraph.Proofs.Heap.Waiting
import LazyGraph.Proofs.Machine.Answers
import LazyGraph.Proofs.Machine.Unwinding

/-! An evaluator at work assigns every slot once.

The frames carry what is needed: an update frame holds a thunk that was idle when the call
began, the links of the frame below it lead to that thunk, and a value that is delivered
with a handle is stored there. So a thunk is overwritten by a value, or by a link to one,
and a chain is collapsed to where it leads. -/

set_option autoImplicit false

namespace LazyGraph

/-! ### Collapsing chains -/

namespace Heap

variable {start before middle after heap : Heap} {link target : Handle}

-- Links are pointed at the ends of their chains, and nothing else is written.
structure Collapses (before after : Heap) : Prop where
  assigns : Assigns before after
  solid : ∀ {handle slot}, before.lookup handle = .ok slot → slot.node.tag ≠ .indirection →
    after.lookup handle = .ok slot
  reserved : ∀ {handles}, before.Reserved handles → after.Reserved handles

theorem Collapses.refl (sound : heap.FreeListSound) : Collapses heap heap where
  assigns := (Settles.refl sound).toAssigns
  solid := fun found _ => found
  reserved := id

theorem Collapses.trans (first : Collapses before middle) (second : Collapses middle after) :
    Collapses before after where
  assigns := first.assigns.trans second.assigns
  solid := fun found noLink => second.solid (first.solid found noLink) noLink
  reserved := fun reserved => second.reserved (first.reserved reserved)

theorem Collapses.resolves (collapses : Collapses before after) (resolves : before.Resolves target link) :
    after.Resolves target link := by
  obtain ⟨slot, found, noLink⟩ := resolves.solid
  exact collapses.assigns.finds resolves ⟨slot, collapses.solid found noLink, noLink⟩

theorem Settles.collapses (settles : Settles start before) (regular : start.Regular)
    (collapses : Collapses before after) : Settles start after where
  toAssigns := settles.toAssigns.trans collapses.assigns
  busy := by
    intro handle owner content held
    have isThunk : content.tag = .thunk := (regular.proper held).mpr (by simp)
    exact collapses.solid (settles.busy held) (by simp [isThunk])
  reserved := fun reserved => collapses.reserved (settles.reserved reserved)

theorem redirect_collapses (sound : heap.FreeListSound) (leads : heap.Resolves target link) :
    ∃ done after, redirect link target heap = .ok done after ∧ Collapses heap after := by
  cases leads with
  | here solid =>
    obtain ⟨slot, found, noLink⟩ := solid
    obtain ⟨state, content⟩ := slot
    refine ⟨false, heap, ?_, .refl sound⟩
    cases content with
    | indirection next => exact absurd rfl noLink
    | _ => simp [redirect, transition, found, Slot.redirect]
  | @link _ next links rest =>
    have resolves := Resolves.link links rest
    obtain ⟨state, found⟩ := links
    have rewrites : heap.Rewrites (heap.put link.index.toNat ⟨state, .indirection target⟩) link
        ⟨state, .indirection next⟩ ⟨state, .indirection target⟩ := put_rewrites found rfl rfl
    refine ⟨true, _, by simp [redirect, transition, found, Slot.redirect], .of_collapse sound rewrites resolves, ?_, ?_⟩
    · intro handle slot live noLink
      have apart : handle ≠ link := by
        rintro rfl
        cases live.symm.trans found
        exact noLink rfl
      rw [rewrites.lookup, if_neg apart, live]
    · exact fun reserved => reserved.rewrites rewrites

end Heap

namespace Machine

variable {σ : Type} {start before after heap : Heap} {evaluator : Evaluator} {actor : Actor} {control : Control}
  {frames above rest : List Frame} {links : List Handle} {node target : Handle} {state : State σ}

theorem redirectAll_collapses (sound : state.world.heap.FreeListSound)
    (leads : ∀ link ∈ links, state.world.heap.Resolves target link) :
    ∃ after, redirectAll links target state = .ok () after ∧ after.stack = state.stack ∧
      state.world.heap.Collapses after.world.heap := by
  induction links generalizing state with
  | nil => exact ⟨state, rfl, rfl, .refl sound⟩
  | cons link links ih =>
    obtain ⟨done, heap, redirected, collapses⟩ := Heap.redirect_collapses sound (leads link (.head _))
    obtain ⟨after, ended, stack, collapses'⟩ := @ih { state with world := { state.world with heap := heap } }
      collapses.assigns.kept.free fun other member => collapses.resolves (leads other (.tail _ member))
    refine ⟨after, ?_, stack, collapses.trans collapses'⟩
    have first : (do let _ ← onHeap (Heap.redirect link target)) state =
        .ok () { state with world := { state.world with heap := heap } } := bind_ok (onHeap_ok redirected)
    exact (bind_ok first).trans ended

/-! ### Frames and controls -/

-- The thunks that the frames hold were not in progress when the call began.
structure Held (start heap : Heap) (actor : Actor) (frames : List Frame) : Prop extends
    Holds heap actor frames where
  idle : ∀ {node}, .update node ∈ frames → ∀ owner content, start.lookup node ≠ .ok ⟨.inProgress owner, content⟩

-- The links of a frame for a chain lead to the thunk of the update frame above.
structure Framed (start heap : Heap) (actor : Actor) (frames : List Frame) : Prop extends
    Held start heap actor frames where
  laid : Laid (fun node links => ∀ link ∈ links, heap.Resolves node link) frames

theorem Held.nil (start heap : Heap) (actor : Actor) : Held start heap actor [] :=
  ⟨.nil heap actor, nofun⟩

theorem Held.step (held : Held start before actor frames) (spared : Spared actor frames before after) :
    Held start after actor frames :=
  ⟨held.toHolds.step spared, held.idle⟩

theorem Held.append (held : Held start heap actor frames) (unmarked : ∀ node, .update node ∉ above) :
    Held start heap actor (above ++ frames) :=
  ⟨held.toHolds.append unmarked, fun member => held.idle ((List.mem_append.mp member).resolve_left (unmarked _))⟩

theorem Held.right (held : Held start heap actor (above ++ rest)) : Held start heap actor rest :=
  ⟨held.toHolds.right, fun member => held.idle (List.mem_append_right _ member)⟩

theorem Framed.step (framed : Framed start before actor frames) (assigns : before.Assigns after)
    (spared : Spared actor frames before after) : Framed start after actor frames where
  toHeld := framed.toHeld.step spared
  laid := by
    refine framed.laid.mono fun node links member leads link inChain => ?_
    obtain ⟨expr, env, found⟩ := framed.thunk member
    exact assigns.finds (leads link inChain) ⟨_, spared member found, by simp [Node.tag]⟩

theorem Framed.append (framed : Framed start heap actor frames) (plain : ∀ frame ∈ above, frame.isPlain) :
    Framed start heap actor (above ++ frames) :=
  ⟨framed.toHeld.append (plain_unmarked plain), framed.laid.append plain⟩

theorem Framed.tail {frame : Frame} (framed : Framed start heap actor (frame :: rest)) (plain : frame.isPlain) :
    Framed start heap actor rest := by
  have held : Held start heap actor ([frame] ++ rest) := framed.toHeld
  refine ⟨held.right, ?_⟩
  cases framed.laid with
  | plain _ below => exact below
  | update _ _ => cases plain

theorem spared_of_settles (settles : before.Settles after) : Spared actor frames before after :=
  fun _ held => settles.busy held

theorem spared_of_collapses (collapses : before.Collapses after) :
    Spared actor frames before after := by
  intro node expr env member found
  exact collapses.solid found (by simp [Node.tag])

end Machine

/-- What a control says of the heap: a delivered value is stored where its handle says, and
the links of a wait lead to the node that is waited for. -/
def Control.Sound (heap : Heap) : Control → Prop
  | .deliver whnf => whnf.node.tag.isWhnf ∧ ∀ handle, whnf.handle? = some handle →
      heap.lookup handle = .ok ⟨.evaluated, whnf.node⟩
  | .await links node => ∀ link ∈ links, heap.Resolves node link
  | _ => True

theorem Control.IsFresh.sound {control : Control} (fresh : control.IsFresh) (heap : Heap) : control.Sound heap := by
  cases control with
  | deliver whnf => exact ⟨fresh.2, by simp [fresh.1]⟩
  | await links node => exact fresh.elim
  | eval expr env => trivial
  | force handle => trivial

namespace Machine

variable {σ : Type} {start before after heap : Heap} {evaluator : Evaluator} {actor : Actor} {control : Control}
  {frames above rest : List Frame} {links passed : List Handle} {node handle target : Handle} {state later : State σ}

-- Between two transitions the frames are in order, except that the frame for a chain is on
-- top right after its thunk was finished; its links then lead to the value.
inductive Stacked (start heap : Heap) (actor : Actor) : Control → List Frame → Prop where
  | level {control : Control} {frames : List Frame} (framed : Framed start heap actor frames) :
      Stacked start heap actor control frames
  | collapsing {handle : Handle} {value : Node} {links : List Handle} {rest : List Frame}
      (leads : ∀ link ∈ links, heap.Resolves handle link) (framed : Framed start heap actor rest) :
      Stacked start heap actor (.deliver (.stored handle value)) (.redirect links :: rest)

structure Poised (start : Heap) (evaluator : Evaluator) (control : Control) (state : State σ) : Prop where
  settles : start.Settles state.world.heap
  sound : control.Sound state.world.heap
  stacked : Stacked start state.world.heap evaluator.actor control state.stack.items

-- What a computation leaves that began on `heap`, whether it succeeds or not.
structure Leaves {α : Type} (start : Heap) (evaluator : Evaluator) (heap : Heap) (holds : α → State σ → Prop)
    (result : EStateM.Result Fault (State σ) α) : Prop where
  assigns : heap.Assigns result.state.world.heap
  settles : start.Settles result.state.world.heap
  held : Held start result.state.world.heap evaluator.actor result.state.stack.items
  next : ∀ value after, result = .ok value after → holds value after

def Goes (start : Heap) (evaluator : Evaluator) (progress : Progress) (state : State σ) : Prop :=
  ∀ control, progress = .continues control → Poised start evaluator control state

theorem Leaves.continuing {computation : MachineM σ Control}
    (leaves : Leaves start evaluator heap (Poised start evaluator) (computation state)) :
    Leaves start evaluator heap (Goes start evaluator) (continuing computation state) := by
  refine ⟨?_, ?_, ?_, ?_⟩
  · rw [continuing_state]
    exact leaves.assigns
  · rw [continuing_state]
    exact leaves.settles
  · rw [continuing_state]
    exact leaves.held
  · rintro _ after ended control rfl
    exact leaves.next _ _ (continuing_inv ended)

theorem Leaves.earlier {α : Type} {holds : α → State σ → Prop} {result : EStateM.Result Fault (State σ) α}
    (leaves : Leaves start evaluator heap holds result) (assigns : before.Assigns heap) :
    Leaves start evaluator before holds result :=
  { leaves with assigns := assigns.trans leaves.assigns }

theorem Leaves.fault {α : Type} {holds : α → State σ → Prop} {fault : Fault} (settles : start.Settles state.world.heap)
    (held : Held start state.world.heap evaluator.actor state.stack.items) :
    Leaves start evaluator state.world.heap holds (.error fault state) where
  assigns := (Heap.Settles.refl settles.kept.free).toAssigns
  settles := settles
  held := held
  next := fun value after ended => by cases ended

/-- Work under the frames: the heap advances and plain frames are pushed. -/
theorem Leaves.works {computation : MachineM σ Control} (regular : start.Regular)
    (settles : start.Settles state.world.heap) (framed : Framed start state.world.heap evaluator.actor state.stack.items)
    (works : Moves (Works Heap.Advances) computation) (fresh : Yields Control.IsFresh computation)
    (fits : (computation state).state.world.heap.Addressable) :
    Leaves start evaluator state.world.heap (Poised start evaluator) (computation state) := by
  obtain ⟨⟨pushed, plain, items⟩, advances⟩ := works state
  have settled := advances.settles fits (settles.regular regular)
  have lasting := (framed.step settled.toAssigns (spared_of_settles settled)).append plain
  rw [← items] at lasting
  refine ⟨settled.toAssigns, settles.trans settled, lasting.toHeld, ?_⟩
  intro control after ended
  have fresh := fresh state control after ended
  rw [ended] at settled lasting
  exact ⟨settles.trans settled, fresh.sound _, .level lasting⟩

/-! ### Demanding a node -/

theorem claims_assigns {expr : Expr} {env : Env} (sound : before.FreeListSound)
    (claims : Claims actor before after node expr env) : before.Assigns after := by
  refine .of_rewrites sound claims ⟨fun _ => .inl ⟨rfl, by simp⟩, by simp, ?_, by simp [Node.tag]⟩ (by simp [Node.tag])
  simp [Node.tag, Tag.isWhnf]

/-- What is unclaimed now was not in progress when the call began. -/
theorem idle_of_unevaluated {content : Node} (settles : start.Settles heap)
    (free : heap.lookup node = .ok ⟨.unevaluated, content⟩) (owner : Actor) (content' : Node) :
    start.lookup node ≠ .ok ⟨.inProgress owner, content'⟩ := by
  intro held
  cases free.symm.trans (settles.busy held)

theorem enter_leaves {expr : Expr} {env : Env} (settles : start.Settles state.world.heap)
    (framed : Framed start state.world.heap evaluator.actor state.stack.items)
    (claims : Claims evaluator.actor state.world.heap heap node expr env)
    (leads : ∀ link ∈ links, state.world.heap.Resolves node link) :
    Leaves start evaluator state.world.heap (Poised start evaluator)
      (enter evaluator links node expr env { state with world := { state.world with heap := heap } }) := by
  have assigns := claims_assigns settles.kept.free claims
  have idle := idle_of_unevaluated settles claims.found
  have unheld := framed.toHolds.unclaimed claims
  have settled := settles.rewrites claims assigns idle
  have lasting := framed.step assigns (spared_of_rewrites claims unheld)
  rcases enter_cases evaluator links node expr env { state with world := { state.world with heap := heap } } with
    ⟨_, after, ended, items, world⟩ | ⟨_, after, pushed, ended, items, unmarked, world⟩
  · have sameHeap : after.world.heap = heap := by rw [world]
    have now : heap.lookup node = .ok ⟨.inProgress evaluator.actor, .thunk expr env⟩ := by
      rw [claims.lookup, if_pos rfl]
    have framed' : Framed start heap evaluator.actor (.update node :: redirection links ++ state.stack.items) := by
      refine ⟨⟨framed.toHolds.claims claims links, ?_⟩, ?_⟩
      · intro other member
        rcases List.mem_cons.mp member with same | member
        · cases same
          exact idle
        · rcases List.mem_append.mp member with member | member
          · exact absurd member (update_notMem_redirection other links)
          · exact lasting.idle member
      · refine .update (fun link member => ?_) lasting.laid
        exact assigns.finds (leads link member) ⟨_, now, by simp [Node.tag]⟩
    rw [ended]
    refine ⟨?_, ?_, ?_, ?_⟩
    · exact sameHeap ▸ assigns
    · exact sameHeap ▸ settled
    · rw [EStateM.Result.state, sameHeap, items]
      exact framed'.toHeld
    · intro control after' same
      cases same
      exact ⟨sameHeap ▸ settled, trivial, .level (by rw [sameHeap, items]; exact framed')⟩
  · have sameHeap : after.world.heap = heap := by rw [world]
    rw [ended]
    refine ⟨sameHeap ▸ assigns, sameHeap ▸ settled, ?_, fun control after' same => by cases same⟩
    rw [EStateM.Result.state, sameHeap, items]
    exact lasting.toHeld.append fun other member => update_notMem_redirection other links (unmarked _ member)

theorem wait_leaves {after : State σ} (settles : start.Settles state.world.heap)
    (framed : Framed start state.world.heap evaluator.actor state.stack.items)
    (leads : ∀ link ∈ links, state.world.heap.Resolves target link) (stack : after.stack = state.stack)
    (entries : after.world.heap.entries = state.world.heap.entries) (free : after.world.heap.free = state.world.heap.free) :
    Leaves start evaluator state.world.heap (Poised start evaluator) (.ok (.await links target) after) := by
  have same : state.world.heap.Settles after.world.heap := .of_entries settles.kept.free entries free
  have lasting := framed.step same.toAssigns (spared_of_settles same)
  have kept : ∀ {handle slot}, state.world.heap.lookup handle = .ok slot →
      after.world.heap.lookup handle = .ok slot := fun found => (Heap.lookup_congr entries _).trans found
  refine ⟨same.toAssigns, settles.trans same, ?_, ?_⟩
  · rw [EStateM.Result.state, stack]
    exact lasting.toHeld
  · intro control after' ended
    cases ended
    refine ⟨settles.trans same, fun link member => (leads link member).mono kept, .level ?_⟩
    rw [stack]
    exact lasting

theorem startWait_leaves (settles : start.Settles state.world.heap)
    (framed : Framed start state.world.heap evaluator.actor state.stack.items)
    (leads : ∀ link ∈ links, state.world.heap.Resolves target link) :
    Leaves start evaluator state.world.heap (Poised start evaluator) (startWait evaluator links target state) := by
  rcases startWait_cases evaluator links target state with ⟨fault, refused⟩ | ⟨after, granted, stack, entries, free⟩
  · rw [refused]
    exact .fault settles framed.toHeld
  · rw [granted]
    exact wait_leaves settles framed leads stack entries free

/-- The chain is pointed at the value, and the value is delivered. -/
theorem collapse_leaves {content : Node} (regular : start.Regular) (settles : start.Settles state.world.heap)
    (framed : Framed start state.world.heap evaluator.actor state.stack.items)
    (leads : ∀ link ∈ links, state.world.heap.Resolves target link) (isWhnf : content.tag.isWhnf)
    (stored : state.world.heap.lookup target = .ok ⟨.evaluated, content⟩) :
    Leaves start evaluator state.world.heap (Poised start evaluator)
      ((do redirectAll links target; return .deliver (.stored target content) : MachineM σ Control) state) := by
  obtain ⟨after, redirected, stack, collapses⟩ := redirectAll_collapses settles.kept.free leads
  have lasting := framed.step collapses.assigns (spared_of_collapses collapses)
  have settled := settles.collapses regular collapses
  have stored' : after.world.heap.lookup target = .ok ⟨.evaluated, content⟩ :=
    collapses.solid stored (Tag.ne_indirection_of_whnf isWhnf)
  rw [← stack] at lasting
  rw [bind_ok redirected]
  refine ⟨collapses.assigns, settled, lasting.toHeld, ?_⟩
  intro control after' ended
  cases ended
  refine ⟨settled, ⟨isWhnf, fun handle same => ?_⟩, .level lasting⟩
  cases same
  exact stored'

theorem demandFrom_leaves (regular : start.Regular) (settles : start.Settles state.world.heap)
    (framed : Framed start state.world.heap evaluator.actor state.stack.items)
    (leads : ∀ link ∈ passed, state.world.heap.Resolves handle link) :
    Leaves start evaluator state.world.heap (Poised start evaluator) (demandFrom evaluator passed handle state) := by
  -- all links lead to where the chain ends, those passed before too
  have ends : ∀ {links target slot}, state.world.heap.followOn passed handle = ⟨links, .at target slot⟩ →
      ∀ link ∈ links, state.world.heap.Resolves target link := by
    intro links target slot chain link member
    obtain ⟨resolves, all⟩ := Heap.followOn_resolves (congrArg Chain.landing chain)
    rw [chain] at all
    rcases all link member with member | resolved
    · have whole := leads link member
      obtain rfl := resolves.unique (.here whole.solid)
      exact whole
    · exact resolved
  have demands := demandFrom_cases evaluator passed handle state
  generalize demandFrom evaluator passed handle state = result at demands ⊢
  cases demands with
  | broken | loop | own => exact .fault settles framed.toHeld
  | claims found _ claims _ => exact enter_leaves settles framed claims (ends found)
  | waits chain _ => exact startWait_leaves settles framed (ends chain)
  | stuck chain => exact wait_leaves settles framed (ends chain) rfl rfl rfl
  | @value links target slot chain isWhnf =>
    have live := (Heap.followOn_at (congrArg Chain.landing chain)).1
    obtain ⟨slotState, content⟩ := slot
    obtain rfl : slotState = .evaluated := ((settles.regular regular).proper live).done (Tag.ne_thunk_of_whnf isWhnf)
    exact collapse_leaves regular settles framed (ends chain) isWhnf live

/-! ### Delivering a value -/

theorem payload_leads {whnf : Whnf} {old : Slot} (sound : (Control.deliver whnf).Sound before)
    (rewrites : before.Rewrites after node old ⟨.evaluated, (updatePayload node whnf).1⟩) :
    (updatePayload node whnf).1.tag ≠ .thunk ∧
      after.lookup (updatePayload node whnf).2 = .ok ⟨.evaluated, whnf.node⟩ ∧
      after.Resolves (updatePayload node whnf).2 node := by
  obtain ⟨isWhnf, stored⟩ := sound
  have noLink := Tag.ne_indirection_of_whnf isWhnf
  rcases updatePayload_cases node whnf with ⟨existing, isStored, apart, same⟩ | same
  · have there : after.lookup existing = .ok ⟨.evaluated, whnf.node⟩ := by
      rw [rewrites.lookup, if_neg apart]
      exact stored existing isStored
    rw [same] at rewrites ⊢
    refine ⟨by simp [Node.tag], there, .link ⟨.evaluated, ?_⟩ (.here ⟨_, there, noLink⟩)⟩
    rw [rewrites.lookup, if_pos rfl]
  · rw [same] at rewrites ⊢
    have there : after.lookup node = .ok ⟨.evaluated, whnf.node⟩ := by
      rw [rewrites.lookup, if_pos rfl]
    exact ⟨Tag.ne_thunk_of_whnf isWhnf, there, .here ⟨_, there, noLink⟩⟩

/-- What is below an update frame is in order once its thunk is finished. -/
theorem Framed.finishes {old new : Slot} {value : Node} (framed : Framed start before actor (.update node :: rest))
    (rewrites : before.Rewrites after node old new) (assigns : before.Assigns after) (noLink : old.node.tag ≠ .indirection)
    (leads : after.Resolves target node) : Stacked start after actor (.deliver (.stored target value)) rest := by
  have held := framed.toHeld
  cases framed.laid with
  | plain isPlain _ => cases isPlain
  | @update _ links frames claimed laid =>
    have under : Framed start before actor frames := by
      have whole : Held start before actor ((.update node :: redirection links) ++ frames) := held
      exact ⟨whole.right, laid⟩
    have under' : Framed start after actor frames :=
      under.step assigns (spared_of_rewrites rewrites fun other member => held.apart (List.mem_append_right _ member))
    unfold redirection
    split
    · exact .level under'
    · exact .collapsing (fun link member => (claimed link member).onward rewrites noLink leads) under'

theorem update_leaves {whnf : Whnf} {rest : Stack Frame} (settles : start.Settles state.world.heap)
    (sound : (Control.deliver whnf).Sound state.world.heap)
    (framed : Framed start state.world.heap evaluator.actor (.update node :: rest.items)) (stack : state.stack = rest) :
    Leaves start evaluator state.world.heap (Poised start evaluator) (update evaluator node whnf state) := by
  obtain ⟨expr, env, held⟩ := framed.thunk (.head _)
  obtain ⟨after, ended, stack', rewrites, _⟩ := update_held whnf held
  obtain ⟨value, there, leads⟩ := payload_leads sound rewrites
  have assigns : state.world.heap.Assigns after.world.heap := by
    refine .of_rewrites settles.kept.free rewrites ⟨fun _ => .inr ⟨rfl, value⟩, by simp, ?_, ?_⟩ (by simp [Node.tag])
    · simp [Node.tag, Tag.isWhnf]
    · simp [Node.tag]
  have settled := settles.rewrites rewrites assigns (framed.idle (.head _))
  have lasting : Held start after.world.heap evaluator.actor rest.items := by
    have below : Held start state.world.heap evaluator.actor ([.update node] ++ rest.items) := framed.toHeld
    exact below.right.step (spared_of_rewrites rewrites fun other member => framed.toHeld.apart member)
  rw [ended]
  refine ⟨assigns, settled, ?_, ?_⟩
  · rw [EStateM.Result.state, stack', stack]
    exact lasting
  · intro control after' same
    cases same
    refine ⟨settled, ⟨sound.1, fun handle same => ?_⟩, ?_⟩
    · cases same
      exact there
    · rw [stack', stack]
      exact framed.finishes rewrites assigns (by simp [Node.tag]) leads

/-- With no frame left, the value is the result, in a slot of its own. -/
theorem result_leaves {host : Host σ} {whnf : Whnf} (regular : start.Regular) (settles : start.Settles state.world.heap)
    (popped : state.stack.pop? = none) (fits : (finish host evaluator whnf state).state.world.heap.Addressable) :
    Leaves start evaluator state.world.heap (Goes start evaluator) (finish host evaluator whnf state) := by
  have empty := Stack.pop?_eq_none.mp popped
  unfold finish at fits ⊢
  rw [bind_ok (rfl : (get : MachineM σ (State σ)) state = .ok state state), popped] at fits ⊢
  cases located : whnf.handle? with
  | some handle =>
    refine ⟨(Heap.Settles.refl settles.kept.free).toAssigns, settles, ?_, ?_⟩
    · exact empty ▸ .nil start state.world.heap evaluator.actor
    · rintro _ after ended control rfl
      cases ended
  | none =>
    simp only [located] at fits ⊢
    have moved := Heap.alloc_advances whnf.node state.world.heap
    cases ended : Heap.alloc whnf.node state.world.heap with
    | ok handle after =>
      rw [ended] at moved
      rw [bind_ok (onHeap_ok ended)] at fits ⊢
      have settled := moved.settles fits (settles.regular regular)
      refine ⟨settled.toAssigns, settles.trans settled, empty ▸ .nil start after evaluator.actor, ?_⟩
      rintro _ after' same control rfl
      cases same
    | error fault after =>
      rw [ended] at moved
      rw [bind_error (onHeap_error ended)] at fits ⊢
      have settled := moved.settles fits (settles.regular regular)
      refine ⟨settled.toAssigns, settles.trans settled, empty ▸ .nil start after evaluator.actor, ?_⟩
      rintro _ after' same
      cases same

theorem finish_leaves {host : Host σ} {whnf : Whnf} (keeps : host.KeepsTo Heap.Advances) (regular : start.Regular)
    (poised : Poised start evaluator (.deliver whnf) state)
    (fits : (finish host evaluator whnf state).state.world.heap.Addressable) :
    Leaves start evaluator state.world.heap (Goes start evaluator) (finish host evaluator whnf state) := by
  have settles := poised.settles
  cases popped : state.stack.pop? with
  | some top =>
    obtain ⟨frame, rest⟩ := top
    have items := Stack.pop?_eq_some popped
    rw [finish_pops host evaluator whnf popped] at fits ⊢
    rw [continuing_state] at fits
    apply Leaves.continuing
    have stacked := poised.stacked
    rw [items] at stacked
    let below : State σ := { state with stack := rest }
    cases stacked with
    | level framed =>
      cases frame with
      | update node =>
        have left : Leaves start evaluator below.world.heap (Poised start evaluator) (update evaluator node whnf below) :=
          update_leaves settles poised.sound framed rfl
        exact left
      | redirect links => cases framed.laid.plain_top (by simp)
      | _ =>
        have left := @Leaves.works _ _ evaluator below _ regular settles (framed.tail rfl)
          (resume_plain_works keeps evaluator rfl whnf) (resume_fresh host evaluator rfl whnf) fits
        exact left
    | @collapsing handle value links _ leads framed =>
      obtain ⟨isWhnf, stored⟩ := poised.sound
      have left : Leaves start evaluator below.world.heap (Poised start evaluator)
          (resume host evaluator (.redirect links) (.stored handle value) below) :=
        collapse_leaves regular settles framed leads isWhnf (stored handle rfl)
      exact left
  | none => exact result_leaves regular settles popped fits

/-! ### One transition, and all of them -/

theorem Stacked.framed (stacked : Stacked start heap actor control frames) (other : ∀ whnf, control ≠ .deliver whnf) :
    Framed start heap actor frames := by
  cases stacked with
  | level framed => exact framed
  | collapsing _ _ => exact absurd rfl (other _)

theorem Poised.held (poised : Poised start evaluator control state) :
    Held start state.world.heap evaluator.actor state.stack.items := by
  have stacked := poised.stacked
  generalize state.stack.items = items at stacked
  cases stacked with
  | level framed => exact framed.toHeld
  | @collapsing _ _ links rest _ framed =>
    have below : Held start state.world.heap evaluator.actor ([.redirect links] ++ rest) :=
      framed.toHeld.append (by simp)
    exact below

theorem Poised.ready (poised : Poised start evaluator control state) (stack : later.stack = state.stack)
    (heap : later.world.heap = state.world.heap) : Poised start evaluator control later where
  settles := heap ▸ poised.settles
  sound := heap ▸ poised.sound
  stacked := heap ▸ stack ▸ poised.stacked

theorem Leaves.step (next : MachineM σ Progress) (poised : Poised start evaluator control state)
    (fits : ((do tick evaluator; trace evaluator control; next) state).state.world.heap.Addressable)
    (later : ∀ {ready}, Poised start evaluator control ready → (next ready).state.world.heap.Addressable →
      Leaves start evaluator ready.world.heap (Goes start evaluator) (next ready)) :
    Leaves start evaluator state.world.heap (Goes start evaluator) ((do tick evaluator; trace evaluator control; next) state) := by
  rcases step_cases evaluator control next state with ⟨limit, refused⟩ | ⟨_, ready, stack, heap, going⟩
  · rw [refused]
    have poised' : Poised start evaluator control (begun state) := poised.ready rfl rfl
    exact @Leaves.fault _ _ _ (begun state) _ _ _ poised'.settles poised'.held
  · rw [going] at fits ⊢
    rw [← heap]
    exact later (poised.ready stack heap) fits

theorem await_leaves (regular : start.Regular) (poised : Poised start evaluator (.await links node) state) :
    Leaves start evaluator state.world.heap (Poised start evaluator) (resumeWait evaluator links node state) := by
  by_cases walks : Walks evaluator state (.await links node) links node
  · cases walks with
    | await granted live unheld =>
      rw [resumeWait_over granted live unheld]
      have same : state.world.heap.Settles (state.world.heap.endWait evaluator.actor) :=
        .of_entries poised.settles.kept.free rfl rfl
      have framed := (poised.stacked.framed nofun).step same.toAssigns (spared_of_settles same)
      have leads : ∀ link ∈ links, (state.world.heap.endWait evaluator.actor).Resolves node link :=
        fun link member => (poised.sound link member).mono fun found => found
      have left := @demandFrom_leaves _ start evaluator links node
        { state with world := { state.world with heap := state.world.heap.endWait evaluator.actor } }
        regular (poised.settles.trans same) framed leads
      exact left.earlier same.toAssigns
  · obtain ⟨stack, heap, waits, _⟩ := resumeWait_still walks
    have poised' : Poised start evaluator (.await links node) (resumeWait evaluator links node state).state :=
      poised.ready stack heap
    refine ⟨?_, poised'.settles, poised'.held, ?_⟩
    · rw [heap]
      exact (Heap.Settles.refl poised.settles.kept.free).toAssigns
    · intro control after ended
      rw [waits control after ended]
      rw [ended] at poised'
      exact poised'

theorem iterate_leaves {host : Host σ} (keeps : host.KeepsTo Heap.Advances) (regular : start.Regular)
    (poised : Poised start evaluator control state)
    (fits : (iterate host evaluator control state).state.world.heap.Addressable) :
    Leaves start evaluator state.world.heap (Goes start evaluator) (iterate host evaluator control state) := by
  cases control with
  | eval expr env =>
    refine Leaves.step (continuing (eval host evaluator expr env)) poised fits fun poised' fits' => ?_
    rw [continuing_state] at fits'
    refine Leaves.continuing ?_
    exact .works regular poised'.settles (poised'.stacked.framed nofun) (eval_works keeps evaluator expr env)
      (eval_fresh host evaluator expr env) fits'
  | force handle =>
    refine Leaves.step (continuing (demand evaluator handle)) poised fits fun poised' _ => ?_
    refine Leaves.continuing ?_
    exact demandFrom_leaves regular poised'.settles (poised'.stacked.framed nofun) nofun
  | deliver whnf =>
    exact Leaves.step (finish host evaluator whnf) poised fits fun poised' fits' =>
      finish_leaves keeps regular poised' fits'
  | await links node => exact (await_leaves regular poised).continuing

/-- Unwinding gives back what the call has claimed, as it was. -/
theorem releaseAll_leaves (released : Nat) (settles : start.Settles heap) (held : Held start heap actor frames) :
    heap.Assigns (releaseAll actor frames released heap).2 ∧
      start.Settles (releaseAll actor frames released heap).2 := by
  induction frames generalizing released heap with
  | nil => exact ⟨(Heap.Settles.refl settles.kept.free).toAssigns, settles⟩
  | cons frame frames ih =>
    have whole : Held start heap actor ([frame] ++ frames) := held
    have below := whole.right
    cases frame with
    | update node =>
      obtain ⟨expr, env, claimed⟩ := held.thunk (.head _)
      obtain ⟨heap', released', rewrites⟩ := release_held claimed
      have assigns : heap.Assigns heap' := by
        refine .of_rewrites settles.kept.free rewrites ⟨fun _ => .inl ⟨rfl, by simp⟩, by simp, ?_, ?_⟩ (by simp [Node.tag])
        · simp [Node.tag, Tag.isWhnf]
        · simp [Node.tag]
      have settled := settles.rewrites rewrites assigns (held.idle (.head _))
      have lasting := below.step (spared_of_rewrites rewrites fun other member => held.apart member)
      obtain ⟨assigns', settled'⟩ := ih (released + 1) settled lasting
      simp only [releaseAll, released']
      exact ⟨assigns.trans assigns', settled'⟩
    | _ => exact ih released settles below

theorem unwind_leaves (fault : Fault) (settles : start.Settles state.world.heap)
    (held : Held start state.world.heap evaluator.actor state.stack.items) :
    state.world.heap.Assigns (unwind evaluator fault state).world.heap ∧
      start.Settles (unwind evaluator fault state).world.heap := by
  obtain ⟨assigns, settled⟩ := releaseAll_leaves 0 settles held
  have ended : (releaseAll evaluator.actor state.stack.items 0 state.world.heap).2.Settles
      (unwind evaluator fault state).world.heap := .of_entries settled.kept.free rfl rfl
  exact ⟨assigns.trans ended.toAssigns, settled.trans ended⟩

/-! ### Whole calls -/

-- The heap never loses slots.
def growing : HeapMotion where
  along before after := before.capacity ≤ after.capacity
  trans := Nat.le_trans
  same entries _ := Nat.le_of_eq (congrArg Array.size entries.symm)
  alloc node heap := (Heap.alloc_advances node heap).grows
  allocGroup count build leaves heap := (Course.allocGroup count build leaves heap : Heap.Advances heap _).grows
  redirect link target heap := (Heap.redirect_drifts link target heap : Heap.Drift .any heap _).grows

variable {host : Host σ} {next : Control} {reached : State σ}

theorem iterate_grows (keeps : host.KeepsTo Heap.Advances) (evaluator : Evaluator) (control : Control)
    (state : State σ) :
    state.world.heap.capacity ≤ (iterate host evaluator control state).state.world.heap.capacity := by
  have follows : host.Follows growing := fun fn operands world => (keeps fn operands world).grows
  exact (iterate_transition follows evaluator control state).capacity_le id

theorem unwind_capacity (evaluator : Evaluator) (fault : Fault) (state : State σ) :
    (unwind evaluator fault state).world.heap.capacity = state.world.heap.capacity :=
  capacity_releaseAll evaluator.actor state.stack.items 0 state.world.heap

theorem Poised.begin (regular : state.world.heap.Regular) (idle : state.stack.items = []) (root : Handle) :
    Poised state.world.heap evaluator (.force root) (begin evaluator state) := by
  refine ⟨.refl regular.free, trivial, .level ?_⟩
  have items : (Machine.begin evaluator state).stack.items = [] := idle
  rw [items]
  exact ⟨.nil _ _ _, .nil⟩

theorem iterations_grows (keeps : host.KeepsTo Heap.Advances) {count : Nat}
    (standing : iterations host evaluator control state count = some (next, reached)) :
    state.world.heap.capacity ≤ reached.world.heap.capacity := by
  induction count generalizing next reached with
  | zero =>
    cases standing
    exact Nat.le_refl _
  | succ count ih =>
    obtain ⟨control', before, earlier, stepped⟩ := iterations_succ standing
    have grows := iterate_grows keeps evaluator control' before
    rw [stepped] at grows
    exact Nat.le_trans (ih earlier) grows

theorem iterations_poised (keeps : host.KeepsTo Heap.Advances) (regular : start.Regular)
    (poised : Poised start evaluator control state) {count : Nat}
    (standing : iterations host evaluator control state count = some (next, reached))
    (fits : reached.world.heap.Addressable) : Poised start evaluator next reached := by
  induction count generalizing next reached with
  | zero =>
    cases standing
    exact poised
  | succ count ih =>
    obtain ⟨control', before, earlier, stepped⟩ := iterations_succ standing
    have grows := iterate_grows keeps evaluator control' before
    rw [stepped] at grows
    have left := iterate_leaves keeps regular (ih earlier (fits.mono grows)) (stepped ▸ fits)
    exact left.next _ _ stepped next rfl

/-- A call leaves to others what is theirs, and assigns every slot once. -/
theorem force_advances (keeps : host.KeepsTo Heap.Advances) (idle : state.stack.items = []) {fuel : Nat} {root : Handle}
    {result : Except Fault Handle} {after : State σ} (ended : force host evaluator fuel root state = some (result, after)) :
    state.world.heap.Advances after.world.heap := by
  obtain ⟨count, control, last, standing, ends⟩ := force_ends ended
  have grown : (begin evaluator state).world.heap.capacity ≤ last.world.heap.capacity :=
    iterations_grows keeps standing
  have grows := iterate_grows keeps evaluator control last
  have poised : state.world.heap.Regular → last.world.heap.Addressable →
      Poised state.world.heap evaluator control last := fun regular fits =>
    iterations_poised keeps regular (.begin regular idle root) standing fits
  rcases ends with ⟨handle, _, finished⟩ | ⟨fault, raised, _, failed, rfl⟩
  · rw [finished] at grows
    refine ⟨Nat.le_trans grown grows, fun fits regular => ?_⟩
    have left := iterate_leaves keeps regular (poised regular (fits.mono grows)) (finished ▸ fits)
    rw [finished] at left
    exact left.settles
  · rw [failed] at grows
    have same := unwind_capacity evaluator fault raised
    refine ⟨same ▸ Nat.le_trans grown grows, fun fits regular => ?_⟩
    have fits' : raised.world.heap.Addressable := fits.mono (Nat.le_of_eq same.symm)
    have left := iterate_leaves keeps regular (poised regular (fits'.mono grows)) (failed ▸ fits')
    rw [failed] at left
    exact (unwind_leaves fault left.settles left.held).2

end Machine

end LazyGraph

import LazyGraph.Proofs.Parallel.Evaluation
import LazyGraph.Proofs.Sharing.ByNeed

/-! Results that are handed on while others look.

A result is written into its thunk before the thunk is marked as evaluated. In between the slot
already stands for the value, and nobody else takes it over. Links are pointed at a value one
by one. -/

set_option autoImplicit false

namespace LazyGraph.Parallel

open Unshared Machine

variable {σ : Type} {host : Host σ} {evaluator : Evaluator} {graph : Heap} {known : Handle → Prop}
  {account account' : Account} {state state' : State σ} {actor : Actor} {frame : Frame} {frames : List Frame}
  {above below : List Hole} {shape value : Shape} {before after : Heap} {link target node : Handle} {links : List Handle}
  {content : Node} {whnf : Whnf}

/-! ### Links -/

/-- A link whose closure comes to a value may be pointed at it. -/
theorem redirect_sound (sound : Sound graph known account before) (denotes : Denotes known account.reading content value)
    (keeps : before.settled.Keeps target content) (comes : Comes graph account.reading (.deliver value) link) :
    ∃ done after, Heap.redirect link target before = .ok done after ∧ Sound graph known account after ∧
      (∀ actor, Minds actor account before account after) ∧ after.nextActor = before.nextActor := by
  obtain ⟨closure, read, becomes⟩ := comes
  obtain ⟨⟨slotState, old⟩, found⟩ := Heap.live_settled.mp (sound.faithful.live_of_becomes read becomes)
  cases old with
  | indirection old =>
    have rewrites : before.Rewrites (before.put link.index.toNat ⟨slotState, .indirection target⟩) link
        ⟨slotState, .indirection old⟩ ⟨slotState, .indirection target⟩ := Heap.put_rewrites found rfl rfl
    have redirected : Heap.redirect link target before =
        .ok true (before.put link.index.toNat ⟨slotState, .indirection target⟩) := by
      simp [Heap.redirect, Heap.transition, found, Slot.redirect]
    have faithful : Faithful graph known account.reading
        (before.put link.index.toNat ⟨slotState, .indirection target⟩).settled := by
      refine sound.faithful.rewrites rewrites.settled (by rw [Slot.node_settled]; rfl) fun other read' => ?_
      cases read.symm.trans read'
      rw [Slot.settled_of_solid (by simp [Node.tag])]
      exact .shared keeps denotes becomes
    refine ⟨true, _, redirected, sound.rewrites rewrites faithful rfl (fun free => ?_) fun owner held => ?_,
      fun actor => ?_, rfl⟩
    · cases free
      cases sound.pending found
    · exact .inl ⟨held, by simp [Node.tag]⟩
    · exact ⟨.rewrites sound.free rewrites ((SlotLaw.minding actor).retarget slotState old target) rfl, rfl⟩
  | _ =>
    exact ⟨false, before, by simp [Heap.redirect, Heap.transition, found, Slot.redirect], sound,
      fun actor => .refl sound actor, rfl⟩

theorem redirectAll_sure (sound : Sound graph known account state.world.heap)
    (denotes : Denotes known account.reading content value) (keeps : state.world.heap.settled.Keeps target content)
    (comes : ∀ link ∈ links, Comes graph account.reading (.deliver value) link) :
    Sure graph known actor (fun _ account' state' => Later graph known actor account state account' state')
      (redirectAll links target) account state := by
  induction links generalizing account state with
  | nil => exact fun account' state' later => later
  | cons link links ih =>
    obtain ⟨here, rest⟩ := List.forall_mem_cons.mp comes
    intro account₁ state₁ later₁ fits
    have minds := later₁.minds
    have denotes₁ := denotes.mono minds.wider
    have keeps₁ := minds.keeps denotes.whnf keeps
    obtain ⟨done, heap, redirected, sound₂, minds₂, registry⟩ :=
      redirect_sound later₁.sound denotes₁ keeps₁ (here.wider minds.wider)
    have first : (do let _ ← onHeap (Heap.redirect link target)) state₁ =
        .ok () { state₁ with world := { state₁.world with heap := heap } } := bind_ok (onHeap_ok redirected)
    rw [first]
    refine ⟨account₁, ⟨sound₂, fun other _ => minds₂ other, registry⟩, ?_⟩
    have later₂ : Later graph known actor account₁ state₁ account₁
        { state₁ with world := { state₁.world with heap := heap } } := ⟨sound₂, minds₂ actor, rfl⟩
    refine Sure.mono (ih sound₂ denotes₁ ((minds₂ actor).keeps denotes.whnf keeps₁) fun other member =>
      (rest other member).wider minds.wider) fun _ account₃ state₃ later₃ => (later₁.trans later₂).trans later₃

/-! ### Results -/

/-- What is written into a thunk stands for the closures that it had, and the value is kept. -/
theorem payload_depicts {reading : Reading} {heap : Heap} {closure : Closure} (denotes : Denotes known reading whnf.node value)
    (stored : ∀ handle, whnf.handle? = some handle → heap.Keeps handle whnf.node)
    (becomes : Becomes graph closure (.deliver value)) :
    Depicts graph known reading heap closure ⟨.evaluated, (updatePayload node whnf).1⟩ ∧
      (updatePayload node whnf).1.tag ≠ .thunk := by
  rcases updatePayload_cases node whnf with ⟨existing, located, apart, payload⟩ | payload
  · rw [payload]
    exact ⟨.shared (stored existing located) denotes becomes, by simp [Node.tag]⟩
  · rw [payload]
    exact ⟨.value denotes becomes, Tag.ne_thunk_of_whnf denotes.whnf⟩

theorem payload_keeps {slot : Slot} {slotState : SlotState} (isWhnf : whnf.node.tag.isWhnf)
    (stored : ∀ handle, whnf.handle? = some handle → before.settled.Keeps handle whnf.node)
    (rewrites : before.Rewrites after node slot ⟨slotState, (updatePayload node whnf).1⟩) :
    after.settled.Keeps (updatePayload node whnf).2 whnf.node := by
  rcases updatePayload_cases node whnf with ⟨existing, located, apart, payload⟩ | payload
  · obtain ⟨state, found⟩ := (Heap.keeps_settled isWhnf).mp (stored existing located)
    rw [payload] at rewrites ⊢
    exact (Heap.keeps_settled isWhnf).mpr ⟨state, by rw [rewrites.lookup, if_neg apart, found]⟩
  · rw [payload] at rewrites ⊢
    exact (Heap.keeps_settled isWhnf).mpr ⟨slotState, by rw [rewrites.lookup, if_pos rfl]⟩

theorem write_sound {expr : Expr} {env : Env} {payload : Node} (sound : Sound graph known account before)
    (unwaiting : before.waits.lookup actor = none)
    (rewrites : before.Rewrites after node ⟨.inProgress actor, .thunk expr env⟩ ⟨.inProgress actor, payload⟩)
    (solid : payload.tag ≠ .thunk)
    (depicts : ∀ closure, account.reading node = some closure →
      Depicts graph known account.reading before.settled closure ⟨.evaluated, payload⟩)
    (waits : after.waits = before.waits) :
    Sound graph known account after ∧ ∀ other, other ≠ actor → Minds other account before account after := by
  have faithful : Faithful graph known account.reading after.settled := by
    refine sound.faithful.rewrites rewrites.settled (by rw [Slot.node_settled]; rfl) fun closure read => ?_
    rw [Slot.settled_of_solid solid]
    exact depicts closure read
  refine ⟨sound.rewrites rewrites faithful waits (by simp) fun owner held => ?_, fun other apart => ?_⟩
  · cases held
    exact .inr unwaiting
  · refine ⟨.rewrites sound.free rewrites ⟨fun expr' env' held => ?_, fun held => ?_, fun noThunk => ?_, fun isWhnf => ?_⟩
      waits, rfl⟩
    · cases held
      exact absurd rfl apart
    · cases held
      exact absurd rfl apart
    · exact absurd rfl noThunk
    · cases isWhnf

/-- A slot that holds its result stands for the same when it is marked. -/
theorem mark_sound {slotState : SlotState} (sound : Sound graph known account before) (solid : content.tag ≠ .thunk)
    (rewrites : before.Rewrites after node ⟨slotState, content⟩ ⟨.evaluated, content⟩)
    (waits : after.waits = before.waits) :
    Sound graph known account after ∧ ∀ other, Minds other account before account after := by
  have same : ∀ handle, after.settled.lookup handle = before.settled.lookup handle := by
    intro handle
    rw [rewrites.settled.lookup]
    split
    · rename_i here
      rw [here, rewrites.settled.found, Slot.settled_of_solid solid, Slot.settled_of_solid solid]
    · rfl
  have faithful : Faithful graph known account.reading after.settled :=
    sound.faithful.of_lookup (sound.free.rewrites rewrites).settled same fun handle offers => rewrites.settled.offers offers
  refine ⟨sound.rewrites rewrites faithful waits (by simp) (by simp), fun other => ?_⟩
  refine ⟨.rewrites sound.free rewrites ⟨fun expr env held => ?_, by simp, id, fun _ => rfl⟩ waits, rfl⟩
  cases held
  exact absurd rfl solid

/-- The thunk of the frame taken off is overwritten with its result, and marked. -/
theorem complete_sure (denotes : Denotes known account.reading whnf.node value)
    (stored : ∀ handle, whnf.handle? = some handle → state.world.heap.settled.Keeps handle whnf.node)
    (comes : Comes graph account.reading (.deliver value) node)
    (backs : Backs graph known account.reading (.deliver value) [] state.stack.items below)
    (working : Working graph known actor shape account state.world.heap (.update node :: state.stack.items)
      (.deliver value) [] below) (unwaiting : state.world.heap.waits.lookup actor = none) :
    Sure graph known actor (fun done account' after => done = true ∧
        Standing graph known actor shape account' after (.turn (.deliver (.stored (updatePayload node whnf).2 whnf.node))))
      (complete node actor (updatePayload node whnf).1) account state := by
  obtain ⟨closure, read, becomes⟩ := comes
  have parts : complete node actor (updatePayload node whnf).1 =
      (.act (do settle ((← getHeap).state node)) fun slotState =>
        if slotState = .inProgress actor then
          .act (onHeap (write node (updatePayload node whnf).1)) fun _ => .act (onHeap (mark node)) fun _ => .ended true
        else .act (onHeap (modify Heap.notify)) fun _ => .ended false : Plan σ Bool) := rfl
  have apart : ∀ other, .update other ∈ state.stack.items → other ≠ node := fun other member => working.holds.apart member
  rw [parts]
  -- the actor looks whether it holds the thunk
  refine Sure.read fun account₁ state₁ later₁ => ?_
  obtain ⟨_, _, found₁⟩ := (working.later later₁.minds).holds.thunk (.head _)
  refine ⟨.inProgress actor, by rw [Heap.state, found₁]; rfl, ?_⟩
  rw [if_pos rfl]
  -- it writes the result
  intro account₂ state₂ later₂ _
  have later := later₁.trans later₂
  have minds := later.minds
  have working₂ := working.later minds
  obtain ⟨expr, env, found₂⟩ := working₂.holds.thunk (.head _)
  have stored₂ : ∀ handle, whnf.handle? = some handle → state₂.world.heap.settled.Keeps handle whnf.node :=
    fun handle located => minds.keeps denotes.whnf (stored handle located)
  have rewrites₂ := Shared.write_rewrites found₂ (updatePayload node whnf).1
  obtain ⟨depicts₂, solid₂⟩ : Depicts graph known account₂.reading state₂.world.heap.settled closure
      ⟨.evaluated, (updatePayload node whnf).1⟩ ∧ (updatePayload node whnf).1.tag ≠ .thunk :=
    payload_depicts (denotes.mono minds.wider) stored₂ becomes
  obtain ⟨sound₃, minds₃⟩ := write_sound later.sound (minds.waits.trans unwaiting) rewrites₂ solid₂
    (fun closure' read' => by cases read'.symm.trans (minds.wider _ _ read); exact depicts₂) rfl
  rw [onHeap_ok (write_ok found₂ (updatePayload node whnf).1)]
  refine ⟨account₂, ⟨sound₃, minds₃, rfl⟩, ?_⟩
  have keeps₃ := payload_keeps denotes.whnf stored₂ rewrites₂
  have beside₃ : Beside graph known actor shape account₂ (state₂.world.heap.put node.index.toNat
      ⟨.inProgress actor, (updatePayload node whnf).1⟩) state.stack.items (.deliver value) [] below :=
    ⟨backs.mono minds.wider, working.ends, working₂.holds.tail.step (spared_of_rewrites rewrites₂ apart), working₂.own⟩
  -- and marks it
  intro account₄ state₄ later₄ _
  have minds₄ := later₄.minds
  have found₃ : (state₂.world.heap.put node.index.toNat ⟨.inProgress actor, (updatePayload node whnf).1⟩).lookup node =
      .ok ⟨.inProgress actor, (updatePayload node whnf).1⟩ := (rewrites₂.lookup node).trans (if_pos rfl)
  obtain ⟨⟨slotState, content⟩, found₄, solid₄⟩ := minds₄.solid found₃ solid₂
  have rewrites₄ := Shared.mark_rewrites found₄
  obtain ⟨sound₅, minds₅⟩ := mark_sound later₄.sound solid₄ rewrites₄ rfl
  rw [onHeap_ok (mark_ok found₄)]
  refine ⟨account₄, ⟨sound₅, fun other _ => minds₅ other, rfl⟩, fun account₆ state₆ later₆ => ⟨rfl, Standing.later ?_ later₆⟩⟩
  have stack : state₄.stack = state.stack := later₄.stack.trans later.stack
  have keeps₅ := (minds₅ actor).keeps denotes.whnf (minds₄.keeps denotes.whnf keeps₃)
  have denotes₅ := denotes.mono (minds.wider.trans minds₄.wider)
  refine .of_heap rfl (congrArg Stack.items stack) (.deliver denotes₅ ?_)
    ⟨(beside₃.later minds₄).later (minds₅ actor), fun {other content} found => ?_⟩
    (minds₄.waits.trans (minds.waits.trans unwaiting))
  · rintro handle ⟨⟩
    exact keeps₅
  · -- what the actor holds now it held before, and it does not hold the node
    rw [rewrites₄.lookup] at found
    split at found
    · cases found
    · rename_i another
      obtain ⟨content', found⟩ := minds₄.unclaimed found
      have found : (state₂.world.heap.put node.index.toNat ⟨.inProgress actor, (updatePayload node whnf).1⟩).lookup other =
          .ok ⟨.inProgress actor, content'⟩ := found
      rw [rewrites₂.lookup, if_neg another] at found
      rcases List.mem_cons.mp (working₂.only found) with same | member
      · cases same
        exact absurd rfl another
      · exact member

theorem update_sure (sound : Sound graph known account state.world.heap)
    (denotes : Denotes known account.reading whnf.node value)
    (stored : ∀ handle, whnf.handle? = some handle → state.world.heap.settled.Keeps handle whnf.node)
    (comes : Comes graph account.reading (.deliver value) node)
    (backs : Backs graph known account.reading (.deliver value) [] state.stack.items below)
    (working : Working graph known evaluator.actor shape account state.world.heap (.update node :: state.stack.items)
      (.deliver value) [] below) (unwaiting : state.world.heap.waits.lookup evaluator.actor = none) :
    Sure graph known evaluator.actor (fun control account' after =>
      Standing graph known evaluator.actor shape account' after (.turn control)) (update evaluator node whnf)
      account state := by
  have plan : update evaluator node whnf = (do
      let done ← complete node evaluator.actor (updatePayload node whnf).1
      if done then
        .act (record (.updated evaluator.actor node whnf.node)) fun _ =>
          .ended (.deliver (.stored (updatePayload node whnf).2 whnf.node))
      else .once (throw (.malformed (.notOwner node evaluator.actor))) : Plan σ Control) := rfl
  rw [plan]
  refine (complete_sure denotes stored comes backs working unwaiting).bind sound ?_
  rintro done account' state' _ ⟨rfl, standing⟩
  rw [if_pos rfl]
  exact Sure.world (fun _ => rfl) fun account'' state'' later => standing.later later

theorem redirection_sure (sound : Sound graph known account state.world.heap)
    (denotes : Denotes known account.reading whnf.node value)
    (stored : ∀ handle, whnf.handle? = some handle → state.world.heap.settled.Keeps handle whnf.node)
    (comes : ∀ link ∈ links, Comes graph account.reading (.deliver value) link)
    (working : Working graph known actor shape account state.world.heap state.stack.items (.deliver value) [] below)
    (unwaiting : state.world.heap.waits.lookup actor = none) :
    Sure graph known actor (fun control account' after => Standing graph known actor shape account' after (.turn control))
      (resume host evaluator (.redirect links) whnf) account state := by
  have delivers : ∀ {account' state'}, Later graph known actor account state account' state' →
      Standing graph known actor shape account' state' (.turn (.deliver whnf)) :=
    fun later => .later (.turn (.deliver denotes stored) working unwaiting) later
  cases located : whnf.handle? with
  | none =>
    have plan : resume host evaluator (.redirect links) whnf = (.ended (.deliver whnf) : Plan σ Control) := by
      simp only [resume, located]
      rfl
    rw [plan]
    exact fun account' state' later => delivers later
  | some target =>
    have plan : resume host evaluator (.redirect links) whnf =
        (do redirectAll links target; .ended (.deliver whnf) : Plan σ Control) := by
      simp only [resume, located]
      rfl
    rw [plan]
    refine (redirectAll_sure sound denotes (stored target located) comes).bind sound ?_
    exact fun _ account' state' _ later account'' state'' latest => delivers (later.trans latest)

theorem resume_sure (sound : Sound graph known account state.world.heap)
    (denotes : Denotes known account.reading whnf.node value)
    (stored : ∀ handle, whnf.handle? = some handle → state.world.heap.settled.Keeps handle whnf.node)
    (working : Working graph known evaluator.actor shape account state.world.heap (frame :: state.stack.items)
      (.deliver value) [] below) (unwaiting : state.world.heap.waits.lookup evaluator.actor = none) :
    Sure graph known evaluator.actor (fun control account' after =>
      Standing graph known evaluator.actor shape account' after (.turn control)) (resume host evaluator frame whnf)
      account state := by
  have backs := working.backs
  have holds := working.holds.tail
  have rest : (∀ node, frame ≠ .update node) → ∀ {node content},
      state.world.heap.lookup node = .ok ⟨.inProgress evaluator.actor, content⟩ → .update node ∈ state.stack.items :=
    fun unmarked node content found => (List.mem_cons.mp (working.only found)).resolve_left fun same => unmarked node same.symm
  cases backs with
  | marker marks led backs =>
    cases frame with
    | update node =>
      cases marks
      exact update_sure sound denotes stored (led node (.head _)) backs working unwaiting
    | redirect links =>
      cases marks
      exact redirection_sure sound denotes stored led
        ⟨⟨backs, working.ends, holds, working.own⟩, rest (by simp)⟩ unwaiting
    | _ => cases marks
  | @plain _ holes _ _ hole fits backs =>
    obtain ⟨move, moved⟩ := resume_moves working.ends
    have plan : resume host evaluator frame whnf = .once (Machine.resume host evaluator frame whnf) := by
      cases fits <;> rfl
    rw [plan]
    have below : Working graph known evaluator.actor shape account state.world.heap state.stack.items (.deliver value)
        [hole] holes := by
      refine ⟨⟨backs, working.ends, holds, working.own⟩, rest ?_⟩
      rintro node rfl
      cases fits
    intro account' state' later fits'
    have minds := later.minds
    refine Achieves.mono ((Blind.resume (fits.mono minds.wider) whnf).achieves later.sound
      (later.stack ▸ below.later minds) (minds.waits.trans unwaiting) fits' (fun _ => ?_) (turns_deliver moved))
      fun control account'' state'' standing _ _ latest => standing.later latest
    rw [← moved]
    exact @resume_tracks _ _ _ _ _ host evaluator (withHeap state' state'.world.heap.settled) _ _ _ later.sound.faithful
      (fits.mono minds.wider) (denotes.mono minds.wider)

end LazyGraph.Parallel

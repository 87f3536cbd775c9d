import LazyGraph.Proofs.Parallel.Evaluation

/-! Waiting for what another evaluator holds.

Whoever waits for a thunk depends on it with all that it holds. A chain of waits, however the
waits come and go while it is followed, is then a chain of dependencies; were it to lead back,
the closure at hand would depend on itself, and its evaluation would not end. -/

set_option autoImplicit false

namespace LazyGraph

open Unshared

theorem Unshared.Turns.beneath {graph : Heap} {least : Nat} {task task' : Task} {above above' : List Hole}
    (turns : Turns graph least task above task' above') (deeper : List Hole) :
    Turns graph least task (above ++ deeper) task' (above' ++ deeper) := by
  intro rest
  rw [List.append_assoc, List.append_assoc]
  exact turns (deeper ++ rest)

namespace Parallel

open Machine

variable {σ : Type} {evaluator : Evaluator} {graph : Heap} {known : Handle → Prop} {account account' : Account}
  {state state' : State σ} {actor owner : Actor} {frames : List Frame} {above holes : List Hole} {shape : Shape} {heap : Heap}
  {current node : Handle} {links : List Handle} {closure closure' : Closure} {content : Node}

theorem Sound.live (sound : Sound graph known account heap) (read : account.reading node = some closure)
    (ends : Ends graph (.force closure, holes) shape) : ∃ slot, heap.lookup node = .ok slot := by
  by_contra dead
  refine sound.faithful.unfinished read (fun live => dead ?_) holes ⟨shape, ends⟩
  exact Heap.live_settled.mp live

theorem Working.depends
    (working : Working graph known actor shape account heap frames (.force closure) [] holes)
    (found : heap.lookup node = .ok ⟨.inProgress actor, content⟩) :
    content.tag = .thunk ∧ ∃ closure' deeper, account.reading node = some closure' ∧
      Turns graph 1 (.force closure') [] (.force closure) deeper := by
  have member := working.only found
  obtain ⟨_, _, held⟩ := working.holds.thunk member
  cases found.symm.trans held
  exact ⟨rfl, working.backs.update member⟩

/-- So the actor does not come to what it holds, straight or by way of other closures. -/
theorem Working.acyclic
    (working : Working graph known actor shape account heap frames (.force closure) [] holes)
    (found : heap.lookup node = .ok ⟨.inProgress actor, content⟩) (read : account.reading node = some closure')
    (turns : Turns graph 0 (.force closure) [] (.force closure') above) : False := by
  obtain ⟨_, _, deeper, read', back⟩ := working.depends found
  cases read.symm.trans read'
  have round := (turns.trans (back.beneath above)).mono (Nat.le_refl 1)
  exact round.endless holes ⟨shape, working.ends⟩

/-! ### Looking for a circle of waits -/

theorem holder_cases {slot : Slot} (found : state.world.heap.lookup current = .ok slot) :
    (∃ owner, slot.state = .inProgress owner ∧
      holder current state = .ok (some (owner, state.world.heap.waits.lookup owner)) state) ∨
    holder current state = .ok none state := by
  obtain ⟨slotState, content⟩ := slot
  have looked : state.world.heap.state current = .ok slotState := by
    rw [Heap.state, found]
    rfl
  unfold holder
  rw [bind_ok (rfl : getHeap state = .ok state.world.heap state)]
  simp only [looked]
  cases slotState with
  | inProgress owner => exact .inl ⟨owner, rfl, rfl⟩
  | _ => exact .inr rfl

theorem leadsBack_sure (hops : Nat)
    (working : Working graph known actor shape account state.world.heap state.stack.items (.force closure) [] holes)
    (read : account.reading current = some closure') (turns : Turns graph 0 (.force closure) [] (.force closure') above) :
    Sure graph known actor (fun back account' state' => back = false ∧ Later graph known actor account state account' state')
      (leadsBack actor hops current) account state := by
  induction hops generalizing account state current closure' above with
  | zero => exact fun account' state' later => ⟨rfl, later⟩
  | succ hops ih =>
    refine Sure.still fun account₁ state₁ later₁ => ?_
    have working₁ := working.later later₁.minds
    rw [← later₁.stack] at working₁
    have read₁ := later₁.minds.wider _ _ read
    have ends : Ends graph (.force closure', above ++ holes) shape := ends_onward working.ends (turns holes)
    obtain ⟨⟨slotState, content⟩, found⟩ := later₁.sound.live read₁ ends
    have ended : ∀ account' state', Later graph known actor account₁ state₁ account' state' →
        false = false ∧ Later graph known actor account state account' state' :=
      fun account' state' latest => ⟨rfl, later₁.trans latest⟩
    rcases holder_cases found with ⟨owner, rfl, looked⟩ | looked
    · refine ⟨_, state₁, looked, rfl, ?_⟩
      have apart : owner ≠ actor := by
        rintro rfl
        exact working₁.acyclic found read₁ turns
      simp only [Plan.bind, if_neg apart]
      cases waiting : state₁.world.heap.waits.lookup owner with
      | none => exact ended
      | some next =>
        obtain ⟨_, depends⟩ := later₁.sound.waits waiting found
        obtain ⟨closure'', deeper, read'', onward⟩ := depends closure' read₁
        have turns' := (turns.trans (onward.beneath above)).mono (Nat.zero_le _)
        refine Sure.mono (ih working₁ read'' turns') fun back account' state' result => ?_
        exact ⟨result.1, later₁.trans result.2⟩
    · exact ⟨none, state₁, looked, rfl, ended⟩

/-! ### Entering and leaving a wait -/

theorem insertWait_sound
    (sound : Sound graph known account heap)
    (working : Working graph known actor shape account heap frames (.force closure) [] holes)
    (read : account.reading node = some closure) :
    Sound graph known account { heap with waits := Heap.insertWait actor node heap.waits } ∧
      ∀ other, other ≠ actor →
        Minds other account heap account { heap with waits := Heap.insertWait actor node heap.waits } := by
  refine ⟨sound.of_entries rfl rfl fun {owner waited} waiting => ?_, fun other apart => ?_⟩
  · rw [Heap.lookup_insertWait] at waiting
    split at waiting
    · rename_i same
      subst same
      cases waiting
      refine .inr fun {held content} found => ?_
      obtain ⟨thunk, closure', deeper, read', turns⟩ := working.depends found
      refine ⟨thunk, fun closure'' read'' => ?_⟩
      cases read'.symm.trans read''
      exact ⟨closure, deeper, read, turns⟩
    · exact .inl waiting
  · refine ⟨.of_entries sound.free rfl rfl ?_, rfl⟩
    rw [Heap.lookup_insertWait, if_neg apart]

theorem endWait_sound (sound : Sound graph known account heap) (actor : Actor) :
    Sound graph known account (heap.endWait actor) ∧
      ∀ other, other ≠ actor → Minds other account heap account (heap.endWait actor) := by
  refine ⟨sound.of_entries rfl rfl fun {owner waited} waiting => ?_, fun other apart => ?_⟩
  · rw [Heap.lookup_endWait] at waiting
    split at waiting
    · cases waiting
    · exact .inl waiting
  · refine ⟨.of_entries sound.free rfl rfl ?_, rfl⟩
    rw [Heap.lookup_endWait, if_neg apart]

theorem Working.of_entries {heap' : Heap}
    (working : Working graph known actor shape account heap frames (.force closure) [] holes)
    (entries : heap'.entries = heap.entries) :
    Working graph known actor shape account heap' frames (.force closure) [] holes where
  backs := working.backs
  ends := working.ends
  holds := working.holds.step fun _ found => (Heap.lookup_congr entries _).trans found
  own := working.own
  only := fun found => working.only ((Heap.lookup_congr entries _).symm.trans found)

theorem startWait_sure
    (working : Working graph known evaluator.actor shape account state.world.heap state.stack.items (.force closure) [] holes)
    (read : account.reading node = some closure) (comes : ∀ link ∈ links, Comes graph account.reading (.force closure) link) :
    Sure graph known evaluator.actor (fun control account' after =>
      Standing graph known evaluator.actor shape account' after (.turn control)) (startWait evaluator links node)
      account state := by
  have plan : startWait evaluator links node = (.act (do return (← getHeap).waits.length) fun entries => do
      let back ← leadsBack evaluator.actor (entries + 1) node
      if back then .once (throw (.nonTermination node))
      else
        .act (modifyWorld fun world =>
          { world with heap := { world.heap with waits := Heap.insertWait evaluator.actor node world.heap.waits } }) fun _ =>
          .act (record (.waiting evaluator.actor node)) fun _ => .ended (.await links node) : Plan σ Control) := rfl
  rw [plan]
  refine Sure.still fun account₁ state₁ later₁ => ⟨_, state₁, rfl, rfl, ?_⟩
  have working₁ := working.later later₁.minds
  rw [← later₁.stack] at working₁
  refine (leadsBack_sure _ working₁ (later₁.minds.wider _ _ read) (.refl _ _)).bind later₁.sound ?_
  rintro back account₂ state₂ _ ⟨rfl, later₂⟩
  rw [if_neg (by simp)]
  intro account₃ state₃ later₃ _
  have later := (later₁.trans later₂).trans later₃
  have wider := later.minds.wider
  have working₃ := working.later later.minds
  rw [← later.stack] at working₃
  obtain ⟨sound₄, minds₄⟩ := insertWait_sound later₃.sound working₃ (wider _ _ read)
  refine ⟨account₃, ⟨sound₄, minds₄, rfl⟩, Sure.world (fun _ => rfl) fun account₅ state₅ later₅ => Standing.later ?_ later₅⟩
  exact .awaits (wider _ _ read) (fun link member => (comes link member).wider wider) (working₃.of_entries rfl)

/-- While the node is held by another one, time passes; then the walk goes on from it. -/
theorem resumeWait_sure
    (working : Working graph known evaluator.actor shape account state.world.heap state.stack.items (.force closure) [] holes)
    (read : account.reading node = some closure) (comes : ∀ link ∈ links, Comes graph account.reading (.force closure) link) :
    Sure graph known evaluator.actor (fun pace account' after => Standing graph known evaluator.actor shape account' after pace)
      (resumeWait evaluator links node) account state := by
  have plan : resumeWait evaluator links node = (.act (checkInterruption evaluator) fun _ =>
      .act (do settle ((← getHeap).state node)) fun slotState =>
        if slotState.heldByOther evaluator.actor then
          .act (modifyWorld (·.pass evaluator.settings.pollInterval.toNat)) fun _ => .ended (.turn (.await links node))
        else .act (modifyWorld fun world => { world with heap := world.heap.endWait evaluator.actor }) fun _ =>
          .ended (.walk links.reverse node) : Plan σ Pace) := rfl
  rw [plan]
  refine Sure.limited working.holds fun account₁ state₁ later₁ => ?_
  unfold checkInterruption
  cases interruption? evaluator state₁ with
  | some limit => exact .inr ⟨limit, state₁, rfl, rfl, rfl⟩
  | none =>
    refine .inl ⟨(), state₁, rfl, rfl, Sure.read fun account₂ state₂ later₂ => ?_⟩
    have later := later₁.trans later₂
    have read₂ := later.minds.wider _ _ read
    obtain ⟨⟨slotState, content⟩, found⟩ := later.sound.live read₂ working.ends
    refine ⟨slotState, by rw [Heap.state, found]; rfl, ?_⟩
    have awaits : Standing graph known evaluator.actor shape account state (.turn (.await links node)) :=
      .awaits read comes working
    split
    · exact Sure.world (fun _ => rfl) fun account₃ state₃ later₃ => awaits.later (later.trans later₃)
    · intro account₃ state₃ later₃ _
      have whole := later.trans later₃
      have wider := whole.minds.wider
      obtain ⟨sound₄, minds₄⟩ := endWait_sound whole.sound evaluator.actor
      refine ⟨account₃, ⟨sound₄, minds₄, rfl⟩, fun account₅ state₅ later₅ => Standing.later ?_ later₅⟩
      have working₃ := working.later whole.minds
      rw [← whole.stack] at working₃
      refine .onward (wider _ _ read) (fun link member => (comes link (List.mem_reverse.mp member)).wider wider)
        (working₃.of_entries rfl) ?_
      exact (Heap.lookup_endWait _ _ _).trans (if_pos rfl)

end Parallel

end LazyGraph

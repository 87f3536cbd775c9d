import LazyGraph.Proofs.Machine.Correspondence

/-! What a failed call leaves behind.

Unwinding gives back the thunks of the update frames and nothing else. A claim is made
before the frame that answers for it is pushed, so a thunk whose frames do not fit on
the work stack is stranded: no frame names it, and it stays claimed. That is the only
way in which a failed call leaves a trace. -/

set_option autoImplicit false

namespace LazyGraph

/-! ### Host functions that keep what is there -/

-- To sparing an actor this adds: unclaimed thunks are left alone or evaluated, what is
-- evaluated stays so, and values are never overwritten.
structure Slot.Keeps (actor : Actor) (before after : Slot) : Prop extends Slot.Spares actor before after where
  pending : ∀ expr env, before = ⟨.unevaluated, .thunk expr env⟩ → after = before ∨ after.state = .evaluated
  done : before.state = .evaluated → after.state = .evaluated
  whnf : before.node.tag.isWhnf → after = before

namespace SlotLaw

def keeping (actor : Actor) : SlotLaw where
  allowed := Slot.Keeps actor
  born := (sparing actor).born
  refl slot := ⟨(sparing actor).refl slot, fun _ _ _ => .inl rfl, id, fun _ => rfl⟩
  trans {first second third} early late := by
    refine ⟨(sparing actor).trans early.toSpares late.toSpares, ?_, fun done => late.done (early.done done), ?_⟩
    · intro expr env isThunk
      rcases early.pending expr env isThunk with same | done
      · rcases late.pending expr env (same.trans isThunk) with same' | done
        · exact .inl (same'.trans same)
        · exact .inr done
      · exact .inr (late.done done)
    · intro isWhnf
      have same := early.whnf isWhnf
      exact (late.whnf (same ▸ isWhnf)).trans same
  retarget state old new :=
    ⟨(sparing actor).retarget state old new, fun expr env isThunk => by simp at isThunk, id,
      fun isWhnf => by simp [Node.tag, Tag.isWhnf] at isWhnf⟩
  born_ofNode := (sparing actor).born_ofNode
  born_allowed isBorn change := (sparing actor).born_allowed isBorn change.toSpares

theorem keeping_spares (actor : Actor) : (keeping actor).SparesActor actor :=
  ⟨Slot.Keeps.toSpares, id⟩

end SlotLaw

namespace Machine

variable {σ : Type} {actor : Actor} {frames : List Frame} {heap : Heap} {lost : Handle → Prop}

/-! ### Giving claims back -/

theorem release_held {node : Handle} {content : Node}
    (held : heap.lookup node = .ok ⟨.inProgress actor, content⟩) :
    ∃ heap', Heap.release node actor heap = .ok true heap' ∧
      heap.Rewrites heap' node ⟨.inProgress actor, content⟩ ⟨.unevaluated, content⟩ := by
  have released : Heap.transition node (Slot.release actor) heap =
      .ok true (heap.put node.index.toNat ⟨.unevaluated, content⟩) := by
    simp [Heap.transition, held, Slot.release]
  exact ⟨_, bind_ok released, Heap.put_rewrites held rfl rfl⟩

/-- Unwinding rewrites the slots of the update frames, and no other. -/
theorem releaseAll_lookup (released : Nat) (once : (markersOf frames).Nodup)
    (held : ∀ node, .update node ∈ frames → ∃ content, heap.lookup node = .ok ⟨.inProgress actor, content⟩) :
    (∀ node content, .update node ∈ frames → heap.lookup node = .ok ⟨.inProgress actor, content⟩ →
      (releaseAll actor frames released heap).2.lookup node = .ok ⟨.unevaluated, content⟩) ∧
    (∀ node, .update node ∉ frames → (releaseAll actor frames released heap).2.lookup node = heap.lookup node) := by
  induction frames generalizing released heap with
  | nil => exact ⟨fun _ _ member => (nomatch member), fun _ _ => rfl⟩
  | cons frame frames ih =>
    cases frame with
    | update top =>
      obtain ⟨content, heldTop⟩ := held top (.head _)
      obtain ⟨heap', released', rewrites⟩ := release_held heldTop
      rw [markersOf_update, List.nodup_cons] at once
      have others : ∀ node, Frame.update node ∈ frames → node ≠ top := by
        rintro node member rfl
        exact once.1 (mem_markersOf.mpr member)
      have heldRest : ∀ node, .update node ∈ frames →
          ∃ content, heap'.lookup node = .ok ⟨.inProgress actor, content⟩ := by
        intro node member
        rw [rewrites.lookup, if_neg (others node member)]
        exact held node (.tail _ member)
      obtain ⟨inside, outside⟩ := ih (released + 1) once.2 heldRest
      simp only [releaseAll, released']
      constructor
      · intro node content' member found
        rcases List.mem_cons.mp member with same | member
        · cases same
          obtain rfl : content' = content := by
            have same := found.symm.trans heldTop
            simpa using same
          rw [outside top fun again => once.1 (mem_markersOf.mpr again), rewrites.lookup, if_pos rfl]
        · apply inside node content' member
          rw [rewrites.lookup, if_neg (others node member), found]
      · intro node absent
        have apart : node ≠ top := by
          rintro rfl
          exact absent (.head _)
        rw [outside node fun member => absent (.tail _ member), rewrites.lookup, if_neg apart]
    | _ =>
      obtain ⟨inside, outside⟩ := ih released once fun node member => held node (.tail _ member)
      constructor
      · intro node content member
        exact inside node content (List.mem_of_ne_of_mem (by simp) member)
      · exact fun node absent => outside node fun member => absent (.tail _ member)

theorem capacity_release (node : Handle) (actor : Actor) (heap : Heap) :
    (Heap.release node actor heap).state.capacity = heap.capacity := by
  cases found : heap.lookup node with
  | error fault =>
    have refused : Heap.transition node (Slot.release actor) heap = .error fault heap := by
      simp [Heap.transition, found]
    rw [Heap.release, bind_error refused]
    rfl
  | ok slot =>
    by_cases held : slot.state = .inProgress actor
    · have written : Heap.transition node (Slot.release actor) heap =
          .ok true (heap.put node.index.toNat { slot with state := .unevaluated }) := by
        simp [Heap.transition, found, Slot.release, held]
      rw [Heap.release, bind_ok written]
      exact Heap.capacity_put heap _ _
    · have refused : Heap.transition node (Slot.release actor) heap = .ok false heap := by
        simp [Heap.transition, found, Slot.release, held]
      rw [Heap.release, bind_ok refused]
      rfl

theorem capacity_releaseAll (actor : Actor) (frames : List Frame) (released : Nat) (heap : Heap) :
    (releaseAll actor frames released heap).2.capacity = heap.capacity := by
  fun_induction releaseAll actor frames released heap with
  | case1 released heap => rfl
  | case2 node frames released heap heap' ended ih =>
    have same := capacity_release node actor heap
    rw [ended] at same
    exact ih.trans same
  | case3 node frames released heap heap' ended ih =>
    have same := capacity_release node actor heap
    rw [ended] at same
    exact ih.trans same
  | case4 node frames released heap fault heap' ended ih =>
    have same := capacity_release node actor heap
    rw [ended] at same
    exact ih.trans same
  | case5 frame frames released heap other ih => exact ih

-- What unwinding finds: the claims are those of the update frames and the `lost` ones.
structure Claimed (lost : Handle → Prop) (actor : Actor) (frames : List Frame) (heap : Heap) : Prop where
  marked : ∀ node, heap.HeldBy actor node → .update node ∈ frames ∨ lost node
  thunk : ∀ node, .update node ∈ frames → ∃ expr env, heap.lookup node = .ok ⟨.inProgress actor, .thunk expr env⟩
  once : (markersOf frames).Nodup
  apart : ∀ node, lost node → heap.HeldBy actor node ∧ .update node ∉ frames

theorem Tied.claimed {claim : Handle → List Handle → Prop} (tied : Tied claim actor frames heap) :
    Claimed (fun _ => False) actor frames heap where
  marked := fun node held => .inl (tied.marked node held)
  thunk := tied.thunk
  once := tied.once
  apart := fun _ => False.elim

theorem Claimed.unmarked {above : List Frame} (claimed : Claimed lost actor frames heap)
    (unmarked : ∀ node, .update node ∉ above) : Claimed lost actor (above ++ frames) heap where
  marked := fun node held => (claimed.marked node held).imp_left (List.mem_append_right _)
  thunk := by
    intro node member
    rcases List.mem_append.mp member with member | member
    · exact absurd member (unmarked node)
    · exact claimed.thunk node member
  once := by
    rw [markersOf_append, markersOf_unmarked unmarked]
    exact claimed.once
  apart := by
    intro node isLost
    obtain ⟨held, absent⟩ := claimed.apart node isLost
    refine ⟨held, fun member => ?_⟩
    rcases List.mem_append.mp member with member | member
    · exact unmarked node member
    · exact absent member

theorem Claimed.drift {law : SlotLaw} {after : Heap} (claimed : Claimed (fun _ => False) actor frames heap)
    (spares : law.SparesActor actor) (kept : Heap.Kept law heap after) :
    Claimed (fun _ => False) actor frames after where
  marked := fun node held => claimed.marked node (kept.heldBy spares held)
  thunk := by
    intro node member
    obtain ⟨expr, env, found⟩ := claimed.thunk node member
    exact ⟨expr, env, kept.thunk spares found⟩
  once := claimed.once
  apart := fun _ => False.elim

theorem Claimed.held (claimed : Claimed lost actor frames heap) (node : Handle)
    (member : .update node ∈ frames) : ∃ content, heap.lookup node = .ok ⟨.inProgress actor, content⟩ := by
  obtain ⟨expr, env, found⟩ := claimed.thunk node member
  exact ⟨_, found⟩

theorem Claimed.releaseAll_held {node : Handle} {content : Node} (claimed : Claimed lost actor frames heap)
    (released : Nat) (held : heap.lookup node = .ok ⟨.inProgress actor, content⟩) (kept : ¬ lost node) :
    (releaseAll actor frames released heap).2.lookup node = .ok ⟨.unevaluated, content⟩ := by
  have marked := claimed.marked node (Heap.heldBy_iff.mpr ⟨content, held⟩)
  exact (releaseAll_lookup released claimed.once claimed.held).1 node content (marked.resolve_right kept) held

theorem Claimed.releaseAll_other {node : Handle} {slot : Slot} (claimed : Claimed lost actor frames heap)
    (released : Nat) (found : heap.lookup node = .ok slot) (unheld : slot.state ≠ .inProgress actor) :
    (releaseAll actor frames released heap).2.lookup node = .ok slot := by
  have absent : Frame.update node ∉ frames := by
    intro member
    obtain ⟨content, held⟩ := claimed.held node member
    cases found.symm.trans held
    exact unheld rfl
  rw [(releaseAll_lookup released claimed.once claimed.held).2 node absent, found]

theorem Claimed.releaseAll_heldBy (claimed : Claimed lost actor frames heap) (released : Nat) (node : Handle) :
    (releaseAll actor frames released heap).2.HeldBy actor node ↔ lost node := by
  obtain ⟨inside, outside⟩ := releaseAll_lookup released claimed.once claimed.held
  constructor
  · intro held
    by_cases member : Frame.update node ∈ frames
    · obtain ⟨content, found⟩ := claimed.held node member
      obtain ⟨content', found'⟩ := Heap.heldBy_iff.mp held
      rw [inside node content member found] at found'
      cases found'
    · rw [Heap.HeldBy, Heap.state, outside node member] at held
      exact (claimed.marked node held).resolve_left member
  · intro isLost
    obtain ⟨held, absent⟩ := claimed.apart node isLost
    rw [Heap.HeldBy, Heap.state, outside node absent]
    exact held

/-! ### Slots since the call began -/

-- How a slot relates to what it was when the call began.
structure Follows (actor : Actor) (before now : Slot) : Prop where
  pending : ∀ expr env, before = ⟨.unevaluated, .thunk expr env⟩ →
    now = before ∨ now = ⟨.inProgress actor, .thunk expr env⟩ ∨ now.state = .evaluated
  whnf : before.node.tag.isWhnf → now = before

def Evolved (actor : Actor) (initial heap : Heap) : Prop :=
  ∀ node slot, initial.lookup node = .ok slot →
    ∃ slot', heap.lookup node = .ok slot' ∧ Follows actor slot slot'

namespace Evolved

variable {initial after : Heap}

theorem refl (initial : Heap) : Evolved actor initial initial :=
  fun _ slot found => ⟨slot, found, fun _ _ _ => .inl rfl, fun _ => rfl⟩

theorem drift (evolved : Evolved actor initial heap) (kept : Heap.Kept (.keeping actor) heap after) :
    Evolved actor initial after := by
  intro node slot found
  obtain ⟨now, foundNow, follows⟩ := evolved node slot found
  obtain ⟨later, foundLater, keeps⟩ := kept.live foundNow
  refine ⟨later, foundLater, ?_, ?_⟩
  · intro expr env isThunk
    rcases follows.pending expr env isThunk with same | same | done
    · rcases keeps.pending expr env (same.trans isThunk) with same' | done
      · exact .inl (same'.trans same)
      · exact .inr (.inr done)
    · exact .inr (.inl ((keeps.thunk expr env same).trans same))
    · exact .inr (.inr (keeps.done done))
  · intro isWhnf
    have same := follows.whnf isWhnf
    exact (keeps.whnf (same ▸ isWhnf)).trans same

theorem rewrites {node : Handle} {old new : Slot} (evolved : Evolved actor initial heap)
    (rewrites : heap.Rewrites after node old new) (follows : ∀ slot, Follows actor slot old → Follows actor slot new) :
    Evolved actor initial after := by
  intro other slot found
  obtain ⟨now, foundNow, followsNow⟩ := evolved other slot found
  rw [rewrites.lookup]
  by_cases same : other = node
  · subst same
    obtain rfl : old = now := Except.ok.inj (rewrites.found.symm.trans foundNow)
    exact ⟨new, if_pos rfl, follows slot followsNow⟩
  · exact ⟨now, (if_neg same).trans foundNow, followsNow⟩

theorem claims {node : Handle} {expr : Expr} {env : Env} (evolved : Evolved actor initial heap)
    (claims : Claims actor heap after node expr env) : Evolved actor initial after := by
  refine evolved.rewrites claims fun slot follows => ⟨?_, ?_⟩
  · intro expr' env' isThunk
    rcases follows.pending expr' env' isThunk with same | same | done
    · rw [isThunk] at same
      cases same
      exact .inr (.inl rfl)
    · cases same
    · cases done
  · intro isWhnf
    rw [← follows.whnf isWhnf] at isWhnf
    simp [Node.tag, Tag.isWhnf] at isWhnf

theorem completes {node : Handle} {expr : Expr} {env : Env} {payload : Node}
    (evolved : Evolved actor initial heap)
    (rewrites : heap.Rewrites after node ⟨.inProgress actor, .thunk expr env⟩ ⟨.evaluated, payload⟩) :
    Evolved actor initial after := by
  refine evolved.rewrites rewrites fun slot follows => ⟨fun _ _ _ => .inr (.inr rfl), fun isWhnf => ?_⟩
  rw [← follows.whnf isWhnf] at isWhnf
  simp [Node.tag, Tag.isWhnf] at isWhnf

end Evolved

/-! ### Stranded thunks -/

variable {host : Host σ} {evaluator : Evaluator} {control next : Control} {state reached after : State σ}

/-- The transition discovers the thunk, and the work stack has no room for the thunk's
update frame and the frame for the chain to it. -/
def Strands (evaluator : Evaluator) (control : Control) (state : State σ) (node : Handle) : Prop :=
  ∃ passed start links expr env, Walks evaluator state control passed start ∧
    Discovers state.world.heap passed start links node expr env ∧
    evaluator.settings.maxWorkStack.toNat ≤ state.stack.depth + (redirection links).length

theorem Walks.unique {passed passed' : List Handle} {start start' : Handle}
    (walks : Walks evaluator state control passed start) (walks' : Walks evaluator state control passed' start') :
    passed = passed' ∧ start = start' := by
  cases walks with
  | force _ =>
    cases walks'
    exact ⟨rfl, rfl⟩
  | await _ _ _ =>
    cases walks'
    exact ⟨rfl, rfl⟩

theorem Strands.unique {node node' : Handle} (strands : Strands evaluator control state node)
    (strands' : Strands evaluator control state node') : node = node' := by
  obtain ⟨_, _, _, _, _, walks, found, _⟩ := strands
  obtain ⟨_, _, _, _, _, walks', found', _⟩ := strands'
  obtain ⟨rfl, rfl⟩ := walks.unique walks'
  have same := found.symm.trans found'
  simp only [Chain.mk.injEq, Landing.at.injEq] at same
  exact same.2.1

/-- A stranded thunk ends the call: it is claimed, and the frames pushed do not name it. -/
theorem Strands.ends (host : Host σ) {node : Handle} (strands : Strands evaluator control state node) :
    ∃ fault after expr env pushed, iterate host evaluator control state = .error fault after ∧
      Claims evaluator.actor state.world.heap after.world.heap node expr env ∧
      after.stack.items = pushed ++ state.stack.items ∧ ∀ other, .update other ∉ pushed := by
  obtain ⟨passed, start, links, expr, env, walks, found, full⟩ := strands
  obtain ⟨ready, stack, entries, free, going⟩ := iterate_walks host walks
  have found' : Discovers ready.world.heap passed start links node expr env :=
    (Heap.followOn_congr entries passed start).trans found
  obtain ⟨heap, claims, _, entered⟩ := demandFrom_discovers evaluator found'
  rcases enter_cases evaluator links node expr env { ready with world := { ready.world with heap := heap } } with
    ⟨room, _⟩ | ⟨_, after, pushed, ended, items, unmarked, world⟩
  · rw [← stack] at full
    exact absurd room (Nat.not_lt.mpr full)
  · refine ⟨_, after, expr, env, pushed, going.trans (continuing_error (entered.trans ended)), ?_, ?_, ?_⟩
    · rw [world]
      exact claims.from_ready entries free
    · rw [items, stack]
    · exact fun other member => update_notMem_redirection other links (unmarked _ member)

theorem Standing.claimed {history : History σ} {now : Nat}
    (stands : Standing history evaluator now control reached) :
    Claimed (fun _ => False) evaluator.actor reached.stack.items reached.world.heap := by
  cases stands with
  | tied tied => exact tied.claimed
  | @collapsing links rest top _ tied =>
    have unmarked : ∀ node, Frame.update node ∉ [Frame.redirect links] := by simp
    exact top ▸ tied.claimed.unmarked unmarked

theorem Standing.free {history : History σ} {now : Nat}
    (stands : Standing history evaluator now control reached) : reached.world.heap.FreeListSound := by
  cases stands with
  | tied tied => exact tied.free
  | collapsing _ _ tied => exact tied.free

variable {history : History σ} {now : Nat} {fault : Fault} {initial : Heap}

/-- Without a stranded thunk, the claims at a fault are those of the frames. -/
theorem faulted_claimed (stands : Standing history evaluator now control reached)
    (evolved : Evolved evaluator.actor initial reached.world.heap)
    (moved : Transition (SlotLaw.keeping evaluator.actor).motion evaluator reached control (.error fault after))
    (fits : after.world.heap.Addressable) (unstranded : ∀ node, ¬ Strands evaluator control reached node) :
    Claimed (fun _ => False) evaluator.actor after.stack.items after.world.heap ∧
      Evolved evaluator.actor initial after.world.heap := by
  have spares := SlotLaw.keeping_spares evaluator.actor
  cases moved with
  | cut stack heap =>
    rw [stack, heap]
    exact ⟨stands.claimed, evolved⟩
  | worked _ _ works =>
    obtain ⟨pushed, plain, items⟩ := works.stack
    have kept := Heap.Drift.kept works.heap fits stands.free
    exact ⟨items ▸ (stands.claimed.drift spares kept).unmarked (plain_unmarked plain), evolved.drift kept⟩
  | stranded walks found full _ _ _ => exact absurd ⟨_, _, _, _, _, walks, found, full⟩ (unstranded _)
  | finished _ _ stack heap =>
    have kept := Heap.Drift.kept heap fits stands.free
    exact ⟨stack ▸ stands.claimed.drift spares kept, evolved.drift kept⟩
  | resumed popped unclaimed _ works =>
    obtain ⟨pushed, plain, items⟩ := works.stack
    have under := (stands.popped popped unclaimed).claimed
    have kept := Heap.Drift.kept works.heap fits stands.free
    exact ⟨items ▸ (under.drift spares kept).unmarked (plain_unmarked plain), evolved.drift kept⟩
  | disowned popped unheld _ =>
    obtain ⟨expr, env, found⟩ := (stands.update_top popped).thunk _ (.head _)
    exact absurd found (unheld _)

theorem Strands.claimed {node : Handle} (strands : Strands evaluator control reached node)
    (stands : Standing history evaluator now control reached)
    (evolved : Evolved evaluator.actor initial reached.world.heap)
    (ended : iterate host evaluator control reached = .error fault after) :
    Claimed (Strands evaluator control reached) evaluator.actor after.stack.items after.world.heap ∧
      Evolved evaluator.actor initial after.world.heap := by
  obtain ⟨fault', after', expr, env, pushed, ended', claims, items, unmarked⟩ := strands.ends host
  obtain ⟨rfl, rfl⟩ : fault' = fault ∧ after' = after := by
    rw [ended] at ended'
    cases ended'
    exact ⟨rfl, rfl⟩
  refine ⟨?_, evolved.claims claims⟩
  have below := stands.claimed
  have absent : Frame.update node ∉ reached.stack.items := by
    intro member
    obtain ⟨_, _, found⟩ := below.thunk node member
    rw [claims.found] at found
    cases found
  rw [items]
  refine Claimed.unmarked ⟨?_, ?_, below.once, ?_⟩ unmarked
  · intro other held
    by_cases same : other = node
    · exact .inr (same ▸ strands)
    · exact .inl ((below.marked other ((claims.heldBy same).mp held)).resolve_right id)
  · intro other member
    have apart : other ≠ node := by
      rintro rfl
      exact absent member
    rw [claims.lookup, if_neg apart]
    exact below.thunk other member
  · intro other isLost
    obtain rfl := isLost.unique strands
    refine ⟨Heap.heldBy_iff.mpr ⟨.thunk expr env, ?_⟩, absent⟩
    rw [claims.lookup, if_pos rfl]

/-! ### Failed calls -/

theorem Evolved.step {reached' : State σ} (evolved : Evolved evaluator.actor initial reached.world.heap)
    (stands : Standing history evaluator now control reached)
    (moved : Transition (SlotLaw.keeping evaluator.actor).motion evaluator reached control (.ok (.continues next) reached'))
    (fits : reached'.world.heap.Addressable) : Evolved evaluator.actor initial reached'.world.heap := by
  cases moved with
  | worked _ _ works => exact evolved.drift (Heap.Drift.kept works.heap fits stands.free)
  | claimed _ _ claims _ => exact evolved.claims claims
  | finished _ final _ _ => exact absurd rfl (final next reached')
  | resumed _ _ _ works => exact evolved.drift (Heap.Drift.kept works.heap fits stands.free)
  | completed popped _ rewrites =>
    obtain ⟨expr, env, found⟩ := (stands.update_top popped).thunk _ (.head _)
    have same := rewrites.found.symm.trans found
    simp only [Except.ok.injEq, Slot.mk.injEq, true_and] at same
    subst same
    exact evolved.completes rewrites

theorem iterations_evolved (lawful : host.Follows (SlotLaw.keeping evaluator.actor).motion)
    (idle : state.stack.items = []) (sound : state.world.heap.FreeListSound)
    (unclaimed : ∀ node, ¬ state.world.heap.HeldBy evaluator.actor node) {count : Nat}
    (standing : iterations host evaluator control state count = some (next, reached))
    (fits : reached.world.heap.Addressable) :
    Evolved evaluator.actor state.world.heap reached.world.heap := by
  induction count generalizing next reached with
  | zero =>
    cases standing
    exact .refl _
  | succ count ih =>
    obtain ⟨control', before, earlier, stepped⟩ := iterations_succ standing
    have moved := stepped ▸ iterate_transition lawful evaluator control' before
    have fits' := fits.mono moved.grows
    have stands := iterations_standing lawful (SlotLaw.keeping_spares _) idle sound unclaimed earlier fits'
    exact (ih earlier fits').step stands moved fits

/-- Everything is as if the call had not been made, up to thunks evaluated on the way. -/
structure Restored (evaluator : Evaluator) (before after : State σ) : Prop where
  unclaimed : ∀ node, ¬ after.world.heap.HeldBy evaluator.actor node
  idle : after.stack.items = []
  unwaiting : ∀ node, (evaluator.actor, node) ∉ after.world.heap.waits
  pending : ∀ node expr env, before.world.heap.lookup node = .ok ⟨.unevaluated, .thunk expr env⟩ →
    after.world.heap.state node = .ok .evaluated ∨
      after.world.heap.lookup node = .ok ⟨.unevaluated, .thunk expr env⟩
  whnf : ∀ node slot, before.world.heap.lookup node = .ok slot → slot.node.tag.isWhnf →
    after.world.heap.lookup node = .ok slot

theorem unwind_heldBy (claimed : Claimed lost evaluator.actor reached.stack.items reached.world.heap)
    (node : Handle) :
    (unwind evaluator fault reached).world.heap.HeldBy evaluator.actor node ↔ lost node :=
  claimed.releaseAll_heldBy 0 node

theorem unwind_restored (claimed : Claimed lost evaluator.actor reached.stack.items reached.world.heap)
    (evolved : Evolved evaluator.actor state.world.heap reached.world.heap)
    (unclaimed : ∀ node, ¬ state.world.heap.HeldBy evaluator.actor node) (kept : ∀ node, ¬ lost node) :
    Restored evaluator state (unwind evaluator fault reached) := by
  refine ⟨fun node held => kept node ((unwind_heldBy claimed node).mp held), rfl, ?_, ?_, ?_⟩
  · intro node waiting
    simpa using (List.mem_filter.mp waiting).2
  · intro node expr env isThunk
    obtain ⟨slot, now, follows⟩ := evolved node _ isThunk
    rcases follows.pending expr env rfl with rfl | rfl | done
    · exact .inr (claimed.releaseAll_other 0 now (by simp))
    · exact .inr (claimed.releaseAll_held 0 now (kept node))
    · left
      have same := claimed.releaseAll_other 0 now (by simp [done])
      have sameState : (unwind evaluator fault reached).world.heap.state node = .ok slot.state :=
        congrArg (Except.map Slot.state) same
      rw [sameState, done]
  · intro node slot found isWhnf
    obtain ⟨slot', now, follows⟩ := evolved node slot found
    obtain rfl := follows.whnf isWhnf
    refine claimed.releaseAll_other 0 now fun held => ?_
    exact unclaimed node (Heap.heldBy_iff.mpr ⟨slot'.node, by rw [found, ← held]⟩)

/-- At the fault, the claims are those of the frames and of the thunk that was stranded. -/
theorem iterations_faulted (lawful : host.Follows (SlotLaw.keeping evaluator.actor).motion)
    (idle : state.stack.items = []) (sound : state.world.heap.FreeListSound)
    (unclaimed : ∀ node, ¬ state.world.heap.HeldBy evaluator.actor node) {count : Nat}
    (standing : iterations host evaluator control state count = some (next, reached))
    (raised : iterate host evaluator next reached = .error fault after)
    (fits : after.world.heap.Addressable) :
    Claimed (Strands evaluator next reached) evaluator.actor after.stack.items after.world.heap ∧
      Evolved evaluator.actor state.world.heap after.world.heap := by
  have moved := raised ▸ iterate_transition lawful evaluator next reached
  have fits' := fits.mono moved.grows
  have spares := SlotLaw.keeping_spares evaluator.actor
  have stands := iterations_standing lawful spares idle sound unclaimed standing fits'
  have evolved := iterations_evolved lawful idle sound unclaimed standing fits'
  by_cases stranded : ∃ node, Strands evaluator next reached node
  · obtain ⟨node, strands⟩ := stranded
    exact strands.claimed stands evolved raised
  · have unstranded : ∀ node, ¬ Strands evaluator next reached node := fun node strands => stranded ⟨node, strands⟩
    have nothing : Strands evaluator next reached = fun _ => False := by
      funext node
      exact eq_false (unstranded node)
    rw [nothing]
    exact faulted_claimed stands evolved moved fits unstranded

/-- A failed call restores the heap unless it strands a thunk; what it leaves claimed is
exactly the thunk it has stranded. -/
theorem force_error_restores_iff (lawful : host.Follows (SlotLaw.keeping evaluator.actor).motion)
    (idle : state.stack.items = []) (sound : state.world.heap.FreeListSound)
    (unclaimed : ∀ node, ¬ state.world.heap.HeldBy evaluator.actor node) {fuel : Nat} {root : Handle}
    (failed : force host evaluator fuel root state = some (.error fault, after))
    (fits : after.world.heap.Addressable) :
    (Restored evaluator state after ↔ ∀ count control reached node,
      iterations host evaluator (.force root) (begin evaluator state) count = some (control, reached) →
      ¬ Strands evaluator control reached node) ∧
    (∀ node, after.world.heap.HeldBy evaluator.actor node ↔ ∃ count control reached,
      iterations host evaluator (.force root) (begin evaluator state) count = some (control, reached) ∧
      Strands evaluator control reached node) := by
  obtain ⟨raised, ran, rfl⟩ := force_eq_error.mp failed
  obtain ⟨count, control, reached, standing, ends⟩ := iterations_of_run ran
  have fits' : raised.world.heap.Addressable := by
    have same := capacity_releaseAll evaluator.actor raised.stack.items 0 raised.world.heap
    exact fits.mono (Nat.le_of_eq same.symm)
  have idle' : (begin evaluator state).stack.items = [] := idle
  have ⟨claimed, evolved⟩ := iterations_faulted lawful idle' sound unclaimed standing
    (Progress.outcome?_eq_error ends) fits'
  -- a thunk is stranded by the last transition or not at all
  have last : ∀ {node}, (∃ count' control' reached',
      iterations host evaluator (.force root) (begin evaluator state) count' = some (control', reached') ∧
      Strands evaluator control' reached' node) ↔ Strands evaluator control reached node := by
    intro node
    constructor
    · rintro ⟨count', control', reached', standing', strands⟩
      obtain ⟨fault', after', _, _, _, raised', _⟩ := strands.ends host
      obtain ⟨rfl, rfl⟩ := iterations_end standing ends standing' (congrArg Progress.outcome? raised')
      exact strands
    · exact fun strands => ⟨count, control, reached, standing, strands⟩
  have held : ∀ node, (unwind evaluator fault raised).world.heap.HeldBy evaluator.actor node ↔ _ :=
    fun node => (unwind_heldBy claimed node).trans last.symm
  refine ⟨⟨?_, ?_⟩, held⟩
  · intro restored count' control' reached' node standing' strands
    exact restored.unclaimed node ((held node).mpr ⟨count', control', reached', standing', strands⟩)
  · intro unstranded
    exact unwind_restored claimed evolved unclaimed fun node => unstranded count control reached node standing

/-! ### A thunk without room for its frame -/

-- A thunk, and an evaluator whose work stack holds no frame at all.
def crowdedCall : Evaluator × State Unit :=
  start ⟨(Heap.alloc (.thunk ⟨0, .int 5⟩ []) (.ofSettings {})).state, 0, [], #[], ()⟩ { maxWorkStack := 0 } none

theorem crowdedCall_sound : crowdedCall.2.world.heap.FreeListSound :=
  ⟨nofun, .nil⟩

theorem crowdedCall_unclaimed (node : Handle) : ¬ crowdedCall.2.world.heap.HeldBy crowdedCall.1.actor node :=
  Heap.unheld_of_entries (by decide +kernel) node

theorem crowdedCall_fails :
    ∃ after, force failingHost crowdedCall.1 1 ⟨0, 0⟩ crowdedCall.2 =
        some (.error (.exhausted (.workStack 0)), after) ∧
      after.world.heap.capacity = 1 ∧ after.world.heap.HeldBy crowdedCall.1.actor ⟨0, 0⟩ := by
  have computed : (force failingHost crowdedCall.1 1 ⟨0, 0⟩ crowdedCall.2).map (fun (result, after) =>
      (result, after.world.heap.capacity, after.world.heap.state ⟨0, 0⟩)) =
      some (.error (.exhausted (.workStack 0)), 1, .ok (.inProgress crowdedCall.1.actor)) := by
    with_unfolding_all rfl
  obtain ⟨⟨result, after⟩, failed, facts⟩ := Option.map_eq_some_iff.mp computed
  obtain ⟨same, capacity, held⟩ : result = _ ∧ _ ∧ _ := by simpa only [Prod.mk.injEq] using facts
  exact ⟨after, same ▸ failed, capacity, held⟩

theorem force_error_restores_iff_crowded :
    ∃ after, force failingHost crowdedCall.1 1 ⟨0, 0⟩ crowdedCall.2 =
        some (.error (.exhausted (.workStack 0)), after) ∧
      ∀ node, after.world.heap.HeldBy crowdedCall.1.actor node ↔ ∃ count control reached,
        iterations failingHost crowdedCall.1 (.force ⟨0, 0⟩) (begin crowdedCall.1 crowdedCall.2) count =
          some (control, reached) ∧ Strands crowdedCall.1 control reached node := by
  obtain ⟨after, failed, capacity, _⟩ := crowdedCall_fails
  have fits : after.world.heap.Addressable := by
    rw [Heap.Addressable, capacity]
    decide
  refine ⟨after, failed, ?_⟩
  exact (force_error_restores_iff (failingHost_follows _) rfl crowdedCall_sound crowdedCall_unclaimed failed
    fits).2

theorem force_error_strands :
    (∀ node, ¬ crowdedCall.2.world.heap.HeldBy crowdedCall.1.actor node) ∧
    ∃ after, force failingHost crowdedCall.1 1 ⟨0, 0⟩ crowdedCall.2 =
        some (.error (.exhausted (.workStack 0)), after) ∧ ¬ Restored crowdedCall.1 crowdedCall.2 after := by
  obtain ⟨after, failed, _, held⟩ := crowdedCall_fails
  exact ⟨crowdedCall_unclaimed, after, failed, fun restored => restored.unclaimed _ held⟩

end Machine

end LazyGraph

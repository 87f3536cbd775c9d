import LazyGraph.Proofs.Machine.Footprint
import LazyGraph.Proofs.Retry.Repetition

/-! Thunks that a call enters and finishes.

The evaluation of a thunk does not look at the frames below its marker. It goes as if it had
begun on its own, so it changes what lies inside and adds to it, and nothing else. -/

set_option autoImplicit false

namespace LazyGraph

/-! ### A part of the heap that refers to itself only -/

structure Heap.Walled (heap : Heap) (known inside : Handle → Prop) : Prop where
  free : heap.FreeListSound
  unbounded : heap.maxNodes = none
  named : ∀ handle, known handle → inside handle
  issued : ∀ {handle}, inside handle → ¬ heap.Offers handle
  closed : ∀ {handle slot}, inside handle → heap.lookup handle = .ok slot →
    slot.node.Alike known (.within inside) slot.node

theorem SlotState.Alike.refl (state : SlotState) : state.Alike Eq state := by
  cases state with
  | unevaluated => exact .unevaluated
  | inProgress owner => exact .inProgress rfl
  | evaluated => exact .evaluated

namespace Heap

variable {base heap after left right : Heap} {known inside held : Handle → Prop} {names pairs : Pairing} {actor actor' : Actor}
  {handle : Handle} {old new : Slot}

theorem Retraces.walled (retraces : base.Retraces names actor actor' known inside held pairs left right) :
    left.Walled known inside :=
  ⟨retraces.free.1, retraces.unbounded.1, fun handle isKnown => (retraces.named handle isKnown).2, retraces.issued, retraces.closed⟩

namespace Walled

theorem rewrites (walled : heap.Walled known inside) (rewrites : heap.Rewrites after handle old new)
    (bounded : after.maxNodes = heap.maxNodes) (stays : new.node.Alike known (.within inside) new.node) :
    after.Walled known inside where
  free := walled.free.rewrites rewrites
  unbounded := bounded.trans walled.unbounded
  named := walled.named
  issued := fun isInside offers => walled.issued isInside (rewrites.offers offers)
  closed := by
    intro other slot isInside found
    rw [rewrites.lookup] at found
    split at found
    · cases found
      exact stays
    · exact walled.closed isInside found

theorem twins (walled : heap.Walled known inside) (unawaited : heap.waits = []) :
    heap.Twins Eq known (.within inside) heap where
  free := ⟨walled.free, walled.free⟩
  unbounded := ⟨walled.unbounded, walled.unbounded⟩
  exactly := Pairing.within_exactly inside
  named := fun handle isKnown => ⟨walled.named handle isKnown, rfl⟩
  slots := by
    rintro handle _ ⟨isInside, rfl⟩
    cases found : heap.lookup handle with
    | error fault => exact rfl
    | ok slot => exact ⟨.refl slot.state, walled.closed isInside found⟩
  granted := by
    rintro handle _ ⟨isInside, rfl⟩
    exact ⟨walled.issued isInside, walled.issued isInside⟩
  waits := by
    rw [unawaited]
    exact .nil

end Walled

end Heap

namespace Machine

variable {σ : Type} {start base : Heap} {known inside held : Handle → Prop} {names pairs ties : Pairing}
  {host : Host σ} {evaluator evaluator' : Evaluator} {control control' last : Control}
  {state reached left right entered after final : State σ} {count : Nat} {expr : Expr} {env : Env} {whnf : Whnf} {node : Handle}

theorem Housed.of_fits (keeps : host.KeepsTo Heap.Advances)
    (standing : iterations host evaluator control state count = some (last, reached)) (fits : reached.world.heap.Addressable) :
    Housed host evaluator control state count := by
  induction count generalizing last reached with
  | zero =>
    intro early last' reached' short standing'
    obtain rfl := Nat.le_zero.mp short
    cases standing.symm.trans standing'
    exact fits
  | succ count ih =>
    intro early last' reached' short standing'
    obtain ⟨middle, between, earlier, stepped⟩ := iterations_succ standing
    have grows := iterate_grows keeps evaluator middle between
    rw [stepped] at grows
    rcases Nat.lt_or_eq_of_le short with sooner | rfl
    · exact ih earlier (fits.mono grows) early last' reached' (Nat.le_of_lt_succ sooner) standing'
    · cases standing.symm.trans standing'
      exact fits

theorem iterations_walled (walled : state.world.heap.Walled known inside) (unawaited : state.world.heap.waits = [])
    (alone : state.stack.items = []) (code : expr.Sealed known) (bound : ∀ handle ∈ env, inside handle)
    (standing : iterations mute evaluator (.eval expr env) state count = some (.deliver whnf, reached))
    (fits : reached.world.heap.Addressable) :
    ∃ inside' : Handle → Prop, (∀ handle, inside handle → inside' handle) ∧
      (∀ handle, inside' handle → inside handle ∨ ¬ state.world.heap.Live handle) ∧
      (∀ handle, state.world.heap.Live handle → ¬ inside handle →
        reached.world.heap.lookup handle = state.world.heap.lookup handle) ∧
      reached.world.heap.Walled known inside' ∧ whnf.Alike known (.within inside') whnf := by
  let region handle := inside handle ∨ ¬ state.world.heap.Live handle
  have contained : Contained known (.within inside) (.eval expr env) state := by
    refine ⟨⟨walled.twins unawaited, ?_, fun _ => rfl⟩, .eval code (List.forall₂_same.mpr fun handle member => ⟨bound handle member, rfl⟩),
      trivial⟩
    rw [alone]
    exact .nil
  have enclosed : Enclosed state.world.heap region state := by
    refine ⟨⟨walled.free, fun _ _ => rfl, fun _ => id, fun {handle slot} isInside found => ?_⟩, ?_⟩
    · exact (walled.closed (isInside.resolve_right fun dead => dead ⟨slot, found⟩) found).staysIn (fun _ both => .inl both.1)
        fun handle isKnown => .inl (walled.named handle isKnown)
    · rw [alone]
      exact List.forall_mem_nil _
  have stays : (Control.eval expr env).StaysIn region :=
    ⟨fun handle member => .inl (bound handle member),
      ⟨code.hostFree, fun handle names => .inl (walled.named handle (code.names handle names))⟩⟩
  obtain ⟨ties, wider, contained'⟩ := contained.iterations (.of_fits mute_keeps standing fits) standing
  obtain ⟨enclosed', stays'⟩ := iterations_enclosed (fun _ dead => .inr dead) (@mute_keeps σ growing.along _) enclosed stays standing fits
  have twins := contained'.abreast.heaps
  -- the node refers to what is in the region and paired with itself
  have narrow : ∀ {content : Node}, content.Alike known ties content → content.StaysIn region →
      content.Alike known (.within fun handle => ties handle handle ∧ region handle) content := by
    intro content alike stays
    refine alike.narrow fun reference reference' member both => ?_
    have same := alike.references reference member
    exact ⟨⟨same, stays.references reference member⟩, (twins.exactly same both).mp rfl⟩
  refine ⟨fun handle => ties handle handle ∧ region handle, fun handle isInside => ⟨wider _ _ ⟨isInside, rfl⟩, .inl isInside⟩,
    fun handle isInside => isInside.2, fun handle live outside => ?_, ?_, ?_⟩
  · exact enclosed'.heap.outside handle fun within => within.elim outside fun dead => dead live
  · refine ⟨enclosed'.heap.free, twins.unbounded.1, fun handle isKnown => ?_, fun isInside => (twins.granted isInside.1).1,
      fun {handle slot} isInside found => ?_⟩
    · exact ⟨twins.named handle isKnown, .inl (walled.named handle isKnown)⟩
    · obtain ⟨_, found', slots⟩ := twins.ok isInside.1 found
      cases found.symm.trans found'
      exact narrow slots.node (enclosed'.heap.nodes isInside.2 found)
  · have action := contained'.action
    cases action with
    | deliver values =>
      cases values with
      | fresh nodes => exact .fresh (narrow nodes stays'.node)
      | @stored place _ _ _ both nodes => exact .stored ⟨⟨both, stays'.place _ rfl⟩, rfl⟩ (narrow nodes stays'.node)

/-- A thunk that is finished at last is entered, evaluated as if on its own, and written. -/
theorem Trail.excursion {below : List Frame} (trail : Trail start evaluator last final count (.eval expr env) entered)
    (contained : Contained known ties (.eval expr env) entered) (stack : entered.stack.items = .update node :: below)
    (finished : ∀ slotState expr env, (leftover evaluator final).lookup node ≠ .ok ⟨slotState, .thunk expr env⟩) :
    ∃ early later whnf middle middle' between expr' env', count = early + (later + 1) ∧
      iterations mute evaluator (.eval expr env) entered early = some (.deliver whnf, middle) ∧
      iterations mute evaluator (.eval expr env) { entered with stack := .empty } early = some (.deliver whnf, middle') ∧
      middle'.world.heap = middle.world.heap ∧
      iterate mute evaluator (.deliver whnf) middle =
        .ok (.continues (.deliver (.stored (updatePayload node whnf).2 whnf.node))) between ∧
      middle.world.heap.Rewrites between.world.heap node ⟨.inProgress evaluator.actor, .thunk expr' env'⟩
        ⟨.evaluated, (updatePayload node whnf).1⟩ ∧
      between.stack.items = below ∧
      Trail start evaluator last final later (.deliver (.stored (updatePayload node whnf).2 whnf.node)) between := by
  have unmarked : .update node ∉ final.stack.items := by
    intro marked
    obtain ⟨_, _, thunk⟩ := trail.held.thunk marked
    exact finished _ _ _ (leftover_marked trail.held marked thunk)
  have above : Over entered.stack.items entered { entered with stack := .empty } := ⟨rfl, rfl, rfl⟩
  have floats := @iterations_floats _ _ _ _ _ _ mute _ _ _ _ _ _ contained (.of_fits mute_keeps trail.standing trail.fits) above
    trail.standing
  rcases floats with
    ⟨early, whnf, middle, middle', short, standing, standing', atop, alone⟩ | ⟨reached', _, atop⟩
  · obtain ⟨later, rfl⟩ := Nat.exists_eq_add_of_le short
    have rest := trail.later standing
    have items : middle.stack.items = .update node :: below := by rw [atop.stack, alone, List.nil_append, stack]
    cases later with
    | zero =>
      cases rest.standing
      exact absurd (items ▸ List.mem_cons_self) unmarked
    | succ later =>
      obtain ⟨next, between, stepped, deed, onward⟩ := rest.step
      generalize acts : Control.deliver whnf = action at stepped deed
      cases deed with
      | works quiet _ _ _ =>
        subst acts
        rw [items] at quiet
        cases quiet
      | completes top rewrites stack' =>
        cases acts
        cases top.symm.trans items
        exact ⟨early, later, whnf, middle, middle', between, _, _, rfl, standing, standing', atop.heap.symm, stepped, rewrites,
          stack', onward⟩
      | collapses top _ _ _ =>
        cases top.symm.trans items
      | claims | arrives | blocks => cases acts
  · refine absurd ?_ unmarked
    rw [atop.stack, stack]
    exact List.mem_append_right _ List.mem_cons_self

end Machine

end LazyGraph

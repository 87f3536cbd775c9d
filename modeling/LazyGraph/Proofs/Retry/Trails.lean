import LazyGraph.Proofs.Machine.StepEffects
import LazyGraph.Proofs.Renaming.Lockstep
import LazyGraph.Proofs.Retry.Steps

/-! What a call without host functions has done by the time it is stopped, and what is left of
it when it is unwound. -/

set_option autoImplicit false

namespace LazyGraph.Machine

variable {σ : Type} {evaluator : Evaluator} {control last : Control} {state final : State σ} {start : Heap} {count : Nat}

-- A host without functions.
def mute : Host σ :=
  ⟨fun fn _ => throw (.malformed (.hostArgumentCount fn.name fn.arity 0))⟩

theorem mute_untouched : (mute : Host σ).KeepsTo Eq :=
  fun _ _ _ => rfl

theorem mute_keeps {along : Heap → Heap → Prop} [Pathway along] : (mute : Host σ).KeepsTo along :=
  keepsTo_of_untouched mute_untouched

/-! ### Trails -/

structure Trail (start : Heap) (evaluator : Evaluator) (last : Control) (final : State σ) (count : Nat) (control : Control)
    (state : State σ) : Prop where
  regular : start.Regular
  poised : Poised start evaluator control state
  active : ∀ links node, control ≠ .await links node
  accounts : Accounted start evaluator.actor state
  unawaited : state.world.heap.waits = []
  standing : iterations mute evaluator control state count = some (last, final)
  fits : final.world.heap.Addressable
  awake : ∀ links node, last ≠ .await links node

namespace Trail

theorem rooted (trail : Trail start evaluator last final count control state) : control.Rooted state.world.heap := by
  cases control with
  | await links node => exact absurd rfl (trail.active links node)
  | _ => trivial

theorem step (trail : Trail start evaluator last final (count + 1) control state) :
    ∃ next after, iterate mute evaluator control state = .ok (.continues next) after ∧
      Deed evaluator.actor state after control next ∧ Trail start evaluator last final count next after := by
  obtain ⟨next, after, stepped⟩ := iterations_first trail.standing
  have standing := trail.standing
  rw [iterations_shift stepped] at standing
  have fits : after.world.heap.Addressable :=
    trail.fits.mono (iterations_grows (@mute_keeps σ Heap.Advances _) standing)
  have deed := iterate_deed mute_untouched trail.regular trail.poised trail.active stepped fits
  have left := iterate_leaves (@mute_keeps σ Heap.Advances _) trail.regular trail.poised (stepped ▸ fits)
  have active : ∀ links node, next ≠ .await links node := by
    rintro links node rfl
    cases deed with
    | works _ isFresh _ _ => exact isFresh.elim
    | blocks other _ _ held => exact trail.awake links node (iterations_blocked other held standing).1
  have waits := iterate_waits mute_untouched trail.regular trail.poised trail.active active stepped fits
  exact ⟨next, after, stepped, deed, trail.regular, left.next _ _ stepped next rfl, active, deed.accounted trail.accounts,
    waits.trans trail.unawaited, standing, trail.fits, trail.awake⟩

variable {handle target : Handle} {slotState : SlotState}

theorem value (trail : Trail start evaluator last final count control state) {content : Node}
    (found : state.world.heap.lookup handle = .ok ⟨slotState, content⟩) (isWhnf : content.tag.isWhnf) :
    final.world.heap.lookup handle = .ok ⟨slotState, content⟩ := by
  induction count generalizing control state with
  | zero =>
    cases trail.standing
    exact found
  | succ count ih =>
    obtain ⟨next, after, _, deed, rest⟩ := trail.step
    exact ih rest (deed.value found isWhnf)

theorem direct (trail : Trail start evaluator last final count control state) {content : Node}
    (found : state.world.heap.lookup handle = .ok ⟨slotState, .indirection target⟩)
    (stored : state.world.heap.lookup target = .ok ⟨.evaluated, content⟩) (isWhnf : content.tag.isWhnf) :
    final.world.heap.lookup handle = .ok ⟨slotState, .indirection target⟩ := by
  induction count generalizing control state with
  | zero =>
    cases trail.standing
    exact found
  | succ count ih =>
    obtain ⟨next, after, _, deed, rest⟩ := trail.step
    refine ih rest ?_ (deed.value stored isWhnf)
    rcases deed.link trail.poised.sound found with same | ⟨target', _, leads, _, _, pointed⟩
    · exact same
    · have solid : state.world.heap.Solid target := ⟨_, stored, Tag.ne_indirection_of_whnf isWhnf⟩
      obtain rfl := leads.unique (.link ⟨slotState, found⟩ (.here solid))
      exact pointed

theorem thunk (trail : Trail start evaluator last final count control state) (live : state.world.heap.Live target)
    {expr : Expr} {env : Env} (unfinished : final.world.heap.lookup target = .ok ⟨slotState, .thunk expr env⟩) :
    ∃ slotState', state.world.heap.lookup target = .ok ⟨slotState', .thunk expr env⟩ := by
  induction count generalizing control state with
  | zero =>
    cases trail.standing
    exact ⟨slotState, unfinished⟩
  | succ count ih =>
    obtain ⟨next, after, _, deed, rest⟩ := trail.step
    obtain ⟨slotState', found⟩ := ih rest (deed.live live)
    exact deed.thunk trail.poised.sound live found

/-- What leads to a thunk that stays unfinished stays as it is. -/
theorem pending (trail : Trail start evaluator last final count control state) {expr : Expr} {env : Env} {links : List Handle}
    (unfinished : final.world.heap.lookup target = .ok ⟨slotState, .thunk expr env⟩)
    (live : state.world.heap.Live target) (route : state.world.heap.Route target links handle) :
    ∀ link ∈ links, final.world.heap.lookup link = state.world.heap.lookup link := by
  induction count generalizing control state with
  | zero =>
    cases trail.standing
    exact fun _ _ => rfl
  | succ count ih =>
    obtain ⟨slotState', found⟩ := trail.thunk live unfinished
    have solid : state.world.heap.Solid target := ⟨_, found, nofun⟩
    obtain ⟨next, after, _, deed, rest⟩ := trail.step
    have kept : ∀ link ∈ links, after.world.heap.lookup link = state.world.heap.lookup link := by
      intro link member
      obtain ⟨_, state', linked⟩ := route.linksTo member
      rcases deed.link trail.poised.sound linked with same | ⟨target', value, leads, stored, isWhnf, _⟩
      · rw [same, linked]
      · obtain rfl := leads.unique (route.resolves_link solid member)
        cases stored.symm.trans found
        cases isWhnf
    intro link member
    exact (ih rest (deed.live live) (route.mono kept) link member).trans (kept link member)

theorem later {early : Nat} {middle : Control} {between : State σ}
    (trail : Trail start evaluator last final (early + count) control state)
    (standing : iterations mute evaluator control state early = some (middle, between)) :
    Trail start evaluator last final count middle between := by
  induction early generalizing control state with
  | zero =>
    cases standing
    rwa [Nat.zero_add] at trail
  | succ early ih =>
    rw [Nat.succ_add] at trail
    obtain ⟨next, after, stepped, _, rest⟩ := trail.step
    rw [iterations_shift stepped] at standing
    exact ih rest standing

theorem whole (trail : Trail start evaluator last final count control state) : Trail start evaluator last final 0 last final :=
  @later _ _ _ _ _ _ _ 0 count _ _ trail trail.standing

end Trail

/-! ### What is left -/

-- The heap of a state that is unwound.
def leftover (evaluator : Evaluator) (state : State σ) : Heap :=
  (releaseAll evaluator.actor state.stack.items 0 state.world.heap).2.endWait evaluator.actor

theorem release_offers {node handle : Handle} {actor : Actor} {heap : Heap}
    (offers : (Heap.release node actor heap).state.Offers handle) : heap.Offers handle := by
  have early : (Heap.transition node (Slot.release actor) heap).state.Offers handle := by
    rw [Heap.release] at offers
    cases ended : Heap.transition node (Slot.release actor) heap with
    | ok done after =>
      rw [bind_ok ended] at offers
      exact offers.of_entries rfl rfl
    | error fault after =>
      rw [bind_error ended] at offers
      exact offers
  exact Heap.transition_offers early

theorem releaseAll_offers {handle : Handle} {actor : Actor} {frames : List Frame} {released : Nat} {heap : Heap}
    (offers : (releaseAll actor frames released heap).2.Offers handle) : heap.Offers handle := by
  induction frames generalizing released heap with
  | nil => exact offers
  | cons frame frames ih =>
    cases frame with
    | update node =>
      rw [releaseAll] at offers
      refine @release_offers node handle actor heap ?_
      split at offers
      all_goals
        rename_i ended
        rw [ended]
        exact ih offers
    | _ => exact ih offers

theorem leftover_offers {handle : Handle} (offers : (leftover evaluator state).Offers handle) : state.world.heap.Offers handle :=
  releaseAll_offers (offers.of_entries rfl rfl)

theorem leftover_maxNodes (evaluator : Evaluator) (state : State σ) :
    (leftover evaluator state).maxNodes = state.world.heap.maxNodes :=
  @releaseAll_upheld (fun before after : Heap => after.maxNodes = before.maxNodes) _ evaluator.actor state.stack.items 0 state.world.heap

section

variable {handle target : Handle} {slot : Slot} {slotState : SlotState} {content : Node}

theorem leftover_marked (held : Held start state.world.heap evaluator.actor state.stack.items)
    (marked : .update handle ∈ state.stack.items)
    (found : state.world.heap.lookup handle = .ok ⟨.inProgress evaluator.actor, content⟩) :
    (leftover evaluator state).lookup handle = .ok ⟨.unevaluated, content⟩ := by
  have thunks : ∀ node, .update node ∈ state.stack.items →
      ∃ content, state.world.heap.lookup node = .ok ⟨.inProgress evaluator.actor, content⟩ := by
    intro node member
    obtain ⟨expr, env, found⟩ := held.thunk member
    exact ⟨_, found⟩
  exact (releaseAll_lookup 0 held.once thunks).1 handle content marked found

theorem leftover_unmarked (held : Held start state.world.heap evaluator.actor state.stack.items)
    (unmarked : .update handle ∉ state.stack.items) : (leftover evaluator state).lookup handle = state.world.heap.lookup handle := by
  have thunks : ∀ node, .update node ∈ state.stack.items →
      ∃ content, state.world.heap.lookup node = .ok ⟨.inProgress evaluator.actor, content⟩ := by
    intro node member
    obtain ⟨expr, env, found⟩ := held.thunk member
    exact ⟨_, found⟩
  exact (releaseAll_lookup 0 held.once thunks).2 handle unmarked

theorem leftover_kept (held : Held start state.world.heap evaluator.actor state.stack.items)
    (found : state.world.heap.lookup handle = .ok slot) (noThunk : slot.node.tag ≠ .thunk) :
    (leftover evaluator state).lookup handle = .ok slot := by
  refine (leftover_unmarked held fun marked => ?_).trans found
  obtain ⟨expr, env, thunk⟩ := held.thunk marked
  cases found.symm.trans thunk
  exact noThunk rfl

theorem leftover_content (held : Held start state.world.heap evaluator.actor state.stack.items)
    (found : (leftover evaluator state).lookup handle = .ok slot) :
    ∃ slotState, state.world.heap.lookup handle = .ok ⟨slotState, slot.node⟩ := by
  by_cases marked : .update handle ∈ state.stack.items
  · obtain ⟨expr, env, thunk⟩ := held.thunk marked
    cases (leftover_marked held marked thunk).symm.trans found
    exact ⟨_, thunk⟩
  · rw [leftover_unmarked held marked] at found
    exact ⟨_, found⟩

end

namespace Trail

variable {handle target : Handle} {slotState : SlotState}

theorem held (trail : Trail start evaluator last final count control state) :
    Held start final.world.heap evaluator.actor final.stack.items :=
  trail.whole.poised.held

theorem left_value (trail : Trail start evaluator last final count control state) {content : Node}
    (found : state.world.heap.lookup handle = .ok ⟨slotState, content⟩) (isWhnf : content.tag.isWhnf) :
    (leftover evaluator final).lookup handle = .ok ⟨slotState, content⟩ := by
  exact leftover_kept trail.held (trail.value found isWhnf) (Tag.ne_thunk_of_whnf isWhnf)

theorem left_direct (trail : Trail start evaluator last final count control state) {content : Node}
    (found : state.world.heap.lookup handle = .ok ⟨slotState, .indirection target⟩)
    (stored : state.world.heap.lookup target = .ok ⟨.evaluated, content⟩) (isWhnf : content.tag.isWhnf) :
    (leftover evaluator final).lookup handle = .ok ⟨slotState, .indirection target⟩ :=
  leftover_kept trail.held (trail.direct found stored isWhnf) (by simp [Node.tag])

theorem left_thunk (trail : Trail start evaluator last final count control state) (live : state.world.heap.Live handle)
    {expr : Expr} {env : Env} (unfinished : (leftover evaluator final).lookup handle = .ok ⟨slotState, .thunk expr env⟩) :
    ∃ slotState', state.world.heap.lookup handle = .ok ⟨slotState', .thunk expr env⟩ := by
  obtain ⟨_, found⟩ := leftover_content trail.held unfinished
  exact trail.thunk live found

/-- What is left unfinished of what was unclaimed is unclaimed. -/
theorem left_unclaimed (trail : Trail start evaluator last final count control state) {content : Node} {expr : Expr} {env : Env}
    (unclaimed : state.world.heap.lookup handle = .ok ⟨.unevaluated, content⟩)
    (unfinished : (leftover evaluator final).lookup handle = .ok ⟨slotState, .thunk expr env⟩) : slotState = .unevaluated := by
  by_cases marked : .update handle ∈ final.stack.items
  · obtain ⟨_, _, thunk⟩ := trail.held.thunk marked
    cases (leftover_marked trail.held marked thunk).symm.trans unfinished
    rfl
  · rw [leftover_unmarked trail.held marked] at unfinished
    have proper := (trail.whole.poised.settles.regular trail.regular).proper unfinished
    cases slotState with
    | unevaluated => rfl
    | evaluated => exact absurd rfl (proper.mp rfl)
    | inProgress owner =>
      rcases trail.whole.accounts owner handle (Heap.heldBy_iff.mpr ⟨_, unfinished⟩) with before | ⟨_, marked'⟩
      · obtain ⟨_, busy⟩ := Heap.heldBy_iff.mp before
        cases unclaimed.symm.trans (trail.poised.settles.busy busy)
      · exact absurd marked' marked

theorem left_pending (trail : Trail start evaluator last final count control state) {expr : Expr} {env : Env} {links : List Handle}
    (unfinished : (leftover evaluator final).lookup target = .ok ⟨slotState, .thunk expr env⟩)
    (live : state.world.heap.Live target) (route : state.world.heap.Route target links handle) :
    (leftover evaluator final).Route target links handle := by
  obtain ⟨_, found⟩ := leftover_content trail.held unfinished
  have kept := trail.pending found live route
  refine route.mono fun link member => ?_
  obtain ⟨_, state', linked⟩ := route.linksTo member
  rw [linked, leftover_kept trail.held ((kept link member).trans linked) (by simp [Node.tag])]

/-- What is held when the call is unwound was held when it began. -/
theorem left_heldBy (trail : Trail start evaluator last final count control state) {owner : Actor}
    (heldBy : (leftover evaluator final).HeldBy owner handle) : start.HeldBy owner handle := by
  obtain ⟨content, found⟩ := Heap.heldBy_iff.mp heldBy
  by_cases marked : .update handle ∈ final.stack.items
  · obtain ⟨_, _, thunk⟩ := trail.held.thunk marked
    cases (leftover_marked trail.held marked thunk).symm.trans found
  · rw [leftover_unmarked trail.held marked] at found
    exact (trail.whole.accounts owner handle (Heap.heldBy_iff.mpr ⟨content, found⟩)).resolve_right fun own => marked own.2

end Trail

end LazyGraph.Machine

import LazyGraph.Proofs.Renaming.Collection
import LazyGraph.Proofs.Retry.Budgets
import LazyGraph.Proofs.Retry.Meeting

/-! What an aborted call leaves, and what a repetition makes of it.

A call that is repeated on what a part of it has left follows that part, and then goes where
the call goes. If it is aborted in its turn it leaves what a part of the call would have left,
which may be the same part or a longer one, up to the names of nodes. -/

set_option autoImplicit false

namespace LazyGraph

/-! ### Twins, seen from the right -/

namespace Pairing

def image (pairs : Pairing) (handle' : Handle) : Prop :=
  ∃ handle, pairs handle handle'

end Pairing

theorem Node.Alike.image {known : Handle → Prop} {pairs : Pairing} {node node' : Node} (alike : node.Alike known pairs node') :
    node'.Alike known (.within pairs.image) node' := by
  have each : ∀ {handles handles' : List Handle}, List.Forall₂ pairs handles handles' →
      List.Forall₂ (Pairing.within pairs.image) handles' handles' := by
    intro handles handles' both
    refine List.forall₂_same.mpr fun handle' member => ?_
    obtain ⟨handle, _, paired⟩ := forall₂_mem_right both member
    exact ⟨⟨handle, paired⟩, rfl⟩
  cases alike with
  | char | int | double | object => constructor
  | data both => exact .data (each both)
  | function body both => exact .function body (each both)
  | indirection both => exact .indirection ⟨⟨_, both⟩, rfl⟩
  | thunk code both => exact .thunk code (each both)

namespace Heap

variable {left right right' heap : Heap} {peers : Actor → Actor → Prop} {known : Handle → Prop} {pairs : Pairing} {root : Handle}

theorem Twins.walled (twins : left.Twins peers known pairs right) : right.Walled known pairs.image where
  free := twins.free.2
  unbounded := twins.unbounded.2
  named := fun handle isKnown => ⟨handle, twins.named handle isKnown⟩
  issued := fun ⟨_, both⟩ => (twins.granted both).2
  closed := by
    rintro handle' slot' ⟨handle, both⟩ found'
    have coincide := twins.slots both
    rw [found'] at coincide
    cases found : left.lookup handle with
    | error fault =>
      rw [found] at coincide
      cases coincide
    | ok slot =>
      rw [found] at coincide
      exact (Slot.Alike.node coincide).image

/-- A heap with the same nodes under the paired handles is a twin too. -/
theorem Twins.same (twins : left.Twins peers known pairs right) (free : right'.FreeListSound) (unbounded : right'.maxNodes = none)
    (unawaited : left.waits = [] ∧ right'.waits = []) (offers : ∀ {handle}, right'.Offers handle → right.Offers handle)
    (same : ∀ {handle}, ¬ right.Offers handle → ∀ slot, right'.lookup handle = .ok slot ↔ right.lookup handle = .ok slot) :
    left.Twins peers known pairs right' where
  free := ⟨twins.free.1, free⟩
  unbounded := ⟨twins.unbounded.1, unbounded⟩
  exactly := twins.exactly
  named := twins.named
  granted := fun both => ⟨(twins.granted both).1, fun offered => (twins.granted both).2 (offers offered)⟩
  waits := by
    rw [unawaited.1, unawaited.2]
    exact .nil
  slots := by
    intro handle handle' both
    have coincide := twins.slots both
    have kept := same (twins.granted both).2
    cases found : right.lookup handle' with
    | ok slot =>
      rw [found] at coincide
      rwa [(kept slot).mpr found]
    | error fault =>
      cases found' : right'.lookup handle' with
      | ok slot => cases ((kept slot).mp found').symm.trans found
      | error fault' =>
        rw [found] at coincide
        cases here : left.lookup handle with
        | ok slot =>
          rw [here] at coincide
          exact coincide.elim
        | error fault'' => exact (lookup_error_kind here).trans (lookup_error_kind found').symm

/-- Who holds what is found on the left stands for no one else on the right. -/
theorem Twins.unmask {actor actor' : Actor} (twins : left.Twins (Substitutes actor actor') known pairs right)
    (others : ∀ {owner handle}, left.HeldBy owner handle → Substitutes actor actor' owner owner) (unawaited : left.waits = []) :
    left.Twins Eq known pairs right where
  free := twins.free
  unbounded := twins.unbounded
  exactly := twins.exactly
  named := twins.named
  granted := twins.granted
  waits := by
    have each := twins.waits
    rw [unawaited] at each ⊢
    rw [List.forall₂_nil_left_iff.mp each]
    exact .nil
  slots := by
    intro handle handle' both
    cases found : left.lookup handle with
    | error fault =>
      obtain ⟨fault', found'⟩ := twins.error both found
      rw [found']
      exact (lookup_error_kind found).trans (lookup_error_kind found').symm
    | ok slot =>
      obtain ⟨⟨state', node'⟩, found', states, nodes⟩ := twins.ok both found
      obtain ⟨state, node⟩ := slot
      rw [found']
      refine ⟨?_, nodes⟩
      cases states with
      | unevaluated => exact .unevaluated
      | evaluated => exact .evaluated
      | inProgress owners =>
        exact .inProgress ((Substitutes.exactly _ _ owners (others (heldBy_iff.mpr ⟨node, found⟩))).mp rfl).symm

/-- Either the actors are one, or neither holds a thunk. -/
def Indifferent (heap : Heap) (actor actor' : Actor) : Prop :=
  actor = actor' ∨ ∀ handle, ¬ heap.HeldBy actor handle ∧ ¬ heap.HeldBy actor' handle

theorem Indifferent.others {actor actor' owner : Actor} {handle : Handle} (indifferent : heap.Indifferent actor actor')
    (held : heap.HeldBy owner handle) : Substitutes actor actor' owner owner := by
  rcases indifferent with rfl | neither
  · by_cases own : owner = actor
    · exact .inl ⟨own, own⟩
    · exact .inr ⟨own, own, rfl⟩
  · refine .inr ⟨?_, ?_, rfl⟩
    · rintro rfl
      exact (neither handle).1 held
    · rintro rfl
      exact (neither handle).2 held

/-- The heap is at rest and can grow, and what the root leads to was issued and calls no host function. -/
structure Retriable (heap : Heap) (root : Handle) : Prop extends heap.SelfContained root where
  granted : ¬ heap.Offers root
  unbounded : heap.maxNodes = none
  unawaited : heap.waits = []
  short : ∀ {handle slot code part bindings body}, heap.Reachable (· = root) handle → heap.lookup handle = .ok slot →
    slot.node.code? = some code → Expr.Part part code → part.form = .letrec bindings body → bindings.length < UInt64.size

theorem Retriable.walled (retriable : heap.Retriable root) : heap.Walled (heap.Under (· = root)) (heap.Under (· = root)) where
  free := retriable.regular.free
  unbounded := retriable.unbounded
  named := fun _ under => under
  issued := by
    rintro handle (rfl | ⟨source, reached, edge⟩)
    · exact retriable.granted
    · exact retriable.issued reached edge
  closed := fun under found => Under.node_alike retriable.hostFree retriable.short under found

theorem endWait_unawaited (unawaited : heap.waits = []) (actor : Actor) : heap.endWait actor = heap := by
  have none : heap.waits.filter (fun wait => wait.1 ≠ actor) = heap.waits := by
    rw [unawaited]
    rfl
  exact congrArg (fun waits => { heap with waits := waits }) none

theorem waits_release (node : Handle) (actor : Actor) (heap : Heap) : (release node actor heap).state.waits = heap.waits := by
  have same : (transition node (Slot.release actor) heap).state.waits = heap.waits := by
    unfold transition
    split
    · rfl
    · split
      · rfl
      · rfl
  rw [release]
  cases ended : transition node (Slot.release actor) heap with
  | ok done after =>
    rw [ended] at same
    rw [bind_ok ended]
    exact same
  | error fault after =>
    rw [ended] at same
    rw [bind_error ended]
    exact same

end Heap

namespace Machine

variable {σ : Type} {start base heap : Heap} {known inside held : Handle → Prop} {names pairs ties : Pairing}
  {host : Host σ} {step : Control → MachineM σ Progress} {evaluator evaluator' : Evaluator}
  {control control' last last' next next' : Control} {state state' left right after after' reached final final' : State σ}
  {count : Nat} {root : Handle}

/-! ### Parts of runs -/

theorem Passes.trans (early : Passes step control state next after) (late : Passes step next after last reached) :
    Passes step control state last reached := by
  induction early with
  | here => exact late
  | onward stepped _ ih => exact .onward stepped (ih late)

/-- A run that ends passes the same on its way as any part of it. -/
theorem Passes.until (part : Passes step control state next after) (whole : Passes step control state last reached)
    (ended : ∀ next after, step last reached ≠ .ok (.continues next) after) : Passes step next after last reached := by
  induction part with
  | here => exact whole
  | onward stepped _ ih =>
    cases whole with
    | here => exact absurd stepped (ended _ _)
    | onward stepped' rest =>
      cases stepped.symm.trans stepped'
      exact ih rest

theorem iterations_of_passes (passes : Passes (iterate host evaluator) control state last reached) :
    ∃ count, iterations host evaluator control state count = some (last, reached) := by
  induction passes with
  | here => exact ⟨0, rfl⟩
  | onward stepped _ ih =>
    obtain ⟨count, standing⟩ := ih
    exact ⟨count + 1, (iterations_shift stepped count).trans standing⟩

/-- A run whose last heap can be addressed could address all of them. -/
theorem roomy_of_ended (keeps : host.KeepsTo Heap.Advances) (whole : Passes (iterate host evaluator) control state last reached)
    (ended : ∀ next after, iterate host evaluator last reached ≠ .ok (.continues next) after)
    (fits : Fits (iterate host evaluator last reached)) : Roomy (iterate host evaluator) control state := by
  intro next after part
  cases part.until whole ended with
  | here => exact fits
  | onward stepped rest =>
    obtain ⟨count, standing⟩ := iterations_of_passes rest
    rw [Fits, stepped]
    exact (fits.mono (iterate_grows keeps evaluator last reached)).mono (iterations_grows keeps standing)

theorem Unlimited.later (unlimited : Unlimited step control state) (passes : Passes step control state next after) :
    Unlimited step next after :=
  fun last reached rest => unlimited last reached (passes.trans rest)

theorem Roomy.later (roomy : Roomy step control state) (passes : Passes step control state next after) : Roomy step next after :=
  fun last reached rest => roomy last reached (passes.trans rest)

theorem run_passes (passes : Passes (iterate host evaluator) control state next after) :
    ∃ count, ∀ fuel, run host evaluator (fuel + count) control state = run host evaluator fuel next after := by
  induction passes with
  | here => exact ⟨0, fun _ => rfl⟩
  | onward stepped _ ih =>
    obtain ⟨count, same⟩ := ih
    refine ⟨count + 1, fun fuel => ?_⟩
    rw [← Nat.add_assoc, run, stepped]
    exact same fuel

/-! ### What is left -/

theorem waits_releaseAll (actor : Actor) (frames : List Frame) (released : Nat) (heap : Heap) :
    (releaseAll actor frames released heap).2.waits = heap.waits := by
  fun_induction releaseAll actor frames released heap with
  | case1 => rfl
  | case2 node frames released heap heap' ended ih | case3 node frames released heap heap' ended ih
  | case4 node frames released heap fault heap' ended ih =>
    have same := Heap.waits_release node actor heap
    rw [ended] at same
    exact ih.trans same
  | case5 _ _ _ _ _ ih => exact ih

theorem leftover_unawaited (evaluator : Evaluator) (unawaited : state.world.heap.waits = []) :
    (leftover evaluator state).waits = [] := by
  unfold leftover Heap.endWait
  rw [waits_releaseAll, unawaited]
  rfl

theorem leftover_regular (regular : start.Regular) (poised : Poised start evaluator control state) :
    (leftover evaluator state).Regular :=
  (unwind_leaves (.nonTermination ⟨0, 0⟩) poised.settles poised.held).2.regular regular

/-- Where the repetition is stopped on the way, it leaves what it began on. -/
theorem Retreads.leftover_twins
    (retreads : Retreads base names evaluator evaluator' known inside held pairs control control' left right)
    (twins : (leftover evaluator final).Twins Eq known names base) (unawaited : (leftover evaluator final).waits = [])
    (regular : base.Regular) : (leftover evaluator final).Twins Eq known names (leftover evaluator' right) := by
  have poised := retreads.poised
  have retraces := retreads.abreast.heaps
  refine twins.same (leftover_regular regular poised).free ((leftover_maxNodes evaluator' right).trans retraces.unbounded.2)
    ⟨unawaited, leftover_unawaited evaluator' retreads.unawaited⟩ (fun offers => retraces.offers (leftover_offers offers)) ?_
  intro handle old slot
  by_cases isHeld : held handle
  · obtain ⟨_, content, busy, fresh⟩ := retraces.claimed isHeld
    rw [leftover_marked poised.held (retreads.answered _ isHeld) busy, fresh]
  · rw [leftover_unmarked poised.held fun marked => (retreads.marked _ marked).elim old isHeld]
    exact retraces.kept old isHeld slot

/-! ### Beside the call -/

/-- Where the call has gone, the machine that converges with it goes too. -/
theorem Converges.passes (converges : Converges evaluator evaluator' known control control' left right)
    (unlimited : Unlimited (iterate mute evaluator) control left) (roomy : Roomy (iterate mute evaluator') control' right)
    (passes : Passes (iterate mute evaluator') control' right next' after') :
    ∃ next after, Passes (iterate mute evaluator) control left next after ∧
      Converges evaluator evaluator' known next next' after after' := by
  induction passes generalizing control left with
  | here => exact ⟨control, left, .here, converges⟩
  | onward stepped' _ ih =>
    obtain ⟨pairs, abreast, controls, rooted⟩ := converges
    have concur := iterate_concur (substitutes_peers evaluator evaluator') abreast controls rooted unlimited.fits
      (roomy _ _ .here)
    rw [stepped'] at concur
    generalize stepped : iterate mute evaluator control left = result at concur
    cases concur with
    | leftSpent _ => exact absurd stepped ((unlimited _ _ .here).2 _ _)
    | ok wider abreast both =>
      cases both with
      | continues controls =>
        obtain ⟨last, reached, rest, meets⟩ := ih ⟨_, abreast, controls, iterate_rooted rooted stepped⟩ (unlimited.onward stepped)
          (roomy.onward stepped')
        exact ⟨last, reached, .onward stepped rest, meets⟩

theorem Converges.leftover_twins (converges : Converges evaluator evaluator' known last last' final final')
    (trail : Trail start evaluator last final count control state)
    (others : ∀ {owner handle}, start.HeldBy owner handle → Substitutes evaluator.actor evaluator'.actor owner owner) :
    ∃ pairs, (leftover evaluator final).Twins Eq known pairs (leftover evaluator' final') := by
  obtain ⟨pairs, abreast, _, _⟩ := converges
  have exactly := Substitutes.exactly evaluator.actor evaluator'.actor
  have actors : Substitutes evaluator.actor evaluator'.actor evaluator.actor evaluator'.actor := .inl ⟨rfl, rfl⟩
  have twins := (releaseAll_twins exactly actors abreast.frames abreast.heaps 0 0).endWait exactly actors
  exact ⟨pairs, Heap.Twins.unmask twins (fun held => others (trail.left_heldBy held))
    (leftover_unawaited evaluator trail.whole.unawaited)⟩

/-! ### A call and its repetitions -/

theorem contained_begin {inside : Handle → Prop} (walled : state.world.heap.Walled known inside)
    (unawaited : state.world.heap.waits = []) (idle : state.stack.items = []) (under : inside root) (evaluator : Evaluator) :
    Contained known (.within inside) (.force root) (begin evaluator state) where
  abreast := by
    refine ⟨walled.twins unawaited, ?_, fun _ => rfl⟩
    have items : (begin evaluator state).stack.items = [] := idle
    rw [items]
    exact .nil
  action := .force ⟨under, rfl⟩
  rooted := trivial

theorem trail_begin (retriable : state.world.heap.Retriable root) (idle : state.stack.items = [])
    (standing : iterations mute evaluator (.force root) (begin evaluator state) count = some (last, final))
    (fits : final.world.heap.Addressable) (awake : ∀ links node, last ≠ .await links node) :
    Trail state.world.heap evaluator last final count (.force root) (begin evaluator state) where
  regular := retriable.regular
  poised := .begin retriable.regular idle root
  active := nofun
  accounts := fun _ _ held => .inl held
  unawaited := retriable.unawaited
  standing := standing
  fits := fits
  awake := awake

/-- The heap is what some part of the call would leave, up to the names of nodes. -/
structure Residue (evaluator : Evaluator) (root : Handle) (state : State σ) (heap : Heap) : Prop where
  regular : heap.Regular
  unawaited : heap.waits = []
  part : ∃ count last final names,
    Trail state.world.heap evaluator last final count (.force root) (begin evaluator state) ∧
    (leftover evaluator final).Twins Eq (state.world.heap.Under (· = root)) names heap

theorem Residue.whole (retriable : state.world.heap.Retriable root) (idle : state.stack.items = [])
    (fits : state.world.heap.Addressable) (evaluator : Evaluator) : Residue evaluator root state state.world.heap where
  regular := retriable.regular
  unawaited := retriable.unawaited
  part := by
    refine ⟨0, .force root, begin evaluator state, .within (state.world.heap.Under (· = root)),
      trail_begin retriable idle rfl fits nofun, ?_⟩
    have same : leftover evaluator (begin evaluator state) = state.world.heap := by
      have items : (begin evaluator state).stack.items = [] := idle
      unfold leftover
      rw [items]
      exact Heap.endWait_unawaited retriable.unawaited evaluator.actor
    rw [same]
    exact retriable.walled.twins retriable.unawaited

/-- A repetition begins where the call began, on what was left of it. -/
theorem retreads_begin (retriable : state.world.heap.Retriable root) (idle : state.stack.items = [])
    (idle' : state'.stack.items = []) (regular : state'.world.heap.Regular) (unawaited : state'.world.heap.waits = [])
    (twins : heap.Twins Eq (state.world.heap.Under (· = root)) names state'.world.heap) :
    Retreads state'.world.heap names evaluator evaluator' (state.world.heap.Under (· = root)) (state.world.heap.Under (· = root))
      (fun _ => False) (fun handle handle' => names handle handle' ∧ state.world.heap.Under (· = root) handle)
      (.force root) (.force root) (begin evaluator state) (begin evaluator' state') := by
  have items : (begin evaluator state).stack.items = [] := idle
  have items' : (begin evaluator' state').stack.items = [] := idle'
  have walled := retriable.walled
  refine ⟨⟨?_, ?_, fun strict => absurd trivial strict⟩, .force ⟨twins.named root (.inl rfl), .inl rfl⟩, ?_, fun _ none => none.elim,
    .begin regular idle' root, unawaited⟩
  · exact {
      free := ⟨walled.free, twins.free.2⟩
      unbounded := ⟨walled.unbounded, twins.unbounded.2⟩
      exactly := by
        intro handle handle' other other' both both'
        exact twins.exactly both.1 both'.1
      named := fun handle under => ⟨⟨twins.named handle under, under⟩, under⟩
      granted := fun both => ⟨walled.issued both.2, (twins.granted both.1).2⟩
      sorts := fun both => .inl ⟨both.1, both.2, (twins.granted both.1).2⟩
      joins := fun name under => ⟨name, under⟩
      issued := walled.issued
      closed := walled.closed
      copied := fun both copy => absurd copy (twins.granted both.1).2
      offers := fun offers => offers
      kept := fun _ _ _ => .rfl
      claimed := fun none => none.elim }
  · rw [items, items']
    exact .nil
  · rw [items']
    exact nofun

/-- The repetition is stopped on the way and leaves what it found, or it comes to stand beside the call. -/
theorem Residue.retraced (residue : Residue evaluator root state state'.world.heap) (retriable : state.world.heap.Retriable root)
    (idle : state.stack.items = []) (idle' : state'.stack.items = [])
    (indifferent : state.world.heap.Indifferent evaluator.actor evaluator'.actor)
    (unlimited : Unlimited (iterate mute evaluator) (.force root) (begin evaluator state))
    (roomy : Roomy (iterate mute evaluator') (.force root) (begin evaluator' state')) :
    ∃ next' after', Passes (iterate mute evaluator') (.force root) (begin evaluator' state') next' after' ∧
      (Halts mute evaluator' next' after' ∧ Residue evaluator root state (leftover evaluator' after') ∨
        ∃ next after, Passes (iterate mute evaluator) (.force root) (begin evaluator state) next after ∧
          Converges evaluator evaluator' (state.world.heap.Under (· = root)) next next' after after') := by
  obtain ⟨count, last, final, names, trail, twins⟩ := residue.part
  have contained := contained_begin retriable.walled retriable.unawaited idle (.inl rfl) evaluator
  have retreads : Retreads state'.world.heap names evaluator evaluator' _ _ _ _ _ _ _ _ :=
    retreads_begin retriable idle idle' residue.regular residue.unawaited twins
  have passed := passes_of_iterations trail.standing
  obtain ⟨next', after', passes', ⟨halts, inside, held, pairs, control, left, stopped⟩ | ⟨next, after, passes, meets⟩⟩ :=
    retreads.retrace twins residue.regular indifferent.others trail contained (unlimited.later passed) roomy
  · refine ⟨next', after', passes', .inl ⟨halts, leftover_regular residue.regular stopped.poised,
      leftover_unawaited evaluator' stopped.unawaited, count, last, final, names, trail, ?_⟩⟩
    exact stopped.leftover_twins twins (leftover_unawaited evaluator trail.whole.unawaited) residue.regular
  · exact ⟨next', after', passes', .inr ⟨next, after, passed.trans passes, meets⟩⟩

/-- What is repeated on the residue of a call refers to what has a partner there. -/
theorem Residue.contained (residue : Residue evaluator root state state'.world.heap) (idle' : state'.stack.items = [])
    (evaluator' : Evaluator) :
    ∃ ties, Contained (state.world.heap.Under (· = root)) ties (.force root) (begin evaluator' state') := by
  obtain ⟨_, _, _, names, _, twins⟩ := residue.part
  exact ⟨_, contained_begin twins.walled residue.unawaited idle' ⟨root, twins.named root (.inl rfl)⟩ evaluator'⟩

/-- Who spends the step budget leaves a residue of the call again. -/
theorem Residue.aborted {budget : UInt64} {failed : State σ} (residue : Residue evaluator root state state'.world.heap)
    (retriable : state.world.heap.Retriable root) (idle : state.stack.items = []) (idle' : state'.stack.items = [])
    (indifferent : state.world.heap.Indifferent evaluator.actor evaluator'.actor)
    (unlimited : Unlimited (iterate mute evaluator) (.force root) (begin evaluator state))
    (roomy : Roomy (iterate mute evaluator') (.force root) (begin evaluator' state'))
    (passes' : Passes (iterate mute evaluator') (.force root) (begin evaluator' state') last' final')
    (spent : iterate mute evaluator' last' final' = .error (.exhausted (.steps budget)) failed) :
    Residue evaluator root state (leftover evaluator' failed) := by
  obtain ⟨count', standing'⟩ := iterations_of_passes passes'
  have fits' : final'.world.heap.Addressable := by
    have grows := iterate_grows (@mute_keeps σ Heap.Advances _) evaluator' last' final'
    exact (roomy _ _ passes').mono grows
  -- the last step did nothing but begin, and waited for no one
  obtain ⟨awake', rfl⟩ : (∀ links node, last' ≠ .await links node) ∧ failed = begun final' := by
    obtain ⟨ties, contained⟩ := residue.contained idle' evaluator'
    obtain ⟨_, _, contained'⟩ := contained.iterations (.of_fits mute_keeps standing' fits') standing'
    exact iterate_spent contained'.action contained'.frames spent
  have same : leftover evaluator' (begun final') = leftover evaluator' final' := rfl
  rw [same]
  have ended : ∀ next after, iterate mute evaluator' last' final' ≠ .ok (.continues next) after := by
    intro next after going
    cases spent.symm.trans going
  obtain ⟨next', after', part, ⟨⟨limit, _, halts⟩, left⟩ | ⟨next, after, passes, meets⟩⟩ :=
    residue.retraced retriable idle idle' indifferent unlimited roomy
  · cases part.until passes' ended with
    | here => exact left
    | onward stepped _ => cases halts.symm.trans stepped
  · obtain ⟨last, final, rest, meets'⟩ := meets.passes (unlimited.later passes) (roomy.later part) (part.until passes' ended)
    obtain ⟨count, standing⟩ := iterations_of_passes (passes.trans rest)
    have fits : final.world.heap.Addressable := by
      have grows := iterate_grows (@mute_keeps σ Heap.Advances _) evaluator last final
      exact (unlimited _ _ (passes.trans rest)).1.mono grows
    have awake : ∀ links node, last ≠ .await links node := by
      rintro links node rfl
      obtain ⟨_, _, controls, _⟩ := meets'
      cases controls with
      | await _ _ => exact awake' _ _ rfl
    have trail := trail_begin retriable idle standing fits awake
    obtain ⟨pairs, twins⟩ := meets'.leftover_twins trail indifferent.others
    have poised := iterations_poised mute_keeps residue.regular (.begin residue.regular idle' root) standing' fits'
    refine ⟨leftover_regular residue.regular poised, ?_, count, last, final, pairs, trail, twins⟩
    have each := twins.waits
    rw [leftover_unawaited evaluator trail.whole.unawaited] at each
    exact List.forall₂_nil_left_iff.mp each

theorem Residue.registered (residue : Residue evaluator root state heap) :
    Residue evaluator root state heap.registerActor.2 := by
  obtain ⟨count, last, final, names, trail, twins⟩ := residue.part
  have settles : heap.Settles heap.registerActor.2 := .of_entries residue.regular.free rfl rfl
  have regular := settles.regular residue.regular
  refine ⟨regular, residue.unawaited, count, last, final, names, trail, ?_⟩
  exact twins.same regular.free twins.unbounded.2 ⟨leftover_unawaited evaluator trail.whole.unawaited, residue.unawaited⟩
    (fun offers => offers.of_entries rfl rfl) fun _ _ => .rfl

end Machine

end LazyGraph

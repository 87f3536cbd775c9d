import LazyGraph.Proofs.Retry.Floors
import LazyGraph.Proofs.Retry.Retracing
import LazyGraph.Proofs.Retry.Trails

/-! A call that is repeated goes where the call went.

While the call is retraced, the repetition makes a step for each of its steps, unless the call
enters a thunk that was finished when it was left. Then the repetition finds the value at
once, and waits until the call has it too. In the end both stand in twin heaps. -/

set_option autoImplicit false

namespace LazyGraph

theorem Control.Alike.active {known : Handle → Prop} {pairs : Pairing} {control control' : Control}
    (alike : control.Alike known pairs control') (active : ∀ links node, control ≠ .await links node) :
    ∀ links node, control' ≠ .await links node := by
  rintro links node rfl
  cases alike with
  | await _ _ => exact active _ _ rfl

theorem Frame.Alike.isPlain {known : Handle → Prop} {pairs : Pairing} {frame frame' : Frame}
    (alike : frame.Alike known pairs frame') : frame'.isPlain = frame.isPlain := by
  cases alike <;> rfl

namespace Machine

variable {σ : Type} {start base : Heap} {known inside held : Handle → Prop} {names pairs : Pairing} {target : Handle}
  {evaluator evaluator' : Evaluator} {control control' next last : Control} {left right after final : State σ} {count : Nat}

theorem substitutes_peers (evaluator evaluator' : Evaluator) :
    Peers True (Substitutes evaluator.actor evaluator'.actor) evaluator evaluator' where
  exactly := Substitutes.exactly _ _
  actors := .inl ⟨rfl, rfl⟩
  settings := fun strict => absurd trivial strict
  token := fun strict => absurd trivial strict

theorem redirection_alike {links links' : List Handle} (each : List.Forall₂ pairs links links') :
    List.Forall₂ (Frame.Alike known pairs) (redirection links) (redirection links') := by
  unfold redirection
  rw [Forall₂.isEmpty_eq each]
  split
  · exact .nil
  · exact .cons (.redirect each) .nil

structure Retreads (base : Heap) (names : Pairing) (evaluator evaluator' : Evaluator) (known inside held : Handle → Prop)
    (pairs : Pairing) (control control' : Control) (left right : State σ) : Prop where
  abreast : Abreast True known (base.Retraces names evaluator.actor evaluator'.actor known inside held) pairs left right
  controls : control.Alike known pairs control'
  marked : ∀ node, .update node ∈ right.stack.items → base.Offers node ∨ held node
  answered : ∀ node, held node → .update node ∈ right.stack.items
  poised : Poised base evaluator' control' right
  unawaited : right.world.heap.waits = []

-- The next step is made by both, or a limit stops the repetition.
def KeepsUp (base : Heap) (names : Pairing) (evaluator evaluator' : Evaluator) (known : Handle → Prop) (control' : Control)
    (right : State σ) (next : Control) (after : State σ) : Prop :=
  Halts mute evaluator' control' right ∨
    ∃ next' after' inside held pairs, iterate mute evaluator' control' right = .ok (.continues next') after' ∧
      Retreads base names evaluator evaluator' known inside held pairs next next' after after'

namespace Retreads

theorem onward (retreads : Retreads base names evaluator evaluator' known inside held pairs control control' left right)
    (regular : base.Regular) (active : ∀ links node, control ≠ .await links node) {next' : Control} {after' : State σ}
    (stepped' : iterate mute evaluator' control' right = .ok (.continues next') after') (fits' : after'.world.heap.Addressable)
    (active' : ∀ links node, next' ≠ .await links node) :
    Poised base evaluator' next' after' ∧ after'.world.heap.waits = [] ∧
      after'.world.heap.maxNodes = right.world.heap.maxNodes := by
  have leaves := iterate_leaves (@mute_keeps σ Heap.Advances _) regular retreads.poised (stepped' ▸ fits')
  have waits := iterate_waits mute_untouched regular retreads.poised (retreads.controls.active active) active' stepped' fits'
  have upheld := iterate_upheld (@mute_keeps σ (fun before after : Heap => after.maxNodes = before.maxNodes) _) evaluator' control' right
  rw [stepped'] at upheld
  exact ⟨leaves.next _ _ stepped' next' rfl, waits.trans retreads.unawaited, upheld⟩

/-! ### Steps that read no slot -/

/-- A step that reads no slot comes to the same in both heaps. -/
theorem concurs (retreads : Retreads base names evaluator evaluator' known inside held pairs control control' left right)
    (quiet : Quiet control left.stack.items) (stepped : iterate mute evaluator control left = .ok (.continues next) after)
    (fits : after.world.heap.Addressable) (fits' : Fits (iterate mute evaluator' control' right)) :
    Halts mute evaluator' control' right ∨
      Quiet control' right.stack.items ∧
      Concur True known (base.Retraces names evaluator.actor evaluator'.actor known inside held) pairs (Progress.Alike known)
        (.ok (.continues next) after) (iterate mute evaluator' control' right) := by
  have peers := substitutes_peers evaluator evaluator'
  have excused : ∀ {prop : Prop}, ¬ True → prop := fun strict => absurd trivial strict
  have frames := retreads.abreast.frames
  cases retreads.controls with
  | @eval expr env env' code each =>
    rcases eval_begins mute evaluator left expr env with ⟨limit, _, refused⟩ | ⟨ready, stack, heap, going⟩
    · cases stepped.symm.trans refused
    rcases eval_begins mute evaluator' right expr env' with halts | ⟨ready', stack', heap', going'⟩
    · exact .inl halts
    · refine .inr ⟨trivial, ?_⟩
      have abreast : Abreast True known (base.Retraces names evaluator.actor evaluator'.actor known inside held) pairs
          ready ready' := ⟨by rw [heap, heap']; exact retreads.abreast.heaps, by rw [stack, stack']; exact frames, excused⟩
      rw [← stepped, going, going']
      have fits : Fits (continuing (eval mute evaluator expr env) ready) := by
        rw [← going, stepped]
        exact fits
      rw [going'] at fits'
      exact (eval_concur peers abreast code each fits.of_continuing fits'.of_continuing).continuing
  | @deliver whnf whnf' values =>
    cases items : left.stack.items with
    | nil =>
      rw [items] at quiet
      exact quiet.elim
    | cons frame rest =>
      rw [items] at quiet frames
      obtain ⟨frame', rest', top, below, items'⟩ := List.forall₂_cons_left_iff.mp frames
      rcases deliver_resumes mute evaluator whnf items with ⟨limit, _, refused⟩ | ⟨ready, stack, heap, going⟩
      · cases stepped.symm.trans refused
      rcases deliver_resumes mute evaluator' whnf' items' with halts | ⟨ready', stack', heap', going'⟩
      · exact .inl halts
      · refine .inr ⟨?_, ?_⟩
        · rw [items']
          exact top.isPlain.trans quiet
        · have abreast : Abreast True known (base.Retraces names evaluator.actor evaluator'.actor known inside held) pairs
              ready ready' := ⟨by rw [heap, heap']; exact retreads.abreast.heaps, by rw [stack, stack']; exact below, excused⟩
          rw [← stepped, going, going']
          exact (resume_concur peers abreast top quiet values).continuing
  | force _ => exact quiet.elim
  | await _ _ => exact quiet.elim

/-- A step that reads no slot leaves the repetition the markers it had. -/
theorem marks_still (retreads : Retreads base names evaluator evaluator' known inside held pairs control control' left right)
    (regular : base.Regular) (active : ∀ links node, control ≠ .await links node) (quiet' : Quiet control' right.stack.items)
    {next' : Control} {after' : State σ} (stepped' : iterate mute evaluator' control' right = .ok (.continues next') after')
    (fits' : after'.world.heap.Addressable) (node : Handle) :
    .update node ∈ after'.stack.items ↔ .update node ∈ right.stack.items := by
  have deed := iterate_deed mute_untouched regular retreads.poised (retreads.controls.active active) stepped' fits'
  cases deed with
  | works _ _ _ marks => exact marks node
  | completes top _ _ | collapses top _ _ _ =>
    rw [top] at quiet'
    cases quiet'
  | claims | arrives | blocks => exact quiet'.elim

theorem works (retreads : Retreads base names evaluator evaluator' known inside held pairs control control' left right)
    (regular : base.Regular) (active : ∀ links node, control ≠ .await links node) (quiet : Quiet control left.stack.items)
    (isFresh : next.IsFresh) (stepped : iterate mute evaluator control left = .ok (.continues next) after)
    (fits : after.world.heap.Addressable) (fits' : Fits (iterate mute evaluator' control' right)) :
    KeepsUp base names evaluator evaluator' known control' right next after := by
  rcases retreads.concurs quiet stepped fits fits' with halts | ⟨quiet', concur⟩
  · exact .inl halts
  generalize ended' : iterate mute evaluator' control' right = result at concur
  cases concur with
  | rightSpent _ => exact .inl ⟨_, _, ended'⟩
  | @ok pairs' _ progress' _ after' wider abreast both =>
    cases both with
    | @continues _ next' controls =>
      have fits' : after'.world.heap.Addressable := by
        rw [Fits, ended'] at fits'
        exact fits'
      have active' : ∀ links node, next' ≠ .await links node := by
        refine controls.active ?_
        rintro links node rfl
        exact isFresh.elim
      obtain ⟨poised, unawaited, _⟩ := retreads.onward regular active ended' fits' active'
      have marks := retreads.marks_still regular active quiet' ended' fits'
      exact .inr ⟨next', after', inside, held, pairs', ended', abreast, controls,
        fun node member => retreads.marked node ((marks node).mp member), fun node isHeld => (marks node).mpr (retreads.answered node isHeld),
        poised, unawaited⟩

/-! ### Markers -/

theorem marker_left (retreads : Retreads base names evaluator evaluator' known inside held pairs control control' left right)
    {node' : Handle} (marked : .update node' ∈ right.stack.items) : ∃ node, .update node ∈ left.stack.items ∧ pairs node node' := by
  obtain ⟨frame, member, alike⟩ := forall₂_mem_right retreads.abreast.frames marked
  cases alike with
  | @update node _ both => exact ⟨node, member, both⟩

theorem marker_right (retreads : Retreads base names evaluator evaluator' known inside held pairs control control' left right)
    {node : Handle} (marked : .update node ∈ left.stack.items) : ∃ node', .update node' ∈ right.stack.items ∧ pairs node node' := by
  obtain ⟨frame', member, alike⟩ := forall₂_mem_left retreads.abreast.frames marked
  cases alike with
  | @update _ node' both => exact ⟨node', member, both⟩

theorem marked_iff (retreads : Retreads base names evaluator evaluator' known inside held pairs control control' left right)
    {node node' : Handle} (both : pairs node node') : .update node ∈ left.stack.items ↔ .update node' ∈ right.stack.items := by
  have exactly := retreads.abreast.heaps.exactly
  constructor
  · intro marked
    obtain ⟨other, member, both'⟩ := retreads.marker_right marked
    rwa [(exactly both both').mp rfl]
  · intro marked
    obtain ⟨other, member, both'⟩ := retreads.marker_left marked
    rwa [(exactly both both').mpr rfl]

theorem unfinished (retreads : Retreads base names evaluator evaluator' known inside held pairs control control' left right)
    (twins : (leftover evaluator final).Twins Eq known names base) (regular : base.Regular) {node node' : Handle}
    (both : pairs node node') (isHeld : held node') :
    ∃ expr env, (leftover evaluator final).lookup node = .ok ⟨.unevaluated, .thunk expr env⟩ := by
  obtain ⟨old, content', _, fresh⟩ := retreads.abreast.heaps.claimed isHeld
  have coincide := twins.slots (retreads.abreast.heaps.old both old).1
  rw [fresh] at coincide
  have isThunk := (regular.proper fresh).mpr (by simp)
  cases found : (leftover evaluator final).lookup node with
  | error fault =>
    rw [found] at coincide
    cases coincide
  | ok slot =>
    rw [found] at coincide
    obtain ⟨state, content⟩ := slot
    obtain ⟨states, nodes⟩ := coincide
    cases states
    cases nodes with
    | thunk _ _ => exact ⟨_, _, rfl⟩
    | _ => cases isThunk

theorem maxNodes_step (stepped : iterate mute evaluator control left = .ok (.continues next) after) :
    after.world.heap.maxNodes = left.world.heap.maxNodes := by
  have upheld := iterate_upheld (@mute_keeps σ (fun before after : Heap => after.maxNodes = before.maxNodes) _) evaluator control left
  rw [stepped] at upheld
  exact upheld

/-- A thunk that is finished is a copy, and its original is finished too. -/
theorem completes {whnf : Whnf} {node : Handle} {rest : List Frame} {expr : Expr} {env : Env}
    (retreads : Retreads base names evaluator evaluator' known inside held pairs (.deliver whnf) control' left right)
    (twins : (leftover evaluator final).Twins Eq known names base) (regular : base.Regular)
    (top : left.stack.items = .update node :: rest)
    (rewrites : left.world.heap.Rewrites after.world.heap node ⟨.inProgress evaluator.actor, .thunk expr env⟩
      ⟨.evaluated, (updatePayload node whnf).1⟩)
    (stack : after.stack.items = rest) (bounded : after.world.heap.maxNodes = left.world.heap.maxNodes)
    (trail : Trail start evaluator last final count (.deliver (.stored (updatePayload node whnf).2 whnf.node)) after)
    (fits' : Fits (iterate mute evaluator' control' right)) :
    KeepsUp base names evaluator evaluator' known control' right (.deliver (.stored (updatePayload node whnf).2 whnf.node)) after := by
  have retraces := retreads.abreast.heaps
  have frames := retreads.abreast.frames
  rw [top] at frames
  obtain ⟨frame', rest', topmost, below, items'⟩ := List.forall₂_cons_left_iff.mp frames
  cases topmost with
  | @update _ node' both =>
    have marked : .update node' ∈ right.stack.items := items' ▸ List.mem_cons_self
    have copy : base.Offers node' := by
      refine (retreads.marked node' marked).resolve_right fun isHeld => ?_
      obtain ⟨expr', env', unfinished⟩ := retreads.unfinished twins regular both isHeld
      have written : after.world.heap.lookup node = .ok ⟨.evaluated, (updatePayload node whnf).1⟩ := by
        rw [rewrites.lookup, if_pos rfl]
      obtain ⟨slotState, found⟩ := trail.left_thunk ⟨_, written⟩ unfinished
      have same := found.symm.trans written
      simp only [Except.ok.injEq, Slot.mk.injEq] at same
      exact ((trail.poised.settles.regular trail.regular).proper found).mp rfl same.1
    have controls := retreads.controls
    cases controls with
    | @deliver _ whnf' values =>
      obtain ⟨expr', env', holds⟩ := retreads.poised.held.thunk marked
      rcases deliver_completes mute evaluator' whnf' items' holds with halts | ⟨after', stepped', stack', rewrites'⟩
      · exact Or.inl halts
      · obtain ⟨payloads, results⟩ := updatePayload_alike retraces.exactly both values
        have nodes : whnf.node.Alike known pairs whnf'.node := by cases values <;> assumption
        rw [Fits, stepped'] at fits'
        obtain ⟨poised, unawaited, bounded'⟩ := retreads.onward regular (by simp) stepped' fits' (by simp)
        have heaps := retraces.rewrites both copy rewrites rewrites' ⟨.evaluated, payloads⟩
          ⟨bounded.trans retraces.unbounded.1, bounded'.trans retraces.unbounded.2⟩
        refine Or.inr ⟨_, after', inside, held, pairs, stepped', ⟨heaps, by rw [stack, stack']; exact below, fun strict =>
          absurd trivial strict⟩, .deliver (.stored results nodes), fun other member => ?_, fun other isHeld => ?_, poised, unawaited⟩
        · refine retreads.marked other ?_
          rw [items', ← stack']
          exact .tail _ member
        · have member := retreads.answered other isHeld
          rw [items', List.mem_cons] at member
          rw [stack']
          refine member.resolve_left fun same => (retraces.claimed isHeld).1 ?_
          cases same
          exact copy

theorem unheld_link {link next : Handle} {slotState : SlotState}
    (retreads : Retreads base names evaluator evaluator' known inside held pairs control control' left right)
    (regular : base.Regular) (linked : base.lookup link = .ok ⟨slotState, .indirection next⟩) : ¬ held link := by
  intro isHeld
  obtain ⟨_, _, _, fresh⟩ := retreads.abreast.heaps.claimed isHeld
  cases linked.symm.trans fresh
  cases (regular.proper fresh).mpr (by simp)

/-- The links that a value is delivered to lead there within what the call keeps. -/
theorem encloses {link : Handle}
    (retreads : Retreads base names evaluator evaluator' known inside held pairs control control' left right)
    (leads : left.world.heap.Resolves target link) (isInside : inside link) : inside target := by
  obtain ⟨passed, route⟩ := leads.route
  exact (retreads.abreast.heaps.route_inside isInside route).1

/-- A link that is no copy points at the value in the base already. -/
theorem points_still {target' link' : Handle} {value value' : Node} {links links' : List Handle} {slot : Slot}
    (retreads : Retreads base names evaluator evaluator' known inside held pairs control control' left right)
    (twins : (leftover evaluator final).Twins Eq known names base) (regular : base.Regular) (targets : pairs target target')
    (each : List.Forall₂ pairs links links') (leads : ∀ link ∈ links, left.world.heap.Resolves target link)
    (heap : after.world.heap = left.world.heap.pointAll links target)
    (trail : Trail start evaluator last final count (.deliver (.stored target value)) after)
    (stored' : right.world.heap.lookup target' = .ok ⟨.evaluated, value'⟩) (isWhnf' : value'.tag.isWhnf)
    (member' : link' ∈ links') (old : ¬ base.Offers link') (found' : right.world.heap.lookup link' = .ok slot) :
    slot.pointed target' = slot := by
  have retraces := retreads.abreast.heaps
  obtain ⟨link, member, both⟩ := forall₂_mem_right each member'
  obtain ⟨name, isInside⟩ := retraces.old both old
  cases leads link member with
  | here _ =>
    obtain rfl := (retraces.exactly both targets).mp rfl
    cases found'.symm.trans stored'
    exact Slot.pointed_whnf isWhnf' _
  | link linked _ =>
    obtain ⟨state, linked⟩ := linked
    have pointed : after.world.heap.lookup link = .ok ⟨state, .indirection target⟩ := by
      rw [heap, Heap.lookup_pointAll, if_pos member, linked]
      rfl
    have direct := trail.left_direct pointed (trail.poised.sound.2 _ rfl) trail.poised.sound.1
    obtain ⟨⟨state', content'⟩, base', _, alike⟩ := twins.ok name direct
    cases alike with
    | @indirection _ onto name' =>
      cases found'.symm.trans ((retraces.kept old (retreads.unheld_link regular base') _).mpr base')
      have same := (retraces.exactly (retraces.joins name' (retreads.encloses (leads link member) isInside)) targets).mp rfl
      rw [same]
      rfl

/-- Links that are pointed at a value are copies, or point there in the base already. -/
theorem collapses {target : Handle} {value : Node} {links : List Handle} {rest : List Frame}
    (retreads : Retreads base names evaluator evaluator' known inside held pairs (.deliver (.stored target value)) control' left right)
    (twins : (leftover evaluator final).Twins Eq known names base) (regular : base.Regular)
    (top : left.stack.items = .redirect links :: rest) (leads : ∀ link ∈ links, left.world.heap.Resolves target link)
    (heap : after.world.heap = left.world.heap.pointAll links target) (stack : after.stack.items = rest)
    (trail : Trail start evaluator last final count (.deliver (.stored target value)) after)
    (fits' : Fits (iterate mute evaluator' control' right)) :
    KeepsUp base names evaluator evaluator' known control' right (.deliver (.stored target value)) after := by
  have retraces := retreads.abreast.heaps
  have frames := retreads.abreast.frames
  rw [top] at frames
  obtain ⟨frame', rest', topmost, below, items'⟩ := List.forall₂_cons_left_iff.mp frames
  cases topmost with
  | @redirect _ links' each =>
    have controls := retreads.controls
    cases controls with
    | deliver values =>
      cases values with
      | @stored _ target' _ value' targets nodes =>
        obtain ⟨isWhnf', stored'⟩ := retreads.poised.sound
        have live : ∀ link ∈ links', right.world.heap.Live link := by
          have stacked := retreads.poised.stacked
          rw [items'] at stacked
          cases stacked with
          | level framed => cases framed.laid.plain_top (by simp)
          | collapsing leads' _ => exact fun link member => (leads' link member).live
        rcases deliver_collapses mute evaluator' value' items' live with halts | ⟨after', stepped', stack', heap'⟩
        · exact Or.inl halts
        rw [Fits, stepped'] at fits'
        obtain ⟨poised, unawaited, _⟩ := retreads.onward regular (by simp) stepped' fits' (by simp)
        have heaps := retraces.points targets (fun both _ => List.rel_mem retraces.biUnique both each)
          (fun link member => retreads.encloses (leads link member))
          fun _ member' old _ => retreads.points_still twins regular targets each leads heap trail (stored' _ rfl) isWhnf' member' old
        refine Or.inr ⟨_, after', inside, held, pairs, stepped', ⟨by rw [heap, heap']; exact heaps, by rw [stack, stack']; exact below,
          fun strict => absurd trivial strict⟩, .deliver (.stored targets nodes), fun other member => ?_, fun other isHeld => ?_, poised,
          unawaited⟩
        · refine retreads.marked other ?_
          rw [items', ← stack']
          exact .tail _ member
        · have member := retreads.answered other isHeld
          rw [items', List.mem_cons] at member
          rw [stack']
          exact member.resolve_left (by simp)

/-! ### Demands -/

/-- The repetition lands on the value that the call has come to. -/
theorem lands {root root' target : Handle} {value : Node} {inside' : Handle → Prop} {pairs' : Pairing}
    (retreads : Retreads base names evaluator evaluator' known inside held pairs (.force root) (.force root') left right)
    (regular : base.Regular) (wider : pairs.Extends pairs') (stack : after.stack.items = left.stack.items)
    (landing : ∃ links' target' value', right.world.heap.followOn [] root' = ⟨links', .at target' ⟨.evaluated, value'⟩⟩ ∧
      value'.tag.isWhnf ∧ pairs' target target' ∧ value.Alike known pairs' value' ∧
      base.Retraces names evaluator.actor evaluator'.actor known inside' held pairs' after.world.heap
        (right.world.heap.pointAll links' target'))
    (fits' : Fits (iterate mute evaluator' (.force root') right)) :
    KeepsUp base names evaluator evaluator' known (.force root') right (.deliver (.stored target value)) after := by
  obtain ⟨links', target', value', chain, isWhnf, targets, nodes, heaps⟩ := landing
  rcases force_arrives mute evaluator' chain isWhnf with halts | ⟨after', stepped', stack', heap'⟩
  · exact Or.inl halts
  rw [Fits, stepped'] at fits'
  obtain ⟨poised, unawaited, _⟩ := retreads.onward regular (by simp) stepped' fits' (by simp)
  refine Or.inr ⟨_, after', inside', held, pairs', stepped', ⟨heap' ▸ heaps, ?_, fun strict => absurd trivial strict⟩,
    .deliver (.stored targets nodes), fun node member => retreads.marked node (stack' ▸ member), fun node isHeld =>
      stack' ▸ retreads.answered node isHeld, poised, unawaited⟩
  rw [stack, stack']
  exact retreads.abreast.frames.imp fun _ _ frames => frames.mono wider

theorem arrives {root target : Handle} {links : List Handle} {value : Node}
    (retreads : Retreads base names evaluator evaluator' known inside held pairs (.force root) control' left right)
    (twins : (leftover evaluator final).Twins Eq known names base) (regular : base.Regular)
    (chain : left.world.heap.followOn [] root = ⟨links, .at target ⟨.evaluated, value⟩⟩) (isWhnf : value.tag.isWhnf)
    (heap : after.world.heap = left.world.heap.pointAll links target) (stack : after.stack.items = left.stack.items)
    (trail : Trail start evaluator last final count (.deliver (.stored target value)) after)
    (fits' : Fits (iterate mute evaluator' control' right)) :
    KeepsUp base names evaluator evaluator' known control' right (.deliver (.stored target value)) after := by
  have retraces := retreads.abreast.heaps
  have controls := retreads.controls
  cases controls with
  | @force _ root' both =>
    have stored := (Heap.followOn_at (congrArg Chain.landing chain)).1
    obtain ⟨copies, copies', rest, entry, entry', rfl, each, way, entries, onward, ends⟩ :=
      retraces.route both (Heap.follow_route chain)
    have copied : base.Offers entry' → rest = [] ∧ entry = target := by
      intro copy
      obtain rfl := ends copy
      cases onward
      exact ⟨rfl, rfl⟩
    have within : ¬ base.Offers entry' → (∀ link ∈ rest, inside link) ∧ inside target ∧
        (leftover evaluator final).lookup target = .ok ⟨.evaluated, value⟩ ∧
        (entry = target ∨ (leftover evaluator final).LinksTo entry target) := by
      intro old
      obtain ⟨isInside, inner⟩ := retraces.route_inside (retraces.old entries old).2 onward
      refine ⟨inner, isInside, trail.left_value (trail.poised.sound.2 _ rfl) isWhnf, ?_⟩
      cases onward with
      | here => exact .inl rfl
      | link linked _ =>
        obtain ⟨state, linked⟩ := linked
        refine .inr ⟨state, trail.left_direct ?_ (trail.poised.sound.2 _ rfl) isWhnf⟩
        rw [heap, Heap.lookup_pointAll, if_pos (List.mem_append_right _ (.head _)), linked]
        rfl
    have landing := retraces.arrives twins regular each way entries stored isWhnf copied within
    rw [← heap] at landing
    exact retreads.lands regular (.refl pairs) stack landing fits'

/-- The repetition discovers what the call does, if the call leaves it unfinished. -/
theorem discovers {root root' node : Handle} {links : List Handle} {expr : Expr} {env : Env}
    (retreads : Retreads base names evaluator evaluator' known inside held pairs (.force root) (.force root') left right)
    (twins : (leftover evaluator final).Twins Eq known names base) (regular : base.Regular)
    (trail : Trail start evaluator last final count (.force root) left)
    (found : Discovers left.world.heap [] root links node expr env)
    (unfinished : inside node → ∃ slotState, (leftover evaluator final).lookup node = .ok ⟨slotState, .thunk expr env⟩) :
    ∃ links' node' env', Discovers right.world.heap [] root' links' node' expr env' ∧ List.Forall₂ pairs links links' ∧
      pairs node node' ∧ (Node.thunk expr env).Alike known pairs (.thunk expr env') ∧
      (base.Offers node' ∨ base.lookup node' = .ok ⟨.unevaluated, .thunk expr env'⟩) := by
  have retraces := retreads.abreast.heaps
  have unclaimed := found.live
  cases retreads.controls with
  | force both =>
    obtain ⟨copies, copies', rest, entry, entry', rfl, each, way, entries, onward, ends⟩ :=
      retraces.route both (Heap.follow_route found)
    by_cases copy : base.Offers entry'
    · obtain rfl := ends copy
      cases onward with
      | here =>
        obtain ⟨slot, ⟨state', content'⟩, here, there, states, nodes⟩ := retraces.copied entries copy
        cases unclaimed.symm.trans here
        cases states
        cases nodes with
        | @thunk _ _ env' code bound =>
          refine ⟨copies', entry', env', way.follow there (by simp [Node.tag]), ?_, entries, .thunk code bound, .inl copy⟩
          rw [List.append_nil]
          exact each.imp fun _ _ both => both.1
    · obtain ⟨name, isInside⟩ := retraces.old entries copy
      obtain ⟨isInside', inner⟩ := retraces.route_inside isInside onward
      obtain ⟨slotState, unfinished⟩ := unfinished isInside'
      obtain rfl := trail.left_unclaimed unclaimed unfinished
      obtain ⟨node', rest', way', name', each'⟩ := twins.route name (trail.left_pending unfinished ⟨_, unclaimed⟩ onward)
      obtain ⟨⟨state', content'⟩, there, states, nodes⟩ := twins.ok name' unfinished
      cases states
      have nodes := retraces.alike (retraces.references isInside' unclaimed) nodes
      have both' := retraces.joins name' isInside'
      have unheld : ¬ held node' := by
        intro isHeld
        obtain ⟨_, _, busy⟩ := trail.poised.held.thunk ((retreads.marked_iff both').mpr (retreads.answered node' isHeld))
        cases unclaimed.symm.trans busy
      have there' := (retraces.kept (twins.granted name').2 unheld _).mpr there
      have onward' : right.world.heap.Route node' rest' entry' := by
        refine way'.mono fun link member => ?_
        obtain ⟨original, _, name⟩ := forall₂_mem_right each' member
        obtain ⟨_, state, linked⟩ := way'.linksTo member
        rw [linked]
        exact (retraces.kept (twins.granted name).2 (retreads.unheld_link regular linked) _).mpr linked
      cases nodes with
      | @thunk _ _ env' code bound =>
        refine ⟨copies' ++ rest', node', env', (way.append onward').follow there' (by simp [Node.tag]), ?_, both', .thunk code bound,
          .inr there⟩
        refine List.rel_append (each.imp fun _ _ both => both.1) (Forall₂.narrow each' fun link link' member name => ?_)
        exact retraces.joins name (inner link member)

theorem claims {root node : Handle} {links : List Handle} {expr : Expr} {env : Env}
    (retreads : Retreads base names evaluator evaluator' known inside held pairs (.force root) control' left right)
    (twins : (leftover evaluator final).Twins Eq known names base) (regular : base.Regular)
    (trail : Trail start evaluator last final count (.force root) left)
    (found : Discovers left.world.heap [] root links node expr env)
    (unfinished : inside node → ∃ slotState, (leftover evaluator final).lookup node = .ok ⟨slotState, .thunk expr env⟩)
    (claims : Claims evaluator.actor left.world.heap after.world.heap node expr env)
    (stack : after.stack.items = .update node :: redirection links ++ left.stack.items)
    (bounded : after.world.heap.maxNodes = left.world.heap.maxNodes)
    (fits' : Fits (iterate mute evaluator' control' right)) :
    KeepsUp base names evaluator evaluator' known control' right (.eval expr env) after := by
  have retraces := retreads.abreast.heaps
  have controls := retreads.controls
  cases controls with
  | @force _ root' _ =>
    obtain ⟨links', node', env', found', each, both, nodes, origin⟩ := retreads.discovers twins regular trail found unfinished
    rcases force_claims mute evaluator' found' with halts | ⟨after', stepped', stack', claims'⟩
    · exact Or.inl halts
    rw [Fits, stepped'] at fits'
    obtain ⟨poised, unawaited, bounded'⟩ := retreads.onward regular (by simp) stepped' fits' (by simp)
    have unbounded := And.intro (bounded.trans retraces.unbounded.1) (bounded'.trans retraces.unbounded.2)
    have frames : List.Forall₂ (Frame.Alike known pairs) after.stack.items after'.stack.items := by
      rw [stack, stack']
      exact .cons (.update both) (List.rel_append (redirection_alike each) retreads.abreast.frames)
    have markers : ∀ other, .update other ∈ after'.stack.items ↔ other = node' ∨ .update other ∈ right.stack.items := by
      intro other
      rw [stack', List.cons_append, List.mem_cons, List.mem_append, Frame.update.injEq]
      exact or_congr_right ⟨fun member => member.resolve_left (update_notMem_redirection other links'), .inr⟩
    have next : (Control.eval expr env).Alike known pairs (.eval expr env') := by
      cases nodes with
      | thunk code bound => exact .eval code bound
    by_cases copy : base.Offers node'
    · refine Or.inr ⟨_, after', inside, held, pairs, stepped', ⟨retraces.rewrites both copy claims claims'
        ⟨.inProgress (.inl ⟨rfl, rfl⟩), nodes⟩ unbounded, frames, fun strict => absurd trivial strict⟩, next, fun other member => ?_,
        fun other isHeld => (markers other).mpr (.inr (retreads.answered other isHeld)), poised, unawaited⟩
      rcases (markers other).mp member with rfl | member
      · exact .inl copy
      · exact retreads.marked other member
    · refine Or.inr ⟨_, after', inside, _, pairs, stepped', ⟨retraces.claims both copy claims claims' (origin.resolve_left copy)
        unbounded, frames, fun strict => absurd trivial strict⟩, next, fun other member => ?_, fun other isHeld => ?_, poised, unawaited⟩
      · rcases (markers other).mp member with rfl | member
        · exact .inr (.inr rfl)
        · exact (retreads.marked other member).imp_right .inl
      · refine (markers other).mpr ?_
        rcases isHeld with isHeld | rfl
        · exact .inr (retreads.answered other isHeld)
        · exact .inl rfl

end Retreads

end Machine

end LazyGraph

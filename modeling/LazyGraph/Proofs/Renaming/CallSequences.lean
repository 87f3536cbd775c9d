import LazyGraph.Proofs.Renaming.Collection

/-! Calls one after the other, each for a handle that was seen before.

A tour forces handles, and sees the results and their fields. What it reports of each call is
the kind of its fault, or the tag and the head of its result. Tours through twin heaps report
the same, and see handles that stand for each other. -/

set_option autoImplicit false

namespace LazyGraph

/-! ### What is seen -/

/-- The fields of the value at the end of the chain, if it is a constructor's. -/
def Heap.fieldsOf (heap : Heap) (handle : Handle) : List Handle :=
  match heap.value handle with
  | .ok (some (.data _ _ fields)) => fields
  | _ => []

-- What is told of a call.
abbrev Report := Except Fault.Kind (Option Tag × Option Head)

def Heap.report (heap : Heap) : Except Fault Handle → Report
  | .ok result => .ok ((heap.tag result).toOption, heap.head? result)
  | .error fault => .error fault.kind

-- What is seen after a call that was not.
def Heap.newlySeen (heap : Heap) : Except Fault Handle → List Handle
  | .ok result => result :: heap.fieldsOf result
  | .error _ => []

section

variable {peers : Actor → Actor → Prop} {known : Handle → Prop} {pairs : Pairing} {left right : Heap}
  {handle handle' : Handle}

namespace Heap.Twins

theorem resolveSlot (twins : left.Twins peers known pairs right) (both : pairs handle handle') :
    Coincide (fun found found' => found.2.Alike peers known pairs found'.2) (left.resolveSlot handle)
      (right.resolveSlot handle') := by
  obtain ⟨_, landing⟩ := twins.followOn .nil (List.forall_mem_nil _) both
  unfold Heap.resolveSlot follow
  generalize (left.followOn [] handle).landing = landed at landing ⊢
  generalize (right.followOn [] handle').landing = landed' at landing ⊢
  cases landing with
  | «at» _ alike => exact alike
  | loop _ => exact rfl
  | broken kind => exact kind

theorem head?_eq (twins : left.Twins peers known pairs right) (both : pairs handle handle') :
    left.head? handle = right.head? handle' := by
  have found := twins.resolveSlot both
  unfold Heap.head? Heap.value
  generalize left.resolveSlot handle = outcome at found ⊢
  generalize right.resolveSlot handle' = outcome' at found ⊢
  cases outcome <;> cases outcome'
  · rfl
  · cases found
  · cases found
  · rename_i place place'
    obtain ⟨_, _, node⟩ := place
    obtain ⟨_, _, node'⟩ := place'
    have nodes : node.Alike known pairs node' := found.node
    cases nodes with
    | data each => simp [Except.map, Node.value?, Value.head, each.length_eq]
    | function _ each => simp [Except.map, Node.value?, Value.head, Lambda.remaining, each.length_eq]
    | _ => rfl

theorem fieldsOf (twins : left.Twins peers known pairs right) (both : pairs handle handle') :
    List.Forall₂ pairs (left.fieldsOf handle) (right.fieldsOf handle') := by
  have found := twins.resolveSlot both
  unfold Heap.fieldsOf Heap.value
  generalize left.resolveSlot handle = outcome at found ⊢
  generalize right.resolveSlot handle' = outcome' at found ⊢
  cases outcome <;> cases outcome'
  · exact .nil
  · cases found
  · cases found
  · rename_i place place'
    obtain ⟨_, _, node⟩ := place
    obtain ⟨_, _, node'⟩ := place'
    have nodes : node.Alike known pairs node' := found.node
    cases nodes with
    | data each => exact each
    | _ => exact .nil

theorem report_eq (twins : left.Twins peers known pairs right) {result result' : Except Fault Handle}
    (results : Coincide pairs result result') : left.report result = right.report result' := by
  cases result <;> cases result'
  · exact congrArg Except.error results
  · cases results
  · cases results
  · rename_i handle handle'
    have tags : (left.tag handle).toOption = (right.tag handle').toOption := by
      have slots := twins.slots results
      unfold Heap.tag Heap.node
      generalize left.lookup handle = outcome at slots ⊢
      generalize right.lookup handle' = outcome' at slots ⊢
      cases outcome <;> cases outcome'
      · rfl
      · cases slots
      · cases slots
      · exact congrArg some (Slot.Alike.node slots).tag.symm
    simp only [Heap.report, tags, twins.head?_eq results]

theorem newlySeen (twins : left.Twins peers known pairs right) {result result' : Except Fault Handle}
    (results : Coincide pairs result result') : List.Forall₂ pairs (left.newlySeen result) (right.newlySeen result') := by
  cases result <;> cases result'
  · exact .nil
  · cases results
  · cases results
  · exact .cons results (twins.fieldsOf results)

end Heap.Twins

end

/-! ### Tours -/

/-- A call to be made: by whom, and for which of the handles seen so far. -/
structure Errand where
  evaluator : Evaluator
  place : Nat

structure Tour (σ : Type) where
  seen : List Handle
  reports : List Report
  state : State σ

namespace Tour

open Machine

variable {σ : Type} {host host' : Host σ} {tour tour' : Tour σ} {fuel : Nat}

/-- One call; none if `fuel` transitions do not end it. -/
def call (host : Host σ) (fuel : Nat) (tour : Tour σ) (errand : Errand) : Option (Tour σ) :=
  match tour.seen[errand.place]? with
  | none => some tour
  | some root => (force host errand.evaluator fuel root tour.state).map fun (result, after) =>
    { seen := tour.seen ++ after.world.heap.newlySeen result
      reports := tour.reports ++ [after.world.heap.report result]
      state := after }

def run (host : Host σ) (fuel : Nat) (tour : Tour σ) (errands : List Errand) : Option (Tour σ) :=
  errands.foldlM (call host fuel) tour

/-- No heap in the course of the calls outgrows what handles can address. -/
def Spacious (host : Host σ) (fuel : Nat) : List Errand → Tour σ → Prop
  | [], _ => True
  | errand :: errands, tour =>
    (∀ root, tour.seen[errand.place]? = some root →
      Roomy (iterate host errand.evaluator) (.force root) (begin errand.evaluator tour.state)) ∧
    ∀ next, tour.call host fuel errand = some next → Spacious host fuel errands next

/-- The tours have seen and reported the same, and go on in twin heaps. -/
structure Alike (known : Handle → Prop) (pairs : Pairing) (tour tour' : Tour σ) : Prop where
  seen : List.Forall₂ pairs tour.seen tour'.seen
  reports : tour.reports = tour'.reports
  abreast : Abreast False known (Heap.Twins Eq known) pairs tour.state tour'.state

variable {known : Handle → Prop} {pairs : Pairing}

theorem call_alike (alike : tour.Alike known pairs tour') (errand : Errand)
    (roomy : ∀ root, tour.seen[errand.place]? = some root →
      Roomy (iterate host errand.evaluator) (.force root) (begin errand.evaluator tour.state))
    (roomy' : ∀ root, tour'.seen[errand.place]? = some root →
      Roomy (iterate host' errand.evaluator) (.force root) (begin errand.evaluator tour'.state)) :
    Option.Rel (fun next next' => ∃ pairs', pairs.Extends pairs' ∧ Alike known pairs' next next')
      (tour.call host fuel errand) (tour'.call host' fuel errand) := by
  unfold call
  rcases forall₂_getElem? alike.seen errand.place with ⟨root, root', here, here', both⟩ | ⟨absent, absent'⟩
  · have same : Peers False Eq errand.evaluator errand.evaluator :=
      ⟨fun _ _ _ _ => by rintro rfl rfl; exact Iff.rfl, rfl, fun _ => rfl, fun _ => rfl⟩
    have forced := force_concur same alike.abreast both (roomy root here) (roomy' root' here') fuel
    rw [here, here']
    dsimp only
    generalize force host errand.evaluator fuel root tour.state = ended at forced ⊢
    generalize force host' errand.evaluator fuel root' tour'.state = ended' at forced ⊢
    cases forced with
    | none => exact .none
    | some outcome =>
      obtain ⟨pairs', wider, abreast, results⟩ := outcome
      have twins := abreast.heaps
      refine .some ⟨pairs', wider, ?_, ?_, abreast⟩
      · exact List.rel_append (alike.seen.imp wider) (twins.newlySeen results)
      · simp only [alike.reports, twins.report_eq results]
  · rw [absent, absent']
    exact .some ⟨pairs, .refl pairs, alike⟩

theorem run_alike (alike : tour.Alike known pairs tour') (errands : List Errand) (spacious : Spacious host fuel errands tour)
    (spacious' : Spacious host' fuel errands tour') :
    Option.Rel (fun last last' => ∃ pairs', pairs.Extends pairs' ∧ Alike known pairs' last last')
      (tour.run host fuel errands) (tour'.run host' fuel errands) := by
  induction errands generalizing tour tour' pairs with
  | nil => exact .some ⟨pairs, .refl pairs, alike⟩
  | cons errand errands ih =>
    have called : Option.Rel _ (tour.call host fuel errand) (tour'.call host' fuel errand) :=
      call_alike alike errand spacious.1 spacious'.1
    have unfolds : ∀ (host : Host σ) (tour : Tour σ), tour.run host fuel (errand :: errands) =
        (tour.call host fuel errand).bind fun next => next.run host fuel errands := fun _ _ => List.foldlM_cons
    have later := spacious.2
    have later' := spacious'.2
    rw [unfolds, unfolds]
    generalize tour.call host fuel errand = next at called later ⊢
    generalize tour'.call host' fuel errand = next' at called later' ⊢
    cases called with
    | none => exact .none
    | @some next next' both =>
      obtain ⟨pairs', wider, alike'⟩ := both
      have rest := ih alike' (later next rfl) (later' next' rfl)
      simp only [Option.bind_some]
      generalize next.run host fuel errands = last at rest ⊢
      generalize next'.run host' fuel errands = last' at rest ⊢
      cases rest with
      | none => exact .none
      | some both =>
        obtain ⟨pairs'', wider', alike''⟩ := both
        exact .some ⟨pairs'', wider.trans wider', alike''⟩

/-- Collection is transparent: what there is to see of a handle under the roots stays as it was,
and calls come to the same results as without the collection. Handles from before keep
their names; those of later nodes are renamed. -/
theorem collect_transparent {state : State σ} {roots seen : List Handle} (idle : state.stack.items = [])
    (kept : ∀ handle ∈ seen, state.world.heap.Under (· ∈ state.world.heap.roots.map Prod.fst ++ roots) handle)
    (collectable : state.world.heap.Collectable (· ∈ seen)) :
    (∀ handle ∈ seen, state.world.heap.Looks (state.world.collect roots).2.heap handle) ∧
    ∀ (host : Host σ) (fuel : Nat) (errands : List Errand), Spacious host fuel errands ⟨seen, [], state⟩ →
      Spacious host fuel errands ⟨seen, [], { state with world := (state.world.collect roots).2 }⟩ →
      ∃ pairs : Pairing, OneToOne pairs ∧
        (∀ handle, state.world.heap.Under (· ∈ seen) handle → pairs handle handle) ∧
        Option.Rel (fun last last' => last.reports = last'.reports ∧ List.Forall₂ pairs last.seen last'.seen)
          (run host fuel ⟨seen, [], state⟩ errands)
          (run host fuel ⟨seen, [], { state with world := (state.world.collect roots).2 }⟩ errands) := by
  constructor
  · exact fun handle member => (collectable.agreeOn kept).looks (.inl member)
  · intro host fuel errands spacious spacious'
    have twins := collectable.twins kept
    have alike : Alike (state.world.heap.Under (· ∈ seen))
        (fun handle handle' => state.world.heap.Under (· ∈ seen) handle ∧ handle = handle') ⟨seen, [], state⟩
        ⟨seen, [], { state with world := (state.world.collect roots).2 }⟩ := by
      refine ⟨List.forall₂_same.mpr fun handle member => ⟨.inl member, rfl⟩, rfl, twins, ?_, fun _ => rfl⟩
      simp only [idle]
      exact .nil
    have ran := run_alike alike errands spacious spacious'
    generalize run host fuel ⟨seen, [], state⟩ errands = last at ran ⊢
    generalize run host fuel ⟨seen, [], { state with world := (state.world.collect roots).2 }⟩ errands = last' at ran ⊢
    cases ran with
    | none => exact ⟨_, twins.exactly, twins.named, .none⟩
    | some both =>
      obtain ⟨pairs, wider, seen, reports, abreast⟩ := both
      exact ⟨pairs, abreast.heaps.exactly, abreast.heaps.named, .some ⟨reports, seen⟩⟩

/-! ### A box whose content is computed after the collection -/

def withinLimits (host : Host σ) (fuel : Nat) : List Errand → Tour σ → Bool
  | [], _ => true
  | errand :: errands, tour =>
    (match tour.seen[errand.place]? with
      | some root => Machine.withinLimits (iterate host errand.evaluator) fuel (.force root)
          (begin errand.evaluator tour.state)
      | none => true) &&
    match tour.call host fuel errand with
    | some next => withinLimits host fuel errands next
    | none => true

theorem spacious_of_within {errands : List Errand} (within : withinLimits host fuel errands tour) :
    Spacious host fuel errands tour := by
  induction errands generalizing tour with
  | nil => trivial
  | cons errand errands ih =>
    obtain ⟨here, rest⟩ := Bool.and_eq_true_iff.mp within
    refine ⟨fun root present => ?_, fun next called => ?_⟩
    · rw [present] at here
      exact (unlimited_of_within here).roomy
    · rw [called] at rest
      exact ih rest

def boxed : Expr :=
  ⟨1, .data 0 "Box" [⟨2, .primitive .intAdd [⟨3, .int 1⟩, ⟨4, .int 2⟩]⟩]⟩

-- A number that nothing leads to, and a thunk for a box.
def boxCall : Evaluator × State Unit :=
  let stray := Heap.alloc (.int 7) (.ofSettings {})
  start ⟨(Heap.alloc (.thunk boxed []) stray.state).state, 0, [], #[], ()⟩ {} none

-- Force the box, and then its content.
def boxErrands : List Errand :=
  [⟨boxCall.1, 0⟩, ⟨boxCall.1, 2⟩]

theorem boxCall_live {handle : Handle} {slot : Slot} (found : boxCall.2.world.heap.lookup handle = .ok slot) :
    slot = ⟨.evaluated, .int 7⟩ ∨ slot = ⟨.unevaluated, .thunk boxed []⟩ := by
  have slots : boxCall.2.world.heap.entries.toList.map Entry.slot =
      [some ⟨.evaluated, .int 7⟩, some ⟨.unevaluated, .thunk boxed []⟩] := rfl
  simpa [slots] using slot_mem_of_lookup found

-- The parts of the code, each under its own label.
inductive BoxedPart : Expr → Prop where
  | box : BoxedPart boxed
  | sum : BoxedPart ⟨2, .primitive .intAdd [⟨3, .int 1⟩, ⟨4, .int 2⟩]⟩
  | one : BoxedPart ⟨3, .int 1⟩
  | two : BoxedPart ⟨4, .int 2⟩

theorem BoxedPart.children {e child : Expr} (part : BoxedPart e) (member : child ∈ e.children) : BoxedPart child := by
  cases part with
  | box =>
    obtain rfl := List.mem_singleton.mp member
    exact .sum
  | sum =>
    rcases List.mem_pair.mp member with rfl | rfl
    · exact .one
    · exact .two
  | one | two => cases member

theorem BoxedPart.of_part {part e : Expr} (inside : Expr.Part part e) (whole : BoxedPart e) : BoxedPart part := by
  induction inside with
  | whole => exact whole
  | child member _ ih => exact ih (whole.children member)

theorem boxCall_oneLabel : boxCall.2.world.heap.OneLabel := by
  have among : ∀ {e}, boxCall.2.world.heap.HoldsCode e → BoxedPart e := by
    intro e held
    induction held with
    | node live runs =>
      rcases boxCall_live live with rfl | rfl <;> cases runs
      exact .box
    | child _ member ih => exact ih.children member
  intro e e' held held' same
  cases among held <;> cases among held' <;> first | rfl | cases same

theorem boxCall_under {handle : Handle} (under : boxCall.2.world.heap.Under (· ∈ [⟨1, 0⟩]) handle) :
    boxCall.2.world.heap.Live handle := by
  rcases under with root | ⟨source, _, edge⟩
  · obtain rfl := List.mem_singleton.mp root
    exact ⟨_, rfl⟩
  · cases edge with
    | held live member => rcases boxCall_live live with rfl | rfl <;> cases member
    | named live runs names =>
      rcases boxCall_live live with rfl | rfl <;> cases runs
      cases names with
      | data member inside =>
        obtain rfl := List.mem_singleton.mp member
        cases inside with
        | primitive member inside => rcases List.mem_pair.mp member with rfl | rfl <;> cases inside

theorem boxCall_collectable : boxCall.2.world.heap.Collectable (· ∈ [⟨1, 0⟩]) := by
  have free : boxCall.2.world.heap.FreeListSound := ⟨nofun, .nil⟩
  have code : ∀ {handle slot code}, boxCall.2.world.heap.lookup handle = .ok slot → slot.node.code? = some code →
      code = boxed := by
    intro handle slot code found runs
    rcases boxCall_live found with rfl | rfl <;> cases runs
    rfl
  refine ⟨free, by decide, rfl, rfl, boxCall_oneLabel, ?_, fun under => (boxCall_under under).issued free, ?_, ?_⟩
  · have entries : boxCall.2.world.heap.entries =
        #[⟨0, some ⟨.evaluated, .int 7⟩⟩, ⟨0, some ⟨.unevaluated, .thunk boxed []⟩⟩] := rfl
    intro entry member
    rw [entries] at member
    rcases List.mem_pair.mp (Array.mem_toList_iff.mpr member) with rfl | rfl <;> decide
  · intro handle slot code' _ found runs part fn args inside
    obtain rfl := code found runs
    cases BoxedPart.of_part inside .box <;> nofun
  · intro handle slot code' part bindings body _ found runs inside form
    obtain rfl := code found runs
    cases BoxedPart.of_part inside .box <;> cases form

-- Marking reaches the thunk alone.
theorem boxCall_traced : boxCall.2.world.heap.trace (boxCall.2.world.heap.roots.map Prod.fst ++ [⟨1, 0⟩]) =
    ((Arena.ofEntries boxCall.2.world.heap.entries).mark 1, 1) :=
  @Heap.trace_leaf _ ⟨1, 0⟩ ⟨.unevaluated, .thunk boxed []⟩ rfl (by decide +kernel)

theorem collect_transparent_box :
    ∃ last last', run failingHost 20 ⟨[⟨1, 0⟩], [], boxCall.2⟩ boxErrands = some last ∧
      run failingHost 20 ⟨[⟨1, 0⟩], [], { boxCall.2 with world := (boxCall.2.world.collect [⟨1, 0⟩]).2 }⟩ boxErrands = some last' ∧
      last.reports = [.ok (some .data, some (.data 0 "Box" 1)), .ok (some .int, some (.int 3))] ∧
      last'.reports = last.reports ∧
      ∃ pairs : Pairing, OneToOne pairs ∧ pairs ⟨1, 0⟩ ⟨1, 0⟩ ∧ pairs ⟨2, 0⟩ ⟨0, 1⟩ := by
  have kept : ∀ handle ∈ [(⟨1, 0⟩ : Handle)], boxCall.2.world.heap.Under
      (· ∈ boxCall.2.world.heap.roots.map Prod.fst ++ [⟨1, 0⟩]) handle :=
    fun handle member => .inl (List.mem_append_right _ member)
  obtain ⟨_, calls⟩ := collect_transparent rfl kept boxCall_collectable
  have within' : withinLimits failingHost 20 boxErrands
      ⟨[⟨1, 0⟩], [], { boxCall.2 with world := (boxCall.2.world.collect [⟨1, 0⟩]).2 }⟩ := by
    simp only [World.collect, Heap.collect, boxCall_traced]
    decide +kernel
  obtain ⟨pairs, exactly, fixed, ran⟩ := calls failingHost 20 boxErrands (spacious_of_within (by decide +kernel))
    (spacious_of_within within')
  have computed : (run failingHost 20 ⟨[⟨1, 0⟩], [], boxCall.2⟩ boxErrands).map (fun last => (last.seen, last.reports)) =
      some ([⟨1, 0⟩, ⟨1, 0⟩, ⟨2, 0⟩, ⟨2, 0⟩],
        [.ok (some .data, some (.data 0 "Box" 1)), .ok (some .int, some (.int 3))]) := by
    with_unfolding_all rfl
  have computed' : (run failingHost 20 ⟨[⟨1, 0⟩], [],
      { boxCall.2 with world := (boxCall.2.world.collect [⟨1, 0⟩]).2 }⟩ boxErrands).map Tour.seen =
      some [⟨1, 0⟩, ⟨1, 0⟩, ⟨0, 1⟩, ⟨0, 1⟩] := by
    simp only [World.collect, Heap.collect, boxCall_traced]
    decide +kernel
  obtain ⟨last, ended, facts⟩ := Option.map_eq_some_iff.mp computed
  obtain ⟨last', ended', seen'⟩ := Option.map_eq_some_iff.mp computed'
  simp only [Prod.mk.injEq] at facts
  obtain ⟨seen, reports⟩ := facts
  rw [ended, ended'] at ran
  cases ran with
  | some both =>
    obtain ⟨same, each⟩ := both
    rw [seen, seen'] at each
    simp only [List.forall₂_cons] at each
    exact ⟨last, last', ended, ended', reports, same.symm, pairs, exactly, each.1, each.2.2.1⟩

end Tour

end LazyGraph

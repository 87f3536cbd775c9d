import LazyGraph.Proofs.Lapses.Company
import LazyGraph.Proofs.Lapses.Quiet
import LazyGraph.Proofs.Lapses.Records

/-! Scripts that keep a promise whatever others do meanwhile.

A script meets a promise when it never lapses and ends as promised, where before each of its
actions others may have moved, and a host function may answer anything. Most actions only add
nodes or keep the books; a plan of such actions disturbs nothing that a promise could be
about. -/

set_option autoImplicit false

namespace LazyGraph.Lapses

open Machine Parallel

variable {σ α β γ : Type} {actor : Actor}

/-! ### Spots -/

/-- Where an evaluator is: what is around it, its records, how far it has come in completing a
node, and the slots that it has set aside. -/
structure Spot where
  surroundings : Surroundings
  records : List Record
  own : Phase
  mine : List Handle

namespace Spot

def heap (spot : Spot) : Heap := spot.surroundings.heap

def Orderly (spot : Spot) (actor : Actor) : Prop :=
  spot.surroundings.Orderly actor spot.own spot.mine

/-- What is left of the spot when the evaluator has acted. -/
def acted (spot : Spot) (desk : Desk σ) (own : Phase) (mine : List Handle) : Spot :=
  ⟨{ spot.surroundings with heap := desk.world.heap }, desk.records, own, mine⟩

def become (spot : Spot) (heap : Heap) (own : Phase) (mine : List Handle) : Spot :=
  ⟨{ spot.surroundings with heap := heap }, spot.records, own, mine⟩

structure Later (actor : Actor) (before after : Spot) : Prop where
  records : after.records = before.records
  own : after.own = before.own
  mine : after.mine = before.mine
  orderly : after.Orderly actor
  respects : before.heap.Respects actor after.heap

variable {spot before middle after : Spot}

theorem acted_eq (spot : Spot) (desk : Desk σ) {heap : Heap} (sameHeap : desk.world.heap = heap) (records : desk.records = spot.records)
    (own : Phase) (mine : List Handle) : spot.acted desk own mine = spot.become heap own mine := by
  rw [acted, become, sameHeap, records]

theorem Later.refl (orderly : spot.Orderly actor) : Later actor spot spot :=
  ⟨rfl, rfl, rfl, orderly, .refl actor spot.heap⟩

theorem Later.trans (early : Later actor before middle) (late : Later actor middle after) : Later actor before after :=
  ⟨late.records.trans early.records, late.own.trans early.own, late.mine.trans early.mine, late.orderly,
    early.respects.trans late.respects⟩

end Spot

open Script Spot

/-! ### Promises -/

/-- Whatever happens between its actions, the script does not lapse, and gives what it promises. -/
def Meets (actor : Actor) (gives : α → Spot → Prop) : Script σ α → Spot → Prop
  | .ended value, spot => ∀ later, Later actor spot later → gives value later
  | .act action next, spot => ∀ later, Later actor spot later → ∀ desk : Desk σ, desk.world.heap = later.heap →
      desk.records = later.records → ∀ value after, action desk = .ok value after → after.world.heap.Addressable →
        ∃ own mine, (later.acted after own mine).Orderly actor ∧
          Meets actor gives (next value) (later.acted after own mine)
  | .ask _ _ next, spot => ∀ node later, Later actor spot later → Meets actor gives (next node) later
  | .lapse _, _ => False

namespace Meets

variable {gives : α → Spot → Prop} {between : β → Spot → Prop} {script : Script σ α} {spot before after : Spot}

theorem later (meets : Meets actor gives script before) (passed : Later actor before after) :
    Meets actor gives script after := by
  cases script with
  | ended value => exact fun last reaches => meets last (passed.trans reaches)
  | act action next => exact fun last reaches => meets last (passed.trans reaches)
  | ask fn operands next => exact fun node last reaches => meets node last (passed.trans reaches)
  | lapse branch => exact meets

theorem bind {first : Script σ β} {next : β → Script σ α} (orderly : spot.Orderly actor)
    (early : Meets actor between first spot)
    (late : ∀ {value later}, later.Orderly actor → between value later → Meets actor gives (next value) later) :
    Meets actor gives (first >>= next) spot := by
  induction first generalizing spot with
  | ended value => exact late orderly (early spot (.refl orderly))
  | act action rest ih =>
    intro later passed desk heap records value after ended fits
    obtain ⟨own, mine, orderly', meets⟩ := early later passed desk heap records value after ended fits
    exact ⟨own, mine, orderly', ih value orderly' meets⟩
  | ask fn operands rest ih => exact fun node later passed => ih node passed.orderly (early node later passed)
  | lapse branch => exact early.elim

theorem push {evaluator : Evaluator} {record : Record} {next : Unit → Script σ α}
    (rest : ∀ later, Later actor { spot with records := record :: spot.records } later → Meets actor gives (next ()) later) :
    Meets actor gives (Script.push evaluator record >>= next) spot := by
  intro later passed desk heap records value after ended fits
  unfold Desk.push at ended
  split at ended
  · cases ended
  · cases ended
    have here : later.acted { desk with records := record :: desk.records } later.own later.mine =
        { later with records := record :: later.records } :=
      acted_eq { later with records := record :: later.records } { desk with records := record :: desk.records } heap
        (congrArg (record :: ·) records) _ _
    refine ⟨later.own, later.mine, ?_, ?_⟩
    · rw [here]
      exact passed.orderly
    · rw [here]
      exact rest _ ⟨congrArg (record :: ·) passed.records, passed.own, passed.mine, passed.orderly, passed.respects⟩

theorem fails {action : MachineM σ β} {next : β → Script σ α} (failing : ∀ state, ∃ fault after, action state = .error fault after) :
    Meets actor gives (Script.once action >>= next) spot := by
  intro later _ desk _ _ value after ended _
  obtain ⟨fault, failed, same⟩ := failing desk.state
  simp [beside, same] at ended

end Meets

/-! ### Actions that disturb nothing -/

/-- Whoever has the heap in order finds it in order afterwards, and what the actor holds and the
values as they were. -/
structure Unobtrusive (actor : Actor) (before after : Heap) : Prop where
  grows : before.capacity ≤ after.capacity
  keeps : after.Addressable → ∀ {phase : Actor → Phase} {pledged mine : List Handle},
    Surroundings.Orderly ⟨before, phase, pledged⟩ actor .idle mine →
      Surroundings.Orderly ⟨after, phase, pledged⟩ actor .idle mine ∧ before.Respects actor after

namespace Unobtrusive

variable {before middle after : Heap}

theorem of_entries (entries : after.entries = before.entries) (free : after.free = before.free) :
    Unobtrusive actor before after where
  grows := Nat.le_of_eq (congrArg Array.size entries.symm)
  keeps := fun _ _ _ _ orderly => orderly.aside entries free

theorem trans (early : Unobtrusive actor before middle) (late : Unobtrusive actor middle after) :
    Unobtrusive actor before after where
  grows := Nat.le_trans early.grows late.grows
  keeps := by
    intro fits phase pledged mine orderly
    obtain ⟨orderly', respects⟩ := early.keeps (fits.mono late.grows) orderly
    obtain ⟨orderly'', respects'⟩ := late.keeps fits orderly'
    exact ⟨orderly'', respects.trans respects'⟩

theorem of_enlarges {added : List (Handle × Node)} (enlarges : Heap.Enlarges [] [] added before after) :
    Unobtrusive actor before after where
  grows := enlarges.grows
  keeps := fun fits _ _ _ orderly => orderly.enlarges enlarges fits (.refl _) (.refl _)

theorem alloc (actor : Actor) (node : Node) : Moves (Unobtrusive actor) (Heap.alloc node) := by
  intro heap
  rcases Heap.alloc_cases node heap with ⟨handle, after, ended, enlarges⟩ | ⟨limit, refused⟩
  · exact ended ▸ of_enlarges enlarges
  · exact refused ▸ of_entries rfl rfl

theorem allocGroup (actor : Actor) (count : UInt64) (build : List Handle → Heap → List Node × Heap)
    (leaves : ∀ handles heap, (build handles heap).2 = heap) :
    Moves (Unobtrusive actor) (Heap.allocGroup count build) := by
  intro heap
  rcases Heap.allocGroup_cases count build heap with ⟨_, ended⟩ | ⟨limit, ended⟩ | ⟨handles, opened, _, opens, ended⟩
  · exact ended ▸ of_entries rfl rfl
  · exact ended ▸ of_entries rfl rfl
  · rw [leaves] at ended
    rcases ended with ⟨after, _, ended, closes⟩ | ⟨fault, after, _, ended, closes⟩
    · exact ended ▸ of_enlarges (opens.trans closes)
    · exact ended ▸ of_enlarges (opens.trans closes)

theorem redirect (actor : Actor) (link target : Handle) : Moves (Unobtrusive actor) (Heap.redirect link target) := by
  intro heap
  cases answered : Heap.redirect link target heap with
  | error fault after =>
    have same : after = heap := by
      unfold Heap.redirect Heap.transition at answered
      split at answered
      · cases answered
        rfl
      · split at answered <;> cases answered
    exact same ▸ of_entries rfl rfl
  | ok done after =>
    rcases Shared.redirect_answer answered with ⟨_, rfl⟩ | ⟨_, state, old, rewrites⟩
    · exact of_entries rfl rfl
    · refine ⟨Nat.le_of_eq rewrites.capacity.symm, fun _ phase pledged mine orderly => ?_⟩
      have idle : (Surroundings.shared ⟨heap, phase, pledged⟩ actor .idle).phase actor = .idle := by
        simp [Surroundings.shared, Shared.enter]
      exact ⟨orderly.step (.redirect idle answered), .of_rewrites rewrites id (by simp [Node.tag, Tag.isWhnf])⟩

end Unobtrusive

def unobtrusive (actor : Actor) : HeapMotion where
  along := Unobtrusive actor
  trans := Unobtrusive.trans
  same := Unobtrusive.of_entries
  alloc := Unobtrusive.alloc actor
  allocGroup := Unobtrusive.allocGroup actor
  redirect := Unobtrusive.redirect actor

namespace Meets

variable {gives : α → Spot → Prop} {between : β → Prop} {spot : Spot} {plan : Plan σ β} {next : β → Script σ α}

/-- After an action that disturbs nothing the spot is as others might have left it. -/
theorem later_of_acted {action : MachineM σ β} {later : Spot} {desk after : Desk σ} {value : β}
    (works : Moves (Works (unobtrusive actor).along) action) (orderly : later.Orderly actor) (idle : later.own = .idle)
    (heap : desk.world.heap = later.heap) (records : desk.records = later.records)
    (ended : beside action desk = .ok value after) (fits : after.world.heap.Addressable) :
    Later actor later (later.acted after .idle later.mine) ∧ ∃ state, action desk.state = .ok value state := by
  have moved := (works desk.state).heap
  unfold beside at ended
  cases answered : action desk.state with
  | error fault state => simp [answered] at ended
  | ok value' state =>
    simp only [answered, EStateM.Result.ok.injEq] at ended
    obtain ⟨rfl, rfl⟩ := ended
    rw [answered] at moved
    have before : desk.state.world.heap = later.heap := heap
    rw [before] at moved
    have orderly : later.surroundings.Orderly actor .idle later.mine := idle ▸ orderly
    obtain ⟨orderly', respects⟩ := moved.keeps fits orderly
    exact ⟨⟨records, idle.symm, rfl, orderly', respects⟩, state, rfl⟩

/-- After a quiet plan the spot is as others might have left it. -/
theorem quiet (quiet : plan.Quiet (unobtrusive actor) between) (idle : spot.own = .idle) (orderly : spot.Orderly actor)
    (rest : ∀ value later, between value → Later actor spot later → Meets actor gives (next value) later) :
    Meets actor gives (ofPlan plan >>= next) spot := by
  induction plan generalizing spot with
  | ended value => exact rest value spot quiet (.refl orderly)
  | act action following ih =>
    intro later passed desk heap records value after ended fits
    obtain ⟨reached, state, answered⟩ :=
      later_of_acted quiet.1 passed.orderly (passed.own.trans idle) heap records ended fits
    refine ⟨.idle, later.mine, reached.orderly, ?_⟩
    exact ih value (quiet.2 _ value state answered) rfl reached.orderly fun value last given reaches =>
      rest value last given (passed.trans (reached.trans reaches))

end Meets

theorem ofPlan_bind (first : Plan σ β) (second : β → Plan σ γ) (next : γ → Script σ α) :
    (ofPlan (first >>= second) >>= next) = ofPlan first >>= fun value => ofPlan (second value) >>= next := by
  induction first with
  | ended value => rfl
  | act action following ih => exact congrArg (Script.act _) (funext ih)

/-! ### Groups and completions -/

variable {gives : α → Spot → Prop} {spot : Spot}

theorem Meets.onHeap {operation : HeapM β} {next : β → Script σ α}
    (each : ∀ later, Later actor spot later → ∀ value heap, operation later.heap = .ok value heap → heap.Addressable →
      ∃ own mine, (later.become heap own mine).Orderly actor ∧
        Meets actor gives (next value) (later.become heap own mine)) :
    Meets actor gives (.act (beside (Machine.onHeap operation)) next) spot := by
  intro later passed desk heap records value after ended fits
  unfold beside at ended
  cases answered : operation later.heap with
  | error fault heap' =>
    have stopped : operation desk.state.world.heap = .error fault heap' := heap ▸ answered
    simp [onHeap_error stopped] at ended
  | ok value' heap' =>
    have went : operation desk.state.world.heap = .ok value' heap' := heap ▸ answered
    simp only [onHeap_ok went, EStateM.Result.ok.injEq] at ended
    obtain ⟨rfl, rfl⟩ := ended
    obtain ⟨own, mine, met⟩ := each later passed value' heap' answered fits
    let after := desk.refresh { desk.state with world := { desk.world with heap := heap' } }
    have here : later.acted after own mine = later.become heap' own mine := acted_eq later after rfl records own mine
    exact ⟨own, mine, here ▸ met⟩

theorem Meets.read {look : Heap → Except Fault β} {next : β → Script σ α}
    (each : ∀ later, Later actor spot later → ∀ value, look later.heap = .ok value →
      ∃ own, (later.become later.heap own later.mine).Orderly actor ∧
        Meets actor gives (next value) (later.become later.heap own later.mine)) :
    Meets actor gives (.act (beside (do settle (look (← getHeap)))) next) spot := by
  intro later passed desk heap records value after ended fits
  have before : desk.state.world.heap = later.heap := heap
  have reads : (do settle (look (← getHeap)) : MachineM σ β) desk.state = settle (look later.heap) desk.state := by
    rw [bind_ok (rfl : getHeap desk.state = .ok desk.state.world.heap desk.state), before]
  unfold beside at ended
  rw [reads] at ended
  cases found : look later.heap with
  | error fault =>
    rw [found] at ended
    cases ended
  | ok value' =>
    rw [found] at ended
    cases ended
    obtain ⟨own, met⟩ := each later passed value found
    have here : later.acted (desk.refresh desk.state) own later.mine = later.become later.heap own later.mine :=
      acted_eq later _ heap records own later.mine
    exact ⟨own, later.mine, here ▸ met⟩

/-- While a group is being built its slots are the actor's own. -/
theorem Meets.allocGroup {count : UInt64} {build : List Handle → List Node} {next : List Handle → Script σ α}
    (orderly : spot.Orderly actor)
    (rest : ∀ handles later, Later actor spot later → Meets actor gives (next handles) later) :
    Meets actor gives (ofPlan (Parallel.allocGroup count build) >>= next) spot := by
  unfold Parallel.allocGroup
  split
  · exact rest [] spot (.refl orderly)
  refine Meets.onHeap fun later passed handles heap opened fits => ?_
  rcases Heap.openGroup_cases count later.heap with ⟨handles', heap', ended, length, opens⟩ | ⟨limit, refused⟩
  · cases opened.symm.trans ended
    obtain ⟨orderly', respects⟩ := passed.orderly.enlarges opens fits (.refl _)
      (List.append_assoc handles later.mine later.surroundings.pledged ▸ .refl _ :
        (handles ++ (later.mine ++ later.surroundings.pledged)).Perm ((handles ++ later.mine) ++ later.surroundings.pledged))
    refine ⟨later.own, handles ++ later.mine, orderly', ?_⟩
    refine Meets.onHeap fun last reaches _ heap' closed fits' => ?_
    rcases Heap.closeGroup_cases length (build handles) last.heap with ⟨after, _, ended', fills⟩ | ⟨after, _, ended', _⟩
    · cases closed.symm.trans ended'
      have mine : last.mine = handles ++ later.mine := reaches.mine
      have early : (last.mine ++ last.surroundings.pledged).Perm (handles ++ (later.mine ++ last.surroundings.pledged)) := by
        rw [mine, List.append_assoc]
      have closed := reaches.orderly.enlarges fills fits' early (.refl (later.mine ++ last.surroundings.pledged))
      obtain ⟨orderly'', respects'⟩ := closed
      refine ⟨last.own, later.mine, orderly'', rest handles _ ?_⟩
      exact passed.trans ⟨reaches.records, reaches.own, rfl, orderly'', respects.trans (reaches.respects.trans respects')⟩
    · cases closed.symm.trans ended'
  · cases opened.symm.trans refused


theorem Meets.bindAll {env : Env} {bindings : List Expr} {next : Env → Script σ α} (idle : spot.own = .idle)
    (orderly : spot.Orderly actor) (rest : ∀ scope later, Later actor spot later → Meets actor gives (next scope) later) :
    Meets actor gives (ofPlan (Parallel.bindAll env bindings) >>= next) spot := by
  rw [Parallel.bindAll, ofPlan_bind]
  refine Meets.allocGroup orderly fun handles later passed => ?_
  rw [ofPlan_bind]
  exact Meets.quiet (.settle _) (passed.own.trans idle) passed.orderly fun _ last _ reaches =>
    rest _ last (passed.trans reaches)

theorem Meets.complete {node : Handle} {payload : Node} {next : Bool → Script σ α} (idle : spot.own = .idle)
    (held : spot.heap.state node = .ok (.inProgress actor))
    (rest : ∀ later, later.Orderly actor → later.own = .idle → later.records = spot.records → later.mine = spot.mine →
      (∀ other, other ≠ node → spot.heap.state other = .ok (.inProgress actor) →
        later.heap.state other = .ok (.inProgress actor)) →
      (∀ handle content, content.tag.isWhnf → spot.heap.node handle = .ok content → later.heap.node handle = .ok content) →
      (payload.tag.isWhnf → later.heap.node node = .ok payload) →
      Meets actor gives (next true) later) :
    Meets actor gives (ofPlan (Parallel.complete node actor payload) >>= next) spot := by
  have split : (ofPlan (Parallel.complete node actor payload) >>= next : Script σ α) =
      .act (beside (do settle ((← getHeap).state node))) fun state =>
        if state = .inProgress actor then
          .act (beside (Machine.onHeap (Parallel.write node payload))) fun _ =>
            .act (beside (Machine.onHeap (Parallel.mark node))) fun _ => next true
        else .act (beside (Machine.onHeap (modify Heap.notify))) fun _ => next false :=
    congrArg (Script.act _) (funext fun state => by
      show (ofPlan (if _ then _ else _) >>= next) = _
      split <;> rfl)
  rw [split]
  -- the node is still held when the actor looks
  refine Meets.read fun first passed state found => ?_
  have held₁ := passed.respects.held held
  cases Except.ok.inj (found.symm.trans held₁)
  have idle₁ : (first.surroundings.shared actor first.own).phase actor = .idle :=
    (first.surroundings.phase_shared first.own).trans (passed.own.trans idle)
  refine ⟨.seen node payload, passed.orderly.proceed (.own idle₁ held₁ payload), ?_⟩
  rw [if_pos rfl]
  -- it writes the result
  refine Meets.onHeap fun second reaches _ heap wrote _ => ?_
  obtain ⟨⟨_, content⟩, found₂, rfl⟩ := Heap.lookup_of_state (reaches.respects.held held₁)
  cases wrote.symm.trans (write_ok found₂ payload)
  have seen : (second.surroundings.shared actor second.own).phase actor = .seen node payload :=
    (second.surroundings.phase_shared second.own).trans reaches.own
  have write := @Shared.Step.write (second.surroundings.shared actor second.own) actor node payload _ seen found₂
  have rewrites := Shared.write_rewrites found₂ payload
  refine ⟨.written node, second.mine, reaches.orderly.proceed write, ?_⟩
  -- and marks the node
  refine Meets.onHeap fun third follows _ heap marked _ => ?_
  have held₃ : third.heap.state node = .ok (.inProgress actor) :=
    follows.respects.held ((rewrites.state_of node).trans (if_pos rfl))
  obtain ⟨⟨_, content'⟩, found₃, rfl⟩ := Heap.lookup_of_state held₃
  cases marked.symm.trans (mark_ok found₃)
  have written : (third.surroundings.shared actor third.own).phase actor = .written node :=
    (third.surroundings.phase_shared third.own).trans follows.own
  have mark := @Shared.Step.mark (third.surroundings.shared actor third.own) actor node _ written found₃
  have rewrites' := Shared.mark_rewrites found₃
  refine ⟨.idle, third.mine, follows.orderly.proceed mark, ?_⟩
  refine rest _ (follows.orderly.proceed mark) rfl (follows.records.trans (reaches.records.trans passed.records))
    (follows.mine.trans (reaches.mine.trans passed.mine)) (fun other another holds => ?_)
    (fun handle content isWhnf found => ?_) (fun isWhnf => ?_)
  · have holds₂ := reaches.respects.held (passed.respects.held holds)
    have holds₃ := follows.respects.held ((rewrites.state_of other).trans ((if_neg another).trans holds₂))
    exact (rewrites'.state_of other).trans ((if_neg another).trans holds₃)
  · have found₂ := write.value reaches.orderly.steady isWhnf
      (reaches.respects.value isWhnf (passed.respects.value isWhnf found))
    exact mark.value follows.orderly.steady isWhnf (follows.respects.value isWhnf found₂)
  · have there := congrArg (Except.map Slot.node) ((rewrites.lookup node).trans (if_pos rfl))
    exact mark.value follows.orderly.steady isWhnf (follows.respects.value isWhnf there)

end LazyGraph.Lapses

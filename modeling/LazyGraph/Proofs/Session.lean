import LazyGraph.Proofs.Heap.Wraparound
import LazyGraph.Proofs.Machine.Assignment

/-! Whole sessions with one heap.

A session allocates, collects and makes calls, one after the other, and every transition
of a call is a moment of it. Host functions that run meanwhile can do what anybody with
the heap can do except collect: keep books, allocate, and make calls of their own. From the
first moment on, every slot is assigned once. -/

set_option autoImplicit false

namespace LazyGraph

inductive Heap.Uses : Heap → Heap → Prop where
  | books {before after : Heap} (entries : after.entries = before.entries) (free : after.free = before.free) :
      Uses before after
  | alloc (node : Node) (heap : Heap) : Uses heap (Heap.alloc node heap).state
  | allocGroup (count : UInt64) {build : List Handle → Heap → List Node × Heap}
      (inside : ∀ handles heap, Uses heap (build handles heap).2) (heap : Heap) :
      Uses heap (Heap.allocGroup count build heap).state
  | force {σ : Type} {host : Host σ} {evaluator : Evaluator} {fuel : Nat} {root : Handle} {state after : State σ}
      {result : Except Fault Handle}
      (inside : ∀ fn operands world, Uses world.heap (host.call fn operands world).state.heap)
      (idle : state.stack.items = []) (ended : Machine.force host evaluator fuel root state = some (result, after)) :
      Uses state.world.heap after.world.heap
  | trans {first second third : Heap} (early : Uses first second) (late : Uses second third) : Uses first third

theorem Heap.Uses.advances {before after : Heap} (uses : before.Uses after) : before.Advances after := by
  induction uses with
  | books entries free => exact .of_entries entries free
  | alloc node heap => exact alloc_advances node heap
  | allocGroup count _ heap inside => exact allocGroup_advances count inside heap
  | force _ idle ended inside => exact Machine.force_advances inside idle ended
  | trans _ _ early late => exact early.trans late

structure Call (σ : Type) where
  host : Host σ
  uses : host.KeepsTo Heap.Uses
  evaluator : Evaluator
  control : Control
  state : State σ

inductive Moment (σ : Type) where
  | resting (world : World σ)
  | calling (call : Call σ)

namespace Moment

variable {σ : Type} {now next later : Moment σ} {handle : Handle}

def heap : Moment σ → Heap
  | .resting world => world.heap
  | .calling call => call.state.world.heap

def OnHeap (world : World σ) (heap : Heap) : Moment σ :=
  .resting { world with heap := heap }

/-- What happens next. Any evaluator may make the next call, with any host. -/
inductive Step : Moment σ → Moment σ → Prop where
  | alloc (world : World σ) (node : Node) : Step (.resting world) (OnHeap world (Heap.alloc node world.heap).state)
  | allocGroup (world : World σ) (count : UInt64) {build : List Handle → Heap → List Node × Heap}
      (inside : ∀ handles heap, Heap.Uses heap (build handles heap).2) :
      Step (.resting world) (OnHeap world (Heap.allocGroup count build world.heap).state)
  | collect (world : World σ) (roots : List Handle) : Step (.resting world) (.resting (world.collect roots).2)
  | books {before after : World σ} (entries : after.heap.entries = before.heap.entries)
      (free : after.heap.free = before.heap.free) : Step (.resting before) (.resting after)
  | begin {host : Host σ} (uses : host.KeepsTo Heap.Uses) (evaluator : Evaluator) (root : Handle) {state : State σ}
      (idle : state.stack.items = []) :
      Step (.resting state.world) (.calling ⟨host, uses, evaluator, .force root, Machine.begin evaluator state⟩)
  | iterate {call : Call σ} {control : Control} {after : State σ}
      (stepped : Machine.iterate call.host call.evaluator call.control call.state = .ok (.continues control) after) :
      Step (.calling call) (.calling { call with control := control, state := after })
  | finish {call : Call σ} {handle : Handle} {after : State σ}
      (stepped : Machine.iterate call.host call.evaluator call.control call.state = .ok (.finished handle) after) :
      Step (.calling call) (.resting after.world)
  | fail {call : Call σ} {fault : Fault} {raised : State σ}
      (stepped : Machine.iterate call.host call.evaluator call.control call.state = .error fault raised) :
      Step (.calling call) (.resting (Machine.unwind call.evaluator fault raised).world)

inductive Reached (settings : HeapSettings) : Moment σ → Prop where
  | start {world : World σ} (empty : world.heap = .ofSettings settings) : Reached settings (.resting world)
  | step {now next : Moment σ} (reached : Reached settings now) (step : Step now next) : Reached settings next

/-- The session goes on, and the handle names a live node all the time. -/
inductive Stays (handle : Handle) (now : Moment σ) : Moment σ → Prop where
  | here {slot : Slot} (live : now.heap.lookup handle = .ok slot) : Stays handle now now
  | step {next later : Moment σ} {slot : Slot} (stays : Stays handle now next) (step : Step next later)
      (live : later.heap.lookup handle = .ok slot) : Stays handle now later

theorem Reached.force {settings : HeapSettings} {host : Host σ} {evaluator : Evaluator} {fuel : Nat} {root : Handle}
    {state after : State σ} {result : Except Fault Handle} (reached : Reached settings (.resting state.world))
    (uses : host.KeepsTo Heap.Uses) (idle : state.stack.items = [])
    (ended : Machine.force host evaluator fuel root state = some (result, after)) :
    Reached settings (.resting after.world) := by
  obtain ⟨count, control, last, standing, ends⟩ := Machine.force_ends ended
  have under : Reached settings (.calling ⟨host, uses, evaluator, control, last⟩) := by
    clear ends ended
    induction count generalizing control last with
    | zero =>
      cases standing
      exact reached.step (.begin uses evaluator root idle)
    | succ count ih =>
      obtain ⟨control', before, earlier, stepped⟩ := Machine.iterations_succ standing
      exact (ih control' before earlier).step (.iterate stepped)
  rcases ends with ⟨handle, _, finished⟩ | ⟨fault, raised, _, failed, rfl⟩
  · exact under.step (.finish finished)
  · exact under.step (.fail failed)

/-! ### What every moment keeps -/

def Sound : Moment σ → Prop
  | .resting world => world.heap.Regular
  | .calling call => ∃ start : Heap, start.Regular ∧ Machine.Poised start call.evaluator call.control call.state

theorem Sound.regular (sound : now.Sound) : now.heap.Regular := by
  cases now with
  | resting world => exact sound
  | calling call =>
    obtain ⟨start, regular, poised⟩ := sound
    exact poised.settles.regular regular

theorem keeps (call : Call σ) : call.host.KeepsTo Heap.Advances :=
  fun fn operands world => (call.uses fn operands world).advances

theorem Step.grows (step : Step now next) : now.heap.capacity ≤ next.heap.capacity := by
  cases step with
  | alloc world node => exact (Heap.alloc_advances node world.heap).grows
  | allocGroup world count inside =>
    exact (Heap.allocGroup_advances count (fun handles heap => (inside handles heap).advances) world.heap).grows
  | collect world roots => exact Nat.le_of_eq (world.heap.collect_sweeps roots).capacity.symm
  | books entries _ => exact Nat.le_of_eq (congrArg Array.size entries.symm)
  | begin uses evaluator root idle => exact Nat.le_refl _
  | @iterate call control after stepped =>
    have grows := Machine.iterate_grows (keeps call) call.evaluator call.control call.state
    rw [stepped] at grows
    exact grows
  | @finish call handle after stepped =>
    have grows := Machine.iterate_grows (keeps call) call.evaluator call.control call.state
    rw [stepped] at grows
    exact grows
  | @fail call fault raised stepped =>
    have grows := Machine.iterate_grows (keeps call) call.evaluator call.control call.state
    rw [stepped] at grows
    exact Nat.le_trans grows (Nat.le_of_eq (Machine.unwind_capacity call.evaluator fault raised).symm)

theorem Step.sound (step : Step now next) (sound : now.Sound) (fits : next.heap.Addressable) :
    next.Sound ∧ (now.heap.Assigns next.heap ∨ now.heap.Sweeps next.heap) := by
  have resting : ∀ {world : World σ}, next = .resting world → now.heap.Assigns world.heap →
      next.Sound ∧ (now.heap.Assigns next.heap ∨ now.heap.Sweeps next.heap) := by
    rintro world rfl assigns
    exact ⟨assigns.regular sound.regular, .inl assigns⟩
  cases step with
  | alloc world node =>
    exact resting rfl ((Heap.alloc_advances node world.heap).settles fits sound).toAssigns
  | allocGroup world count inside =>
    have advances := Heap.allocGroup_advances count (fun handles heap => (inside handles heap).advances) world.heap
    exact resting rfl (advances.settles fits sound).toAssigns
  | collect world roots =>
    have sweeps := world.heap.collect_sweeps roots
    have fits' : world.heap.Addressable := fits.mono (Nat.le_of_eq sweeps.capacity.symm)
    refine ⟨⟨sweeps.free fits' sound.free, fun found => sound.proper (sweeps.kept found)⟩, .inr sweeps⟩
  | books entries free => exact resting rfl (Heap.Settles.of_entries sound.free entries free).toAssigns
  | @begin host uses evaluator root state idle =>
    exact ⟨⟨state.world.heap, sound, .begin sound idle root⟩, .inl (Heap.Settles.refl sound.free).toAssigns⟩
  | @iterate call control after stepped =>
    obtain ⟨start, regular, poised⟩ := sound
    have left := Machine.iterate_leaves (keeps call) regular poised (stepped ▸ fits)
    have assigns := left.assigns
    rw [stepped] at assigns
    exact ⟨⟨start, regular, left.next _ _ stepped control rfl⟩, .inl assigns⟩
  | @finish call handle after stepped =>
    obtain ⟨start, regular, poised⟩ := sound
    have left := Machine.iterate_leaves (keeps call) regular poised (stepped ▸ fits)
    rw [stepped] at left
    exact resting rfl left.assigns
  | @fail call fault raised stepped =>
    obtain ⟨start, regular, poised⟩ := sound
    have fits' : raised.world.heap.Addressable :=
      fits.mono (Nat.le_of_eq (Machine.unwind_capacity call.evaluator fault raised).symm)
    have left := Machine.iterate_leaves (keeps call) regular poised (stepped ▸ fits')
    rw [stepped] at left
    exact resting rfl (left.assigns.trans (Machine.unwind_leaves fault left.settles left.held).1)

theorem Reached.sound {settings : HeapSettings} (reached : Reached settings now) (fits : now.heap.Addressable) :
    now.Sound := by
  induction reached with
  | @start world empty =>
    have regular : (Heap.ofSettings settings).Regular := ⟨⟨nofun, .nil⟩, fun found => by cases found⟩
    have sound : world.heap.Regular := empty ▸ regular
    exact sound
  | step _ step ih => exact (step.sound (ih (fits.mono step.grows)) fits).1

/-- A live handle names the slot it named, assigned once, and stands for the value it stood for. -/
structure Remains (handle : Handle) (before after : Heap) : Prop where
  slot : ∃ slot slot', before.lookup handle = .ok slot ∧ after.lookup handle = .ok slot' ∧ Slot.Assigns slot slot'
  value : ∀ {target content}, before.Resolves target handle → before.lookup target = .ok content →
    content.node.tag.isWhnf → after.Resolves target handle ∧ after.lookup target = .ok content

theorem Remains.refl {heap : Heap} {slot : Slot} (live : heap.lookup handle = .ok slot) :
    Remains handle heap heap :=
  ⟨⟨slot, slot, live, live, .refl slot⟩, fun resolves found _ => ⟨resolves, found⟩⟩

theorem Remains.trans {first second third : Heap} (early : Remains handle first second)
    (late : Remains handle second third) : Remains handle first third := by
  obtain ⟨slot, slot', found, found', change⟩ := early.slot
  obtain ⟨again, slot'', foundAgain, found'', change'⟩ := late.slot
  cases found'.symm.trans foundAgain
  refine ⟨⟨slot, slot'', found, found'', change.trans change'⟩, fun resolves live isWhnf => ?_⟩
  obtain ⟨resolves', live'⟩ := early.value resolves live isWhnf
  exact late.value resolves' live' isWhnf

theorem Remains.of_assigns {before after : Heap} {slot : Slot} (assigns : before.Assigns after)
    (live : before.lookup handle = .ok slot) : Remains handle before after := by
  obtain ⟨slot', live', change⟩ := assigns.kept.live live
  refine ⟨⟨slot, slot', live, live', change⟩, fun {target content} resolves found isWhnf => ?_⟩
  obtain ⟨content', found', change'⟩ := assigns.kept.live found
  rw [change'.whnf isWhnf] at found'
  have solid : after.Solid target := ⟨content, found', Tag.ne_indirection_of_whnf isWhnf⟩
  exact ⟨assigns.finds resolves solid, found'⟩

theorem Remains.of_sweeps {before after : Heap} {slot : Slot} (sweeps : before.Sweeps after)
    (live : after.lookup handle = .ok slot) : Remains handle before after := by
  refine ⟨⟨slot, slot, sweeps.kept live, live, .refl slot⟩, fun {target content} resolves found isWhnf => ?_⟩
  have resolves' := sweeps.resolves resolves live
  obtain ⟨content', found', _⟩ := resolves'.solid
  cases found.symm.trans (sweeps.kept found')
  exact ⟨resolves', found'⟩

theorem Stays.grows (stays : Stays handle now later) : now.heap.capacity ≤ later.heap.capacity := by
  induction stays with
  | here _ => exact Nat.le_refl _
  | step _ step _ ih => exact Nat.le_trans ih step.grows

theorem Stays.remains (stays : Stays handle now later) (sound : now.Sound) (fits : later.heap.Addressable) :
    later.Sound ∧ Remains handle now.heap later.heap := by
  induction stays with
  | here live => exact ⟨sound, .refl live⟩
  | step stays step live ih =>
    obtain ⟨sound', remains⟩ := ih (fits.mono step.grows)
    obtain ⟨sound'', assigns | sweeps⟩ := step.sound sound' fits
    · obtain ⟨_, slot, _, foundNow, _⟩ := remains.slot
      exact ⟨sound'', remains.trans (.of_assigns assigns foundNow)⟩
    · exact ⟨sound'', remains.trans (.of_sweeps sweeps live)⟩

/-- Single assignment. Take any moment of a session and a later one, and a handle that is
live from the one to the other. Its slot holds a thunk exactly while it is not evaluated;
once evaluated it stays so; a thunk stays the same until then; a value never changes; what
is no thunk is never claimed; an indirection changes its target at most; and once the
handle resolves to a value, it resolves to that value. -/
theorem slots_assigned_once {settings : HeapSettings} (reached : Reached settings now) (stays : Stays handle now later)
    (fits : later.heap.Addressable) :
    ∃ slot slot', now.heap.lookup handle = .ok slot ∧ later.heap.lookup handle = .ok slot' ∧
      (slot'.node.tag = .thunk ↔ slot'.state ≠ .evaluated) ∧
      (slot.state = .evaluated → slot'.state = .evaluated) ∧
      (slot.node.tag = .thunk → slot'.node = slot.node ∨ slot'.state = .evaluated) ∧
      (slot.node.tag.isWhnf → slot'.node = slot.node) ∧
      (slot.node.tag ≠ .thunk → ∀ owner, slot'.state ≠ .inProgress owner) ∧
      (∀ target, slot.node = .indirection target → ∃ target', slot'.node = .indirection target') ∧
      ∀ target content, now.heap.resolve handle = .ok target → now.heap.lookup target = .ok content →
        content.node.tag.isWhnf → later.heap.resolve handle = .ok target ∧ later.heap.lookup target = .ok content := by
  have sound := reached.sound (fits.mono stays.grows)
  obtain ⟨sound', remains⟩ := stays.remains sound fits
  obtain ⟨slot, slot', found, found', change⟩ := remains.slot
  have proper := sound.regular.proper found
  have proper' := sound'.regular.proper found'
  refine ⟨slot, slot', found, found', proper', change.done, ?thunk, ?whnf, ?unclaimed, ?link, ?value⟩
  case thunk => exact fun isThunk => (change.thunk isThunk).imp And.left And.left
  case whnf => exact fun isWhnf => congrArg Slot.node (change.whnf isWhnf)
  case unclaimed =>
    intro noThunk owner held
    rw [change.done (proper.done noThunk)] at held
    cases held
  case link =>
    intro target isLink
    have stillLink := (change.link (by rw [isLink]; rfl)).1
    cases content : slot'.node with
    | indirection target' => exact ⟨target', rfl⟩
    | _ => simp [content, Node.tag] at stillLink
  case value =>
    intro target content resolved live isWhnf
    rw [Heap.resolve_iff] at resolved ⊢
    exact remains.value resolved live isWhnf

/-! ### A call and a collection -/

open Machine (failingHost)

-- An evaluator on a heap with a thunk and an indirection to it.
def sessionEvaluator : Evaluator := ⟨⟨1⟩, {}, none⟩

def sessionStart : World Unit := ⟨.ofSettings {}, 0, [], #[], ()⟩

def sessionThunk : World Unit :=
  { sessionStart with heap := (Heap.alloc (.thunk ⟨0, .int 5⟩ []) sessionStart.heap).state }

def sessionLink : World Unit :=
  { sessionThunk with heap := (Heap.alloc (.indirection ⟨0, 0⟩) sessionThunk.heap).state }

theorem failingHost_uses : failingHost.KeepsTo Heap.Uses :=
  fun _ _ _ => .books rfl rfl

-- The call stores its value in the thunk.
theorem sessionCall_ends :
    ∃ after, Machine.force failingHost sessionEvaluator 9 ⟨1, 0⟩ ⟨.empty, 0, none, sessionLink⟩ = some (.ok ⟨0, 0⟩, after) ∧
      after.world.heap.resolve ⟨1, 0⟩ = .ok ⟨0, 0⟩ ∧
      after.world.heap.entries =
        #[⟨0, some ⟨.evaluated, .int 5⟩⟩, ⟨0, some ⟨.evaluated, .indirection ⟨0, 0⟩⟩⟩] := by
  have computed : (Machine.force failingHost sessionEvaluator 9 ⟨1, 0⟩ ⟨.empty, 0, none, sessionLink⟩).map
      (fun (result, after) => (result, after.world.heap.resolve ⟨1, 0⟩, after.world.heap.entries)) =
      some (.ok ⟨0, 0⟩, .ok ⟨0, 0⟩,
        #[⟨0, some ⟨.evaluated, .int 5⟩⟩, ⟨0, some ⟨.evaluated, .indirection ⟨0, 0⟩⟩⟩]) := by
    with_unfolding_all rfl
  obtain ⟨⟨result, after⟩, ended, facts⟩ := Option.map_eq_some_iff.mp computed
  simp only [Prod.mk.injEq] at facts
  obtain ⟨rfl, resolved, entries⟩ := facts
  exact ⟨after, ended, resolved, entries⟩

theorem slots_assigned_once_collected :
    ∃ now later : Moment Unit, Reached {} now ∧ Stays ⟨1, 0⟩ now later ∧
      now.heap.resolve ⟨1, 0⟩ = .ok ⟨0, 0⟩ ∧ later.heap.resolve ⟨1, 0⟩ = .ok ⟨0, 0⟩ ∧
      later.heap.lookup ⟨0, 0⟩ = .ok ⟨.evaluated, .int 5⟩ := by
  obtain ⟨after, ended, resolved, entries⟩ := sessionCall_ends
  have started : Reached {} (.resting sessionStart) := .start rfl
  have allocated : Reached {} (.resting sessionLink) := (started.step (.alloc _ _)).step (.alloc _ _)
  have reached : Reached {} (.resting after.world) :=
    Reached.force allocated failingHost_uses rfl ended
  -- no thunk is left, and so no code
  have codeless : ∀ e, ¬ after.world.heap.HoldsCode e := by
    intro e held
    apply Heap.HoldsCode.of_entries ?_ ?_ held
    · rw [entries]
      simp [Node.code?]
    · exact fun _ _ none _ => none
  have swept := Heap.collect_swept (fun e _ held => absurd held (codeless e)) [⟨1, 0⟩]
  have value : after.world.heap.lookup ⟨0, 0⟩ = .ok ⟨.evaluated, .int 5⟩ := Heap.lookup_eq_ok.mpr (by simp [entries])
  have link : after.world.heap.entries[1]? = some ⟨0, some ⟨.evaluated, .indirection ⟨0, 0⟩⟩⟩ := by simp [entries]
  have root : after.world.heap.KeepsSlot (· ∈ after.world.heap.roots.map Prod.fst ++ [⟨1, 0⟩]) 1 :=
    ⟨⟨1, 0⟩, rfl, .root (by simp) (Heap.lookup_eq_ok.mpr link)⟩
  have stays : Stays ⟨1, 0⟩ (.resting after.world) (.resting (after.world.collect [⟨1, 0⟩]).2) :=
    .step (.here (Heap.lookup_eq_ok.mpr link)) (.collect after.world [⟨1, 0⟩])
      (Heap.lookup_eq_ok.mpr (swept.kept 1 0 _ link root))
  have fits : (after.world.collect [⟨1, 0⟩]).2.heap.Addressable := by
    rw [Heap.Addressable, show (after.world.collect [⟨1, 0⟩]).2.heap.capacity = _ from swept.size, entries]
    decide
  obtain ⟨_, _, _, _, _, _, _, _, _, _, keeps⟩ := slots_assigned_once reached stays fits
  obtain ⟨resolved', found'⟩ := keeps ⟨0, 0⟩ _ resolved value rfl
  exact ⟨_, _, reached, stays, resolved, resolved', found'⟩

/-- A session allocates until there is a slot for each word. The next node is then allocated
over the first one, which is a value and stays live all the time. -/
theorem slot_assigned_twice :
    ∃ now later : Moment Unit, Reached {} now ∧ Stays ⟨0, 0⟩ now later ∧
      now.heap.Brims [] ∧ later.heap = (Heap.alloc (.int 7) now.heap).state ∧
      now.heap.lookup ⟨0, 0⟩ = .ok ⟨.evaluated, .int 0⟩ ∧ later.heap.lookup ⟨0, 0⟩ = .ok ⟨.evaluated, .int 7⟩ := by
  obtain ⟨heap, brims, reached⟩ := @Heap.exists_brims (fun heap => Reached {} (.resting { sessionStart with heap := heap }))
    [] (.start rfl) fun node _ _ reached => reached.step (.alloc _ node)
  have before : heap.lookup ⟨0, 0⟩ = .ok ⟨.evaluated, .int 0⟩ := brims.lookup 0
  obtain ⟨after, allocates, _, lookup⟩ := brims.full.alloc before (.int 7)
  have overwritten : (Heap.alloc (.int 7) heap).state.lookup ⟨0, 0⟩ = .ok ⟨.evaluated, .int 7⟩ := by
    rw [allocates]
    exact (lookup _).trans (if_pos rfl)
  exact ⟨_, _, reached, .step (.here before) (.alloc _ (.int 7)) overwritten, brims, rfl, before, overwritten⟩

end Moment

end LazyGraph

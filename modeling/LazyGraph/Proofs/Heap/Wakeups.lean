import LazyGraph.Proofs.Heap.Waiting

/-! Actors that sleep until a slot changes.

An owner lets go of a slot in two steps: it changes the state, and then it bumps the epoch and wakes
all sleepers. An actor that waits reads the epoch first, then the state, and it sleeps only if the
epoch is still the one it has read. The epoch belongs to no slot, other owners bump it, and the slot
may be taken over again meanwhile. Yet no sleeper is forgotten: while the epoch is the one it has
read, nobody has bumped since, so whoever has let go of the slot has still to do so. -/

set_option autoImplicit false

namespace LazyGraph

inductive Parting where
  | complete (result : Node)
  | release

namespace Parting

def change (actor : Actor) : Parting → Slot → Option Slot
  | complete result => Slot.complete actor result
  | release => Slot.release actor

def whole (node : Handle) (actor : Actor) : Parting → HeapM Bool
  | complete result => Heap.complete node actor result
  | release => Heap.release node actor

end Parting

theorem SlotState.heldByOther_eq_true {state : SlotState} {actor : Actor} :
    state.heldByOther actor = true ↔ ∃ owner, owner ≠ actor ∧ state = .inProgress owner := by
  cases state <;> simp [heldByOther]

inductive Stance where
  | free
  | due
  | waiting (node : Handle)
  | noted (node : Handle) (seen : UInt64)
  -- To compare the epoch with the one it has read, since another actor held the node.
  | blocked (node : Handle) (seen : UInt64)
  | asleep (node : Handle) (seen : UInt64)

namespace Stance

def woken : Stance → Stance
  | asleep node seen => blocked node seen
  | stance => stance

def seen? : Stance → Option UInt64
  | noted _ seen | blocked _ seen | asleep _ seen => some seen
  | _ => none

/-- The node that another actor held, and the epoch that was read before. -/
def watched? : Stance → Option (Handle × UInt64)
  | blocked node seen | asleep node seen => some (node, seen)
  | _ => none

theorem woken_ne_asleep (stance : Stance) (node : Handle) (seen : UInt64) : stance.woken ≠ .asleep node seen := by
  cases stance <;> simp [woken]

@[simp] theorem seen?_woken (stance : Stance) : stance.woken.seen? = stance.seen? := by
  cases stance <;> rfl

theorem seen?_of_watched? {stance : Stance} {node : Handle} {seen : UInt64}
    (watches : stance.watched? = some (node, seen)) : stance.seen? = some seen := by
  cases stance with
  | blocked | asleep =>
    cases watches
    rfl
  | _ => cases watches

end Stance

structure Watch where
  heap : Heap
  stance : Actor → Stance

inductive Act where
  | claim (node : Handle) (won : Bool)
  | part (node : Handle) (how : Parting) (done : Bool)
  | bump
  | other

namespace Act

def Moves (node : Handle) : Act → Prop
  | claim claimed won => claimed = node ∧ won = true
  | part parted _ done => parted = node ∧ done = true
  | _ => False

def isBump : Act → Bool
  | bump => true
  | _ => false

end Act

namespace Watch

-- The actor is about to do something else.
def turn (watch : Watch) (actor : Actor) (stance : Stance) : Actor → Stance :=
  fun other => if other = actor then stance else watch.stance other

@[simp] theorem turn_self (watch : Watch) (actor : Actor) (stance : Stance) : watch.turn actor stance actor = stance :=
  if_pos rfl

theorem turn_ne {actor other : Actor} (different : other ≠ actor) (watch : Watch) (stance : Stance) :
    watch.turn actor stance other = watch.stance other :=
  if_neg different

/-- One step of one actor. A sleeper may also wake without a call, and give up waiting. -/
inductive Step (before : Watch) (actor : Actor) : Act → Watch → Prop where
  | claim {node : Handle} {won : Bool} {heap : Heap} (free : before.stance actor = .free)
      (answered : Heap.claim node actor before.heap = .ok won heap) :
      Step before actor (.claim node won) { before with heap := heap }
  | part {node : Handle} {how : Parting} {done : Bool} {heap : Heap} (free : before.stance actor = .free)
      (answered : Heap.transition node (how.change actor) before.heap = .ok done heap) :
      Step before actor (.part node how done) ⟨heap, before.turn actor .due⟩
  | bump (due : before.stance actor = .due) :
      Step before actor .bump ⟨before.heap.notify, fun other => (before.turn actor .free other).woken⟩
  | work {heap : Heap} (free : before.stance actor = .free)
      (states : ∀ node state, before.heap.state node = .ok state → heap.state node = .ok state)
      (epoch : heap.epoch = before.heap.epoch) : Step before actor .other { before with heap := heap }
  | wait (free : before.stance actor = .free) (node : Handle) :
      Step before actor .other { before with stance := before.turn actor (.waiting node) }
  | leave {node : Handle} (waiting : before.stance actor = .waiting node) :
      Step before actor .other { before with stance := before.turn actor .free }
  | note {node : Handle} (waiting : before.stance actor = .waiting node) :
      Step before actor .other { before with stance := before.turn actor (.noted node before.heap.epoch) }
  | look {node : Handle} {seen : UInt64} {state : SlotState} (noted : before.stance actor = .noted node seen)
      (found : before.heap.state node = .ok state) :
      Step before actor .other
        { before with stance := before.turn actor (if state.heldByOther actor then .blocked node seen else .free) }
  | miss {node : Handle} {seen : UInt64} {fault : Fault} (noted : before.stance actor = .noted node seen)
      (lost : before.heap.state node = .error fault) :
      Step before actor .other { before with stance := before.turn actor .free }
  | compare {node : Handle} {seen : UInt64} (blocked : before.stance actor = .blocked node seen) :
      Step before actor .other
        { before with
          stance := before.turn actor (if before.heap.epoch = seen then .asleep node seen else .waiting node) }
  | stir {node : Handle} {seen : UInt64} (asleep : before.stance actor = .asleep node seen) :
      Step before actor .other { before with stance := before.turn actor (.blocked node seen) }
  | expire {node : Handle} {seen : UInt64} (watched : (before.stance actor).watched? = some (node, seen)) :
      Step before actor .other { before with stance := before.turn actor (.waiting node) }

/-- What a schedule leads to, with what was done by whom, the latest first. -/
inductive Run (start : Heap) : List (Actor × Act) → Watch → Prop where
  | start : Run start [] ⟨start, fun _ => .free⟩
  | step {past : List (Actor × Act)} {actor : Actor} {act : Act} {before after : Watch}
      (run : Run start past before) (step : Step before actor act after) : Run start ((actor, act) :: past) after

def bumps (past : List (Actor × Act)) : Nat :=
  past.countP fun done => done.2.isBump

/-- The actor has let go of the node and taken no step since, and nobody has changed the slot since. -/
inductive Owes (actor : Actor) (node : Handle) : List (Actor × Act) → Prop where
  | parted {past : List (Actor × Act)} {how : Parting} : Owes actor node ((actor, .part node how true) :: past)
  | later {past : List (Actor × Act)} {other : Actor} {act : Act} (owes : Owes actor node past)
      (different : other ≠ actor) (still : ¬ act.Moves node) : Owes actor node ((other, act) :: past)

variable {before middle after now : Watch} {actor other waiter : Actor} {act : Act} {node : Handle}
  {past : List (Actor × Act)} {start heap heap' : Heap} {seen : UInt64}

/-! ### What a step does to slots and actors -/

/-- A slot that accepts a change is rewritten, and one that refuses stays. -/
theorem transition_answer {change : Slot → Option Slot} {done : Bool}
    (answered : Heap.transition node change heap = .ok done heap') :
    (done = false ∧ heap' = heap) ∨
      (done = true ∧ ∃ old new, change old = some new ∧ heap.Rewrites heap' node old new) := by
  unfold Heap.transition at answered
  split at answered
  · cases answered
  · rename_i old found
    split at answered
    · rename_i new changed
      cases answered
      exact .inr ⟨rfl, old, new, changed, Heap.put_rewrites found rfl rfl⟩
    · cases answered
      exact .inl ⟨rfl, rfl⟩

theorem epoch_transition {change : Slot → Option Slot} {done : Bool}
    (answered : Heap.transition node change heap = .ok done heap') : heap'.epoch = heap.epoch := by
  unfold Heap.transition at answered
  split at answered
  · cases answered
  · split at answered <;> cases answered <;> rfl

theorem state_of_rewrites {old new : Slot} {state : SlotState} {changed : Handle}
    (rewrites : heap.Rewrites heap' changed old new) (apart : changed ≠ node) (found : heap.state node = .ok state) :
    heap'.state node = .ok state := by
  rw [Heap.state, rewrites.lookup, if_neg (Ne.symm apart)]
  exact found

namespace Step

/-- An actor that has let go of a slot does nothing before it has bumped the epoch. -/
theorem of_due (step : Step before actor act after) (due : before.stance actor = .due) : act = .bump := by
  cases step with
  | bump => rfl
  | expire watched =>
    rw [due] at watched
    cases watched
  | claim standing | part standing | work standing | wait standing | leave standing | note standing | look standing
  | miss standing | compare standing | stir standing => cases due.symm.trans standing

theorem stance_other (step : Step before actor act after) (silent : act.isBump = false) (different : other ≠ actor) :
    after.stance other = before.stance other := by
  cases step with
  | bump => cases silent
  | claim | work => rfl
  | _ => exact if_neg different

theorem epoch (step : Step before actor act after) (silent : act.isBump = false) :
    after.heap.epoch = before.heap.epoch := by
  cases step with
  | bump => cases silent
  | claim free answered => exact epoch_transition answered
  | part free answered => exact epoch_transition answered
  | work free states epoch => exact epoch
  | _ => rfl

theorem state (step : Step before actor act after) (still : ¬ act.Moves node) {state : SlotState}
    (found : before.heap.state node = .ok state) : after.heap.state node = .ok state := by
  cases step with
  | claim free answered =>
    rcases transition_answer answered with ⟨_, rfl⟩ | ⟨won, old, new, _, rewrites⟩
    · exact found
    · exact state_of_rewrites rewrites (fun same => still ⟨same, won⟩) found
  | part free answered =>
    rcases transition_answer answered with ⟨_, rfl⟩ | ⟨done, old, new, _, rewrites⟩
    · exact found
    · exact state_of_rewrites rewrites (fun same => still ⟨same, done⟩) found
  | work free states epoch => exact states _ _ found
  | _ => exact found

/-- A slot that is moved comes into the hands of a working actor, or its owner has to bump the epoch. -/
theorem moved (step : Step before actor act after) (moves : act.Moves node) :
    (before.stance actor = .free ∧ after.heap.state node = .ok (.inProgress actor)) ∨
      ((∃ how, act = .part node how true) ∧ after.stance actor = .due) := by
  cases step with
  | @claim claimed won heap free answered =>
    obtain ⟨rfl, rfl⟩ := moves
    refine .inl ⟨free, ?_⟩
    rcases transition_answer answered with ⟨refused, _⟩ | ⟨_, old, new, claims, rewrites⟩
    · cases refused
    · simp only [Slot.claim, Option.ite_none_right_eq_some, Option.some.injEq] at claims
      simp only [Heap.state, rewrites.lookup, if_true, Except.map, ← claims.2]
  | @part parted how done heap free answered =>
    obtain ⟨rfl, rfl⟩ := moves
    exact .inr ⟨⟨how, rfl⟩, if_pos rfl⟩
  | _ => cases moves

end Step

/-- Letting go of a slot and bumping the epoch are what the heap does in one. -/
theorem parting_whole {how : Parting} {done : Bool} (part : Step before actor (.part node how done) middle)
    (bump : Step middle actor .bump after) : how.whole node actor before.heap = .ok done after.heap := by
  cases part with
  | part free answered =>
    cases bump with
    | bump due =>
      cases how with
      | complete result =>
        have answered : Heap.transition node (Slot.complete actor result) before.heap = .ok done _ := answered
        rw [Parting.whole, Heap.complete, bind_ok answered]
        rfl
      | release =>
        have answered : Heap.transition node (Slot.release actor) before.heap = .ok done _ := answered
        rw [Parting.whole, Heap.release, bind_ok answered]
        rfl

/-! ### What every schedule keeps -/

/-- Another actor holds the node, or one that has let go of it has still to bump the epoch. -/
def Guarded (past : List (Actor × Act)) (now : Watch) (waiter : Actor) (node : Handle) : Prop :=
  (∃ owner, owner ≠ waiter ∧ now.heap.state node = .ok (.inProgress owner)) ∨
    ∃ owner, Owes owner node past ∧ now.stance owner = .due

theorem Guarded.step (guarded : Guarded past before waiter node) (step : Step before actor act after)
    (silent : act.isBump = false) (busy : before.stance waiter ≠ .free) :
    Guarded ((actor, act) :: past) after waiter node := by
  by_cases moves : act.Moves node
  · rcases step.moved moves with ⟨free, held⟩ | ⟨⟨how, rfl⟩, due⟩
    · refine .inl ⟨actor, ?_, held⟩
      rintro rfl
      exact busy free
    · exact .inr ⟨actor, .parted, due⟩
  · rcases guarded with ⟨owner, different, held⟩ | ⟨owner, owes, due⟩
    · exact .inl ⟨owner, different, step.state moves held⟩
    · have different : actor ≠ owner := by
        rintro rfl
        rw [step.of_due due] at silent
        cases silent
      exact .inr ⟨owner, owes.later different moves, (step.stance_other silent (Ne.symm different)).trans due⟩

/-- Epochs count the bumps; who has read an epoch and found the node held is guarded as long as
nobody bumps; and who sleeps has read the epoch that still stands. -/
structure Alert (start : Heap) (past : List (Actor × Act)) (now : Watch) : Prop where
  epoch : now.heap.epoch = start.epoch + UInt64.ofNat (bumps past)
  seen : ∀ {actor seen}, (now.stance actor).seen? = some seen →
    ∃ count ≤ bumps past, seen = start.epoch + UInt64.ofNat count
  watched : ∀ {actor node}, (now.stance actor).watched? = some (node, now.heap.epoch) → Guarded past now actor node
  asleep : ∀ {actor node seen}, now.stance actor = .asleep node seen → now.heap.epoch = seen

namespace Alert

theorem begins : Alert start [] ⟨start, fun _ => .free⟩ where
  epoch := by simp [bumps]
  seen := nofun
  watched := nofun
  asleep := nofun

theorem silent (alert : Alert start past before) (step : Step before actor act after) (silent : act.isBump = false)
    (own : ∀ {seen}, (after.stance actor).seen? = some seen →
      seen = before.heap.epoch ∨ (before.stance actor).seen? = some seen)
    (found : ∀ {node seen}, (after.stance actor).watched? = some (node, seen) →
      (before.stance actor).watched? = some (node, seen) ∨ Guarded ((actor, act) :: past) after actor node)
    (dozes : ∀ {node seen}, after.stance actor = .asleep node seen → before.heap.epoch = seen) :
    Alert start ((actor, act) :: past) after := by
  have count : bumps ((actor, act) :: past) = bumps past := List.countP_cons_of_neg (by simp [silent])
  have epoch := step.epoch silent
  constructor
  · rw [epoch, count]
    exact alert.epoch
  · intro other seen read
    rw [count]
    by_cases same : other = actor
    · subst same
      rcases own read with rfl | read
      · exact ⟨_, Nat.le_refl _, alert.epoch⟩
      · exact alert.seen read
    · rw [step.stance_other silent same] at read
      exact alert.seen read
  · intro other node watches
    have kept : ∀ {other}, (before.stance other).watched? = some (node, after.heap.epoch) →
        Guarded ((actor, act) :: past) after other node := by
      intro other watches
      rw [epoch] at watches
      refine (alert.watched watches).step step silent ?_
      intro free
      rw [free] at watches
      cases watches
    by_cases same : other = actor
    · subst same
      exact (found watches).elim kept id
    · rw [step.stance_other silent same] at watches
      exact kept watches
  · intro other node seen asleep
    rw [epoch]
    by_cases same : other = actor
    · subst same
      exact dozes asleep
    · rw [step.stance_other silent same] at asleep
      exact alert.asleep asleep

theorem forgets (alert : Alert start past before) (step : Step before actor act after) (silent : act.isBump = false)
    (none_seen : (after.stance actor).seen? = none) : Alert start ((actor, act) :: past) after := by
  refine alert.silent step silent (fun read => ?_) (fun watches => ?_) (fun asleep => ?_)
  · cases none_seen.symm.trans read
  · cases none_seen.symm.trans (Stance.seen?_of_watched? watches)
  · rw [asleep] at none_seen
    cases none_seen

theorem epoch_apart (epoch : UInt64) {count total : Nat} (earlier : count < total) (few : total < UInt64.size) :
    epoch + UInt64.ofNat count ≠ epoch + UInt64.ofNat total := by
  intro same
  have same := congrArg UInt64.toNat ((UInt64.add_right_inj epoch).mp same)
  rw [UInt64.toNat_ofNat_of_lt' few, UInt64.toNat_ofNat_of_lt' (Nat.lt_trans earlier few)] at same
  omega

theorem bump (alert : Alert start past before) (actor : Actor) (few : bumps past + 1 < UInt64.size) :
    Alert start ((actor, .bump) :: past) ⟨before.heap.notify, fun other => (before.turn actor .free other).woken⟩ := by
  have count : bumps ((actor, .bump) :: past) = bumps past + 1 := List.countP_cons_of_pos rfl
  have epoch : before.heap.notify.epoch = start.epoch + UInt64.ofNat (bumps past + 1) := by
    rw [Heap.notify, alert.epoch, UInt64.ofNat_add, UInt64.add_assoc]
    rfl
  have older : ∀ {other seen}, (before.turn actor .free other).woken.seen? = some seen →
      ∃ count ≤ bumps past, seen = start.epoch + UInt64.ofNat count := by
    intro other seen read
    rw [Stance.seen?_woken, turn] at read
    split at read
    · cases read
    · exact alert.seen read
  constructor
  · rw [count]
    exact epoch
  · intro other seen read
    obtain ⟨earlier, within, same⟩ := older read
    exact ⟨earlier, by omega, same⟩
  · intro other node watches
    obtain ⟨earlier, within, same⟩ := older (Stance.seen?_of_watched? watches)
    exact absurd (same.symm.trans epoch) (epoch_apart start.epoch (Nat.lt_succ_of_le within) few)
  · intro other node seen asleep
    exact absurd asleep (Stance.woken_ne_asleep _ _ _)

theorem step (alert : Alert start past before) (step : Step before actor act after)
    (few : bumps ((actor, act) :: past) < UInt64.size) : Alert start ((actor, act) :: past) after := by
  cases step with
  | bump due => exact alert.bump _ (by simpa [bumps, Act.isBump] using few)
  | claim free answered => exact alert.silent (.claim free answered) rfl .inr .inl (by simp [free])
  | work free states epoch => exact alert.silent (.work free states epoch) rfl .inr .inl (by simp [free])
  | part free answered => exact alert.forgets (.part free answered) rfl (congrArg Stance.seen? (turn_self ..))
  | wait free node => exact alert.forgets (.wait free node) rfl (congrArg Stance.seen? (turn_self ..))
  | leave waiting => exact alert.forgets (.leave waiting) rfl (congrArg Stance.seen? (turn_self ..))
  | miss noted lost => exact alert.forgets (.miss noted lost) rfl (congrArg Stance.seen? (turn_self ..))
  | expire watched => exact alert.forgets (.expire watched) rfl (congrArg Stance.seen? (turn_self ..))
  | note waiting =>
    exact alert.silent (.note waiting) rfl (by simp [Stance.seen?, eq_comm]) (by simp [Stance.watched?]) (by simp)
  | @look node seen state noted found =>
    have step := Step.look noted found
    cases held : state.heldByOther actor with
    | false =>
      simp only [held, Bool.false_eq_true, if_false] at step ⊢
      exact alert.forgets step rfl (congrArg Stance.seen? (turn_self ..))
    | true =>
      simp only [held, if_true] at step ⊢
      obtain ⟨owner, different, rfl⟩ := SlotState.heldByOther_eq_true.mp held
      refine alert.silent step rfl (by simp [Stance.seen?, noted]) ?_ (by simp)
      intro node' seen' watches
      simp only [turn_self, Stance.watched?, Option.some.injEq, Prod.mk.injEq] at watches
      obtain ⟨rfl, rfl⟩ := watches
      exact .inr (.inl ⟨owner, different, found⟩)
  | @compare node seen blocked =>
    have step := Step.compare blocked
    by_cases still : before.heap.epoch = seen
    · simp only [still, if_true] at step ⊢
      refine alert.silent step rfl ?_ ?_ ?_
      · simp [Stance.seen?, blocked]
      · simp [Stance.watched?, blocked]
      · simp [still]
    · simp only [still, if_false] at step ⊢
      exact alert.forgets step rfl (congrArg Stance.seen? (turn_self ..))
  | stir asleep =>
    refine alert.silent (.stir asleep) rfl ?_ ?_ ?_
    · simp [Stance.seen?, asleep]
    · simp [Stance.watched?, asleep]
    · simp

end Alert

theorem Run.alert (run : Run start past now) (few : bumps past < UInt64.size) : Alert start past now := by
  induction run with
  | start => exact .begins
  | @step past actor act before after _ step ih =>
    have fewer : bumps past ≤ bumps ((actor, act) :: past) := by
      unfold bumps
      rw [List.countP_cons]
      exact Nat.le_add_right _ _
    exact (ih (Nat.lt_of_le_of_lt fewer few)).step step few

/-- While an actor sleeps, another one holds the node that it waits for, or the owner that has let go
of the node has still to bump the epoch. The owner does this before anything else, and the sleeper
wakes and finds that the epoch is a new one. Between them, letting go and bumping the epoch are what
the heap does when a node is completed or released. -/
theorem wakeups_never_lost (run : Run start past now) (few : bumps past < UInt64.size) :
    (∀ waiter node seen, now.stance waiter = .asleep node seen →
      (∃ owner, owner ≠ waiter ∧ now.heap.state node = .ok (.inProgress owner)) ∨
        ∃ owner, Owes owner node past ∧ (∃ after, Step now owner .bump after) ∧
          ∀ act after, Step now owner act after →
            act = .bump ∧ after.stance waiter = .blocked node seen ∧ after.heap.epoch ≠ seen) ∧
    (∀ actor node how done middle after, Step now actor (.part node how done) middle →
      Step middle actor .bump after → how.whole node actor now.heap = .ok done after.heap) := by
  have alert := run.alert few
  refine ⟨fun waiter node seen asleep => ?_, fun actor node how done middle after => parting_whole⟩
  obtain rfl := alert.asleep asleep
  rcases alert.watched (by rw [asleep]; rfl) with held | ⟨owner, owes, due⟩
  · exact .inl held
  · refine .inr ⟨owner, owes, ⟨_, .bump due⟩, fun act after step => ?_⟩
    obtain rfl := step.of_due due
    have different : waiter ≠ owner := by
      rintro rfl
      cases due.symm.trans asleep
    cases step with
    | bump =>
      refine ⟨rfl, ?_, ?_⟩
      · simp only [turn_ne different, asleep, Stance.woken]
      · simp [Heap.notify]

/-! ### A thunk that is completed while another actor falls asleep -/

open Heap (firstActor secondActor twoThunks)

-- The second actor finds the thunk held, and the first one completes it and has not yet said so.
def nap : List (Actor × Act) :=
  [(firstActor, .part ⟨0, 0⟩ (.complete (.int 1)) true), (secondActor, .other), (secondActor, .other),
    (secondActor, .other), (secondActor, .other), (firstActor, .claim ⟨0, 0⟩ true)]

theorem wakeups_never_lost_nap :
    ∃ now, Run twoThunks nap now ∧ bumps nap < UInt64.size ∧ now.heap.state ⟨0, 0⟩ = .ok .evaluated ∧
      now.stance secondActor = .asleep ⟨0, 0⟩ 0 ∧
      ∃ owner, Owes owner ⟨0, 0⟩ nap ∧ ∃ after, Step now owner .bump after := by
  have claimed : Run twoThunks (nap.drop 5) _ := .step .start (.claim rfl rfl)
  have waiting : Run twoThunks (nap.drop 4) _ := claimed.step (.wait rfl ⟨0, 0⟩)
  have noted : Run twoThunks (nap.drop 3) _ := waiting.step (.note rfl)
  have blocked : Run twoThunks (nap.drop 2) _ := noted.step (.look rfl rfl)
  have asleep : Run twoThunks (nap.drop 1) _ := blocked.step (.compare rfl)
  have run : Run twoThunks nap _ := asleep.step (.part rfl rfl)
  have few : bumps nap < UInt64.size := by decide
  refine ⟨_, run, few, rfl, rfl, ?_⟩
  rcases (wakeups_never_lost run few).1 secondActor ⟨0, 0⟩ 0 rfl with ⟨owner, _, held⟩ | ⟨owner, owes, bumped, _⟩
  · cases held
  · exact ⟨owner, owes, bumped⟩

end Watch

end LazyGraph

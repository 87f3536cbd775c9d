import LazyGraph.Proofs.Heap.Contention
import LazyGraph.Proofs.Machine.Markers
import LazyGraph.Proofs.Parallel.Settled

/-! One heap, many evaluators.

At every moment the handles can be read as closures, for all evaluators alike. Whoever waits
for a node depends on it with all that it holds, so a circle of waits is a closure that depends
on itself. What one evaluator does at once keeps this, and it leaves alone what another one
counts on: the thunks that it holds, the slots that it has set aside, its wait, and all values. -/

set_option autoImplicit false

namespace LazyGraph

open Unshared

structure Slot.Minds (actor : Actor) (before after : Slot) : Prop where
  thunk : ∀ expr env, before = ⟨.inProgress actor, .thunk expr env⟩ → after = before
  unclaimed : after.state = .inProgress actor → before.state = .inProgress actor
  solid : before.node.tag ≠ .thunk → after.node.tag ≠ .thunk
  value : before.node.tag.isWhnf → after.node = before.node

namespace Slot.Minds

variable {actor : Actor} {first second third : Slot}

theorem refl (slot : Slot) : Slot.Minds actor slot slot :=
  ⟨fun _ _ _ => rfl, id, id, fun _ => rfl⟩

theorem trans (early : Slot.Minds actor first second) (late : Slot.Minds actor second third) :
    Slot.Minds actor first third where
  thunk := by
    intro expr env held
    have kept := early.thunk expr env held
    exact (late.thunk expr env (kept.trans held)).trans kept
  unclaimed held := early.unclaimed (late.unclaimed held)
  solid solid := late.solid (early.solid solid)
  value := by
    intro isWhnf
    have kept := early.value isWhnf
    exact (late.value (kept ▸ isWhnf)).trans kept

theorem retarget (state : SlotState) (old new : Handle) :
    Slot.Minds actor ⟨state, .indirection old⟩ ⟨state, .indirection new⟩ where
  thunk expr env held := by simp at held
  unclaimed := id
  solid := id
  value := by simp [Node.tag, Tag.isWhnf]

theorem unborn (born : first.state ≠ .inProgress actor) (minds : Slot.Minds actor first second) :
    second.state ≠ .inProgress actor :=
  fun held => born (minds.unclaimed held)

end Slot.Minds

theorem Slot.ofNode_idle (actor : Actor) (node : Node) : (Slot.ofNode node).state ≠ .inProgress actor :=
  (SlotLaw.sparing actor).born_ofNode node

/-- The law of slots among evaluators, as one of them sees it. -/
def SlotLaw.minding (actor : Actor) : SlotLaw where
  allowed := Slot.Minds actor
  born slot := slot.state ≠ .inProgress actor
  refl := Slot.Minds.refl
  trans := Slot.Minds.trans
  retarget := Slot.Minds.retarget
  born_ofNode := Slot.ofNode_idle actor
  born_allowed := Slot.Minds.unborn

theorem Heap.Kept.of_gains {law : SlotLaw} {before after : Heap} {added : List (Handle × Node)}
    (gains : before.Gains after added) (free : after.FreeListSound) : before.Kept law after where
  free := free
  live := fun {_ slot} found => ⟨slot, gains.kept found, law.refl slot⟩
  fresh := by
    intro handle slot found
    rcases gains.fresh found with found | ⟨node, _, rfl⟩
    · exact .inl ⟨slot, found⟩
    · exact .inr (law.born_ofNode node)

theorem Heap.Kept.of_rewrites {law : SlotLaw} {before after : Heap} {node : Handle} {old new : Slot}
    (rewrites : before.Rewrites after node old new) (allowed : law.allowed old new) (sound : before.FreeListSound) :
    before.Kept law after where
  free := sound.rewrites rewrites
  live := by
    intro handle slot found
    rw [rewrites.lookup]
    split
    · rename_i here
      rw [here, rewrites.found] at found
      cases found
      exact ⟨new, rfl, allowed⟩
    · exact ⟨slot, found, law.refl slot⟩
  fresh := by
    intro handle slot found
    rw [rewrites.lookup] at found
    split at found
    · rename_i here
      exact .inl ⟨old, here ▸ rewrites.found⟩
    · exact .inl ⟨slot, found⟩

theorem Faithful.of_lookup {graph : Heap} {known : Handle → Prop} {reading : Reading} {before after : Heap}
    (faithful : Faithful graph known reading before) (free : after.FreeListSound)
    (same : ∀ handle, after.lookup handle = before.lookup handle)
    (offers : ∀ handle, after.Offers handle → before.Offers handle) : Faithful graph known reading after where
  free := free
  live := by
    intro handle closure slot read found
    rw [same] at found
    refine (faithful.live read found).mono (.refl _) fun _ keeps => ?_
    rwa [Heap.Keeps, same]
  dead := by
    intro handle closure read dead
    refine faithful.dead read fun live => dead ?_
    obtain ⟨slot, found⟩ := live
    exact ⟨slot, (same handle).trans found⟩
  granted := fun read offered => faithful.granted read (offers _ offered)
  known := faithful.known

theorem Heap.Reserved.dead {heap : Heap} {handles : List Handle} {handle : Handle} (reserved : heap.Reserved handles)
    (member : handle ∈ handles) : ¬ heap.Live handle := by
  rintro ⟨slot, found⟩
  cases (reserved.vacant handle member).symm.trans (lookup_eq_ok.mp found)

namespace Parallel

/-! ### Accounts -/

/-- What the handles stand for, and the slots set aside for groups, with who has set them aside. -/
structure Account where
  reading : Reading
  pledged : List (Actor × Handle)

def Account.own (account : Account) (actor : Actor) : List Handle :=
  (account.pledged.filter (·.1 = actor)).map Prod.snd

def Depends (graph : Heap) (reading : Reading) (node waited : Handle) : Prop :=
  ∀ closure, reading node = some closure → ∃ closure' deeper,
    reading waited = some closure' ∧ Turns graph 1 (.force closure) [] (.force closure') deeper

structure Sound (graph : Heap) (known : Handle → Prop) (account : Account) (heap : Heap) : Prop where
  faithful : Faithful graph known account.reading heap.settled
  reserved : heap.Reserved (account.pledged.map Prod.snd)
  unread : ∀ {handle}, handle ∈ account.pledged.map Prod.snd → account.reading handle = none
  waits : ∀ {owner waited node content}, heap.waits.lookup owner = some waited →
    heap.lookup node = .ok ⟨.inProgress owner, content⟩ →
      content.tag = .thunk ∧ Depends graph account.reading node waited
  pending : ∀ {node content}, heap.lookup node = .ok ⟨.unevaluated, content⟩ → content.tag = .thunk

/-- The actor holds no thunk, waits for none and has set no slots aside. -/
structure Idle (account : Account) (heap : Heap) (actor : Actor) : Prop where
  unclaimed : ∀ {node content}, heap.lookup node ≠ .ok ⟨.inProgress actor, content⟩
  unwaiting : heap.waits.lookup actor = none
  unpledged : account.own actor = []

structure Heeds (actor : Actor) (reading : Reading) (before : Heap) (reading' : Reading) (after : Heap) : Prop where
  wider : reading.Extends reading'
  slots : before.Kept (.minding actor) after
  waits : after.waits.lookup actor = before.waits.lookup actor

structure Minds (actor : Actor) (account : Account) (before : Heap) (account' : Account) (after : Heap) : Prop extends
    Heeds actor account.reading before account'.reading after where
  own : account'.own actor = account.own actor

variable {graph : Heap} {known : Handle → Prop} {account account' account'' : Account} {before middle after heap : Heap}
  {reading reading' reading'' : Reading}
  {actor other : Actor} {handle node : Handle} {handles : List Handle} {content : Node} {old new : Slot}

theorem Sound.free (sound : Sound graph known account heap) : heap.FreeListSound :=
  sound.faithful.free.of_settled

theorem Heeds.trans (early : Heeds actor reading before reading' middle) (late : Heeds actor reading' middle reading'' after) :
    Heeds actor reading before reading'' after where
  wider := early.wider.trans late.wider
  slots := early.slots.trans late.slots
  waits := late.waits.trans early.waits

theorem Heeds.of_entries (free : before.FreeListSound) (entries : after.entries = before.entries)
    (list : after.free = before.free) (waits : after.waits.lookup actor = before.waits.lookup actor) :
    Heeds actor reading before reading after where
  wider := .refl _
  slots := .of_lookup (free.of_entries entries list) fun handle slot => by rw [Heap.lookup_congr entries]
  waits := waits

theorem Heeds.rewrites (free : before.FreeListSound) (rewrites : before.Rewrites after node old new)
    (allowed : Slot.Minds actor old new) (waits : after.waits = before.waits) :
    Heeds actor reading before reading after where
  wider := .refl _
  slots := .of_rewrites rewrites allowed free
  waits := by rw [waits]

theorem Heeds.grows {added : List (Handle × Node)} (gains : before.Gains after added) (free : after.FreeListSound)
    (wider : reading.Extends reading') (waits : after.waits = before.waits) :
    Heeds actor reading before reading' after where
  wider := wider
  slots := .of_gains gains free
  waits := by rw [waits]

theorem Minds.trans (early : Minds actor account before account' middle) (late : Minds actor account' middle account'' after) :
    Minds actor account before account'' after :=
  ⟨early.toHeeds.trans late.toHeeds, late.own.trans early.own⟩

theorem Minds.refl (sound : Sound graph known account heap) (actor : Actor) : Minds actor account heap account heap :=
  ⟨.of_entries sound.free rfl rfl rfl, rfl⟩

namespace Minds

variable (minds : Minds actor account before account' after)

include minds

theorem keeps (isWhnf : content.tag.isWhnf) (keeps : before.settled.Keeps handle content) :
    after.settled.Keeps handle content := by
  obtain ⟨state, found⟩ := (Heap.keeps_settled isWhnf).mp keeps
  obtain ⟨⟨state', content'⟩, found', allowed⟩ := minds.slots.live found
  obtain rfl : content' = content := allowed.value isWhnf
  exact (Heap.keeps_settled isWhnf).mpr ⟨state', found'⟩

theorem held {expr : Expr} {env : Env} (found : before.lookup handle = .ok ⟨.inProgress actor, .thunk expr env⟩) :
    after.lookup handle = .ok ⟨.inProgress actor, .thunk expr env⟩ := by
  obtain ⟨slot, found', allowed⟩ := minds.slots.live found
  rw [found', allowed.thunk expr env rfl]

theorem unclaimed (found : after.lookup handle = .ok ⟨.inProgress actor, content⟩) :
    ∃ content, before.lookup handle = .ok ⟨.inProgress actor, content⟩ := by
  rcases minds.slots.fresh found with ⟨⟨state, content'⟩, found'⟩ | isBorn
  · obtain ⟨slot, present, allowed⟩ := minds.slots.live found'
    cases present.symm.trans found
    obtain rfl : state = .inProgress actor := allowed.unclaimed rfl
    exact ⟨content', found'⟩
  · exact absurd rfl isBorn

theorem solid {slot : Slot} (found : before.lookup handle = .ok slot) (solid : slot.node.tag ≠ .thunk) :
    ∃ slot, after.lookup handle = .ok slot ∧ slot.node.tag ≠ .thunk := by
  obtain ⟨slot', found', allowed⟩ := minds.slots.live found
  exact ⟨slot', found', allowed.solid solid⟩

theorem idle (idle : Idle account before actor) : Idle account' after actor where
  unclaimed found := by
    obtain ⟨_, found⟩ := minds.unclaimed found
    exact idle.unclaimed found
  unwaiting := minds.waits.trans idle.unwaiting
  unpledged := minds.own.trans idle.unpledged

end Minds

/-! ### Changes around the slots -/

/-- The table of waits may change. -/
theorem Sound.of_entries (sound : Sound graph known account before) (entries : after.entries = before.entries)
    (list : after.free = before.free)
    (waits : ∀ {owner waited}, after.waits.lookup owner = some waited →
      before.waits.lookup owner = some waited ∨
        ∀ {node content}, before.lookup node = .ok ⟨.inProgress owner, content⟩ →
          content.tag = .thunk ∧ Depends graph account.reading node waited) :
    Sound graph known account after := by
  have same : ∀ handle, after.lookup handle = before.lookup handle := Heap.lookup_congr entries
  constructor
  case faithful =>
    have settled : after.settled.entries = before.settled.entries := by simp only [Heap.settled, entries]
    refine sound.faithful.of_lookup (sound.faithful.free.of_entries settled list) (Heap.lookup_congr settled) ?_
    exact fun handle offers => offers.of_entries settled list
  case reserved => exact sound.reserved.of_entries entries list
  case unread => exact sound.unread
  case waits =>
    intro owner waited node content waiting found
    rw [same] at found
    rcases waits waiting with waiting | each
    · exact sound.waits waiting found
    · exact each found
  case pending =>
    intro node content found
    rw [same] at found
    exact sound.pending found

/-! ### One slot -/

/-- One slot changes. It shows the same closures as before, and whoever comes to hold it, or
goes on to hold it without a thunk, waits for nothing. -/
theorem Sound.rewrites (sound : Sound graph known account before) (rewrites : before.Rewrites after node old new)
    (faithful : Faithful graph known account.reading after.settled) (waits : after.waits = before.waits)
    (pending : new.state = .unevaluated → new.node.tag = .thunk)
    (holder : ∀ owner, new.state = .inProgress owner →
      old.state = .inProgress owner ∧ (old.node.tag = .thunk → new.node.tag = .thunk) ∨ before.waits.lookup owner = none) :
    Sound graph known account after where
  faithful := faithful
  reserved := sound.reserved.rewrites rewrites
  unread := sound.unread
  waits := by
    intro owner waited other content waiting found
    rw [waits] at waiting
    rw [rewrites.lookup] at found
    split at found
    · rename_i here
      cases found
      rcases holder owner rfl with ⟨held, thunk⟩ | idle
      · have found : before.lookup other = .ok ⟨.inProgress owner, old.node⟩ := by rw [here, rewrites.found, ← held]
        obtain ⟨isThunk, depends⟩ := sound.waits waiting found
        exact ⟨thunk isThunk, depends⟩
      · cases idle.symm.trans waiting
    · exact sound.waits waiting found
  pending := by
    intro other content found
    rw [rewrites.lookup] at found
    split at found
    · cases found
      exact pending rfl
    · exact sound.pending found

/-! ### New nodes -/

/-- Nodes are added, and perhaps closures read where nothing changes. -/
theorem Sound.grows {added : List (Handle × Node)} (sound : Sound graph known account before)
    (grown : Grown graph known account.reading before.settled account'.reading after.settled)
    (gains : before.Gains after added) (reserved : after.Reserved (account'.pledged.map Prod.snd))
    (unread : ∀ {handle}, handle ∈ account'.pledged.map Prod.snd → account.reading handle = none)
    (waits : after.waits = before.waits) : Sound graph known account' after := by
  have present : ∀ {node owner content}, after.lookup node = .ok ⟨.inProgress owner, content⟩ →
      before.lookup node = .ok ⟨.inProgress owner, content⟩ := by
    intro node owner content found
    rcases gains.fresh found with found | ⟨content', _, same⟩
    · exact found
    · exact absurd (congrArg Slot.state same).symm (Slot.ofNode_idle owner content')
  constructor
  case faithful => exact grown.faithful
  case reserved => exact reserved
  case unread =>
    intro handle member
    cases read : account'.reading handle with
    | none => rfl
    | some closure =>
      rcases grown.live read with read | live
      · cases (unread member).symm.trans read
      · exact absurd (Heap.live_settled.mp live) (reserved.dead member)
  case waits =>
    intro owner waited node content waiting found
    rw [waits] at waiting
    obtain ⟨thunk, depends⟩ := sound.waits waiting (present found)
    refine ⟨thunk, fun closure read => ?_⟩
    have settled := Heap.lookup_settled_of_ok found
    rw [Slot.settled_of_thunk thunk] at settled
    rcases grown.fresh read settled with ⟨read, _⟩ | ⟨content', same⟩
    · obtain ⟨closure', deeper, read', turns⟩ := depends closure read
      exact ⟨closure', deeper, grown.wider _ _ read', turns⟩
    · exact absurd (congrArg Slot.state same).symm (Slot.ofNode_idle owner content')
  case pending =>
    intro node content found
    rcases gains.fresh found with found | ⟨content', _, same⟩
    · exact sound.pending found
    · cases content' <;> cases same
      rfl

end Parallel

end LazyGraph

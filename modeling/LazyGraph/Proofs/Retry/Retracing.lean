import LazyGraph.Proofs.Heap.Routes
import LazyGraph.Proofs.Machine.Confinement
import LazyGraph.Proofs.Renaming.Twins
import LazyGraph.Proofs.Sharing.Transparency

/-! A heap on which a call is repeated.

Aborted calls left a heap, the base, with some thunks evaluated and the others released. Who
repeats the call works on the base, while the call is retraced from its beginning. What the
call knows lies inside; of this, the repeated call finds some in the base, under other names,
and has only claimed it. The other nodes of the call have copies, made anew in the base. -/

set_option autoImplicit false

namespace LazyGraph

/-- One actor takes the place of another; the others stay who they are. -/
def Substitutes (actor actor' owner owner' : Actor) : Prop :=
  owner = actor ∧ owner' = actor' ∨ owner ≠ actor ∧ owner' ≠ actor' ∧ owner = owner'

theorem Substitutes.exactly (actor actor' : Actor) : OneToOne (Substitutes actor actor') := by
  rintro owner owner' other other' (⟨rfl, rfl⟩ | ⟨apart, apart', rfl⟩) (⟨rfl, rfl⟩ | ⟨apart₂, apart₂', rfl⟩)
  · exact ⟨fun _ => rfl, fun _ => rfl⟩
  · exact ⟨fun same => absurd same.symm apart₂, fun same => absurd same.symm apart₂'⟩
  · exact ⟨fun same => absurd same apart, fun same => absurd same apart'⟩
  · exact Iff.rfl

namespace Pairing

def within (inside : Handle → Prop) : Pairing :=
  fun handle handle' => inside handle ∧ handle = handle'

theorem within_exactly (inside : Handle → Prop) : OneToOne (within inside) := by
  rintro handle _ other _ ⟨_, rfl⟩ ⟨_, rfl⟩
  exact Iff.rfl

def joining (pairs names : Pairing) (inside : Handle → Prop) : Pairing :=
  fun handle handle' => pairs handle handle' ∨ names handle handle' ∧ inside handle

end Pairing

theorem Forall₂.narrow {α : Type} {related related' : α → α → Prop} {items items' : List α}
    (both : List.Forall₂ related items items')
    (each : ∀ item item', item ∈ items → related item item' → related' item item') : List.Forall₂ related' items items' := by
  induction both with
  | nil => exact .nil
  | cons first _ ih =>
    exact .cons (each _ _ (.head _) first) (ih fun item item' member => each item item' (.tail _ member))

theorem forall₂_mem_left {α β : Type} {related : α → β → Prop} {items : List α} {items' : List β}
    (both : List.Forall₂ related items items') {item : α} (member : item ∈ items) : ∃ item' ∈ items', related item item' := by
  obtain ⟨place, found⟩ := List.mem_iff_getElem?.mp member
  rcases forall₂_getElem? both place with ⟨_, item', here, there, related⟩ | ⟨absent, _⟩
  · cases found.symm.trans here
    exact ⟨item', List.mem_of_getElem? there, related⟩
  · cases found.symm.trans absent

theorem forall₂_mem_right {α β : Type} {related : α → β → Prop} {items : List α} {items' : List β}
    (both : List.Forall₂ related items items') {item' : β} (member : item' ∈ items') : ∃ item ∈ items, related item item' :=
  forall₂_mem_left both.flip member

/-- In place of a relation between handles, another one for those that the node refers to. -/
theorem Node.Alike.narrow {known : Handle → Prop} {pairs pairs' : Pairing} {node node' : Node}
    (alike : node.Alike known pairs node')
    (each : ∀ handle handle', handle ∈ node.references → pairs handle handle' → pairs' handle handle') :
    node.Alike known pairs' node' := by
  cases alike with
  | char | int | double | object => constructor
  | data both => exact .data (Forall₂.narrow both each)
  | function body both => exact .function body (Forall₂.narrow both each)
  | indirection both => exact .indirection (each _ _ (.head _) both)
  | thunk code both => exact .thunk code (Forall₂.narrow both each)

theorem Node.Alike.references {known : Handle → Prop} {pairs : Pairing} {node : Node} (alike : node.Alike known pairs node) :
    ∀ handle ∈ node.references, pairs handle handle := by
  cases alike with
  | char | int | double | object => exact nofun
  | data both | function _ both | thunk _ both => exact List.forall₂_same.mp both
  | indirection both => exact List.forall_mem_singleton.mpr both

theorem Node.Alike.staysIn {known region : Handle → Prop} {pairs : Pairing} {node : Node}
    (alike : node.Alike known pairs node) (inside : ∀ handle, pairs handle handle → region handle)
    (named : ∀ handle, known handle → region handle) : node.StaysIn region := by
  have code : ∀ {expr : Expr}, expr.Sealed known → expr.StaysIn region :=
    fun closed => ⟨closed.hostFree, fun handle names => named handle (closed.names handle names)⟩
  refine ⟨fun handle member => inside handle (alike.references handle member), ?_⟩
  cases alike with
  | function body _ =>
    rintro _ ⟨⟩
    exact code body
  | thunk closed _ =>
    rintro _ ⟨⟩
    exact code closed
  | _ => exact nofun

/-- A slot and its partner are pointed at a node and its partner. -/
theorem Slot.Alike.pointed {peers : Actor → Actor → Prop} {known : Handle → Prop} {pairs : Pairing} {target target' : Handle}
    {slot slot' : Slot} (alike : slot.Alike peers known pairs slot') (targets : pairs target target') :
    (slot.pointed target).Alike peers known pairs (slot'.pointed target') := by
  obtain ⟨state, content⟩ := slot
  obtain ⟨state', content'⟩ := slot'
  obtain ⟨states, nodes⟩ := alike
  cases nodes with
  | indirection _ => exact ⟨states, .indirection targets⟩
  | char | int | double | object => exact ⟨states, by constructor⟩
  | data each => exact ⟨states, .data each⟩
  | function body each => exact ⟨states, .function body each⟩
  | thunk code each => exact ⟨states, .thunk code each⟩

namespace Heap

/-- The left heap is that of the call, and the right one that of its repetition on the base,
which has claimed what is held. -/
structure Retraces (base : Heap) (names : Pairing) (actor actor' : Actor) (known inside held : Handle → Prop)
    (pairs : Pairing) (left right : Heap) : Prop where
  free : left.FreeListSound ∧ right.FreeListSound
  unbounded : left.maxNodes = none ∧ right.maxNodes = none
  exactly : OneToOne pairs
  named : ∀ handle, known handle → pairs handle handle ∧ inside handle
  granted : ∀ {handle handle'}, pairs handle handle' → ¬ left.Offers handle ∧ ¬ right.Offers handle'
  sorts : ∀ {handle handle'}, pairs handle handle' →
    names handle handle' ∧ inside handle ∧ ¬ base.Offers handle' ∨ base.Offers handle' ∧ ¬ inside handle
  joins : ∀ {handle handle'}, names handle handle' → inside handle → pairs handle handle'
  issued : ∀ {handle}, inside handle → ¬ left.Offers handle
  closed : ∀ {handle slot}, inside handle → left.lookup handle = .ok slot →
    slot.node.Alike known (.within inside) slot.node
  copied : ∀ {handle handle'}, pairs handle handle' → base.Offers handle' →
    ∃ slot slot', left.lookup handle = .ok slot ∧ right.lookup handle' = .ok slot' ∧
      slot.Alike (Substitutes actor actor') known pairs slot'
  offers : ∀ {handle}, right.Offers handle → base.Offers handle
  kept : ∀ {handle}, ¬ base.Offers handle → ¬ held handle →
    ∀ slot, right.lookup handle = .ok slot ↔ base.lookup handle = .ok slot
  claimed : ∀ {handle}, held handle → ¬ base.Offers handle ∧
    ∃ content, right.lookup handle = .ok ⟨.inProgress actor', content⟩ ∧ base.lookup handle = .ok ⟨.unevaluated, content⟩

variable {actor actor' : Actor} {known inside held : Handle → Prop} {base settled left right left' right' : Heap}
  {pairs names : Pairing} {handle handle' target target' : Handle} {slot slot' : Slot}

theorem Twins.route {peers : Actor → Actor → Prop} {links : List Handle} (twins : left.Twins peers known pairs right)
    (both : pairs handle handle') (route : left.Route target links handle) :
    ∃ target' links', right.Route target' links' handle' ∧ pairs target target' ∧ List.Forall₂ pairs links links' := by
  induction route generalizing handle' with
  | here => exact ⟨handle', [], .here, both, .nil⟩
  | link linked _ ih =>
    obtain ⟨state, found⟩ := linked
    obtain ⟨⟨state', content'⟩, found', _, nodes⟩ := twins.ok both found
    cases nodes with
    | indirection next =>
      obtain ⟨target', links', onward, targets, each⟩ := ih next
      exact ⟨target', handle' :: links', .link ⟨state', found'⟩ onward, targets, .cons both each⟩

/-- Links and their partners are pointed at a node and its partner. -/
theorem Twins.pointAll {peers : Actor → Actor → Prop} {links links' : List Handle} (twins : left.Twins peers known pairs right)
    (each : List.Forall₂ pairs links links') (targets : pairs target target') :
    (left.pointAll links target).Twins peers known pairs (right.pointAll links' target') := by
  induction each generalizing left right with
  | nil => exact twins
  | @cons link link' _ _ both _ ih =>
    refine @ih (Heap.redirect link target left).state (Heap.redirect link' target' right).state ?_
    have twined := twins.redirect both targets
    generalize Heap.redirect link target left = outcome at twined ⊢
    generalize Heap.redirect link' target' right = outcome' at twined ⊢
    cases twined with
    | ok twins _ => exact twins
    | error twins _ => exact twins

namespace Retraces

theorem old (retraces : base.Retraces names actor actor' known inside held pairs left right) (both : pairs handle handle')
    (found : ¬ base.Offers handle') : names handle handle' ∧ inside handle := by
  rcases retraces.sorts both with ⟨name, isInside, _⟩ | ⟨copy, _⟩
  · exact ⟨name, isInside⟩
  · exact absurd copy found

theorem copy_outside (retraces : base.Retraces names actor actor' known inside held pairs left right) (both : pairs handle handle')
    (copy : base.Offers handle') : ¬ inside handle := by
  rcases retraces.sorts both with ⟨_, _, found⟩ | ⟨_, outside⟩
  · exact absurd copy found
  · exact outside

theorem biUnique (retraces : base.Retraces names actor actor' known inside held pairs left right) : Relator.BiUnique pairs :=
  ⟨fun _ _ _ both both' => (retraces.exactly both both').mpr rfl, fun _ _ _ both both' => (retraces.exactly both both').mp rfl⟩

theorem alike {node node' : Node} (retraces : base.Retraces names actor actor' known inside held pairs left right)
    (stays : ∀ handle ∈ node.references, inside handle) (nodes : node.Alike known names node') :
    node.Alike known pairs node' :=
  nodes.narrow fun _ _ member name => retraces.joins name (stays _ member)

theorem references (retraces : base.Retraces names actor actor' known inside held pairs left right) (isInside : inside handle)
    (found : left.lookup handle = .ok slot) : ∀ reference ∈ slot.node.references, inside reference :=
  fun reference member => ((retraces.closed isInside found).references reference member).1

/-! ### New nodes -/

theorem adds {handles handles' : List Handle} {nodes nodes' : List Node}
    (retraces : base.Retraces names actor actor' known inside held pairs left right)
    (adds : left.Adds left' handles nodes) (adds' : right.Adds right' handles' nodes')
    (alike : List.Forall₂ (Node.Alike known (pairs.adding handles handles')) nodes nodes') :
    base.Retraces names actor actor' known inside held (pairs.adding handles handles') left' right' := by
  have outside : ∀ {handle}, inside handle → handle ∉ handles :=
    fun isInside member => retraces.issued isInside (adds.grants.offered _ member)
  have same : ∀ {handle slot}, handle ∉ handles' → (right'.lookup handle = .ok slot ↔ right.lookup handle = .ok slot) := by
    intro handle slot absent
    refine ⟨fun found => ?_, adds'.gains.kept⟩
    rcases adds'.gains.fresh found with found | ⟨node, added, _⟩
    · exact found
    · exact absurd (List.of_mem_zip added).1 absent
  constructor
  case free => exact ⟨adds.free, adds'.free⟩
  case unbounded => exact ⟨adds.unbounded, adds'.unbounded⟩
  case exactly => exact adds.exactly adds' retraces.granted retraces.exactly
  case named => exact fun handle isKnown => ⟨.inl (retraces.named handle isKnown).1, (retraces.named handle isKnown).2⟩
  case granted => exact adds.granted adds' retraces.granted
  case sorts =>
    rintro handle handle' (both | added)
    · exact retraces.sorts both
    · obtain ⟨new, new'⟩ := List.of_mem_zip added
      exact .inr ⟨retraces.offers (adds'.grants.offered _ new'), fun isInside => outside isInside new⟩
  case joins => exact fun name isInside => .inl (retraces.joins name isInside)
  case issued => exact fun isInside offers => retraces.issued isInside (adds.grants.mono _ offers)
  case closed =>
    intro handle slot isInside found
    rcases adds.gains.fresh found with found | ⟨node, added, _⟩
    · exact retraces.closed isInside found
    · exact absurd (List.of_mem_zip added).1 (outside isInside)
  case copied =>
    rintro handle handle' (both | added) copy
    · obtain ⟨slot, slot', found, found', slots⟩ := retraces.copied both copy
      exact ⟨slot, slot', adds.gains.kept found, adds'.gains.kept found', slots.mono (pairs.extends_adding handles handles')⟩
    · exact adds.alike adds' alike added
  case offers => exact fun offers => retraces.offers (adds'.grants.mono _ offers)
  case kept =>
    intro handle old unheld slot
    rw [same fun member => old (retraces.offers (adds'.grants.offered _ member))]
    exact retraces.kept old unheld slot
  case claimed =>
    intro handle isHeld
    obtain ⟨old, content, found, fresh⟩ := retraces.claimed isHeld
    exact ⟨old, content, adds'.gains.kept found, fresh⟩

instance : Joint known (base.Retraces names actor actor' known inside held) where
  named retraces handle isKnown := (retraces.named handle isKnown).1
  free retraces := retraces.free
  unbounded retraces := retraces.unbounded
  adds := adds

/-! ### Slots that change -/

theorem rewrites {old old' : Slot} (retraces : base.Retraces names actor actor' known inside held pairs left right)
    (both : pairs handle handle') (copy : base.Offers handle') (rewrites : left.Rewrites left' handle old slot)
    (rewrites' : right.Rewrites right' handle' old' slot') (alike : slot.Alike (Substitutes actor actor') known pairs slot')
    (unbounded : left'.maxNodes = none ∧ right'.maxNodes = none) :
    base.Retraces names actor actor' known inside held pairs left' right' where
  free := ⟨retraces.free.1.rewrites rewrites, retraces.free.2.rewrites rewrites'⟩
  unbounded := unbounded
  exactly := retraces.exactly
  named := retraces.named
  granted := fun both' => ⟨fun offers => (retraces.granted both').1 (rewrites.offers offers),
    fun offers => (retraces.granted both').2 (rewrites'.offers offers)⟩
  sorts := retraces.sorts
  joins := retraces.joins
  issued := fun isInside offers => retraces.issued isInside (rewrites.offers offers)
  closed := by
    intro other slot isInside found
    have apart : other ≠ handle := fun same => retraces.copy_outside both copy (same ▸ isInside)
    rw [rewrites.lookup, if_neg apart] at found
    exact retraces.closed isInside found
  copied := by
    intro other other' both' copy'
    rw [rewrites.lookup, rewrites'.lookup]
    by_cases same : other = handle
    · rw [if_pos same, if_pos ((retraces.exactly both' both).mp same)]
      exact ⟨slot, slot', rfl, rfl, alike⟩
    · rw [if_neg same, if_neg fun same' => same ((retraces.exactly both' both).mpr same')]
      exact retraces.copied both' copy'
  offers := fun offers => retraces.offers (rewrites'.offers offers)
  kept := by
    intro other old unheld slot
    have apart : other ≠ handle' := fun same => old (same ▸ copy)
    rw [rewrites'.lookup, if_neg apart]
    exact retraces.kept old unheld slot
  claimed := by
    intro other isHeld
    obtain ⟨old, content, found, fresh⟩ := retraces.claimed isHeld
    have apart : other ≠ handle' := fun same => old (same ▸ copy)
    exact ⟨old, content, by rw [rewrites'.lookup, if_neg apart, found], fresh⟩

theorem claims {expr : Expr} {env env' : Env} (retraces : base.Retraces names actor actor' known inside held pairs left right)
    (both : pairs handle handle') (old : ¬ base.Offers handle')
    (claims : left.Rewrites left' handle ⟨.unevaluated, .thunk expr env⟩ ⟨.inProgress actor, .thunk expr env⟩)
    (claims' : right.Rewrites right' handle' ⟨.unevaluated, .thunk expr env'⟩ ⟨.inProgress actor', .thunk expr env'⟩)
    (fresh : base.lookup handle' = .ok ⟨.unevaluated, .thunk expr env'⟩)
    (unbounded : left'.maxNodes = none ∧ right'.maxNodes = none) :
    base.Retraces names actor actor' known inside (fun other => held other ∨ other = handle') pairs left' right' where
  free := ⟨retraces.free.1.rewrites claims, retraces.free.2.rewrites claims'⟩
  unbounded := unbounded
  exactly := retraces.exactly
  named := retraces.named
  granted := fun both' => ⟨fun offers => (retraces.granted both').1 (claims.offers offers),
    fun offers => (retraces.granted both').2 (claims'.offers offers)⟩
  sorts := retraces.sorts
  joins := retraces.joins
  issued := fun isInside offers => retraces.issued isInside (claims.offers offers)
  closed := by
    intro other slot isInside found
    rw [claims.lookup] at found
    split at found
    · rename_i same
      cases found
      have alike := retraces.closed (same ▸ isInside) claims.found
      exact alike
    · exact retraces.closed isInside found
  copied := by
    intro other other' both' copy
    have apart' : other' ≠ handle' := fun same => old (same ▸ copy)
    have apart : other ≠ handle := fun same => apart' ((retraces.exactly both' both).mp same)
    rw [claims.lookup, if_neg apart, claims'.lookup, if_neg apart']
    exact retraces.copied both' copy
  offers := fun offers => retraces.offers (claims'.offers offers)
  kept := by
    intro other old unheld slot
    rw [claims'.lookup, if_neg fun same => unheld (.inr same)]
    exact retraces.kept old (fun isHeld => unheld (.inl isHeld)) slot
  claimed := by
    intro other isHeld
    rw [claims'.lookup]
    by_cases same : other = handle'
    · subst same
      exact ⟨old, _, if_pos rfl, fresh⟩
    · rw [if_neg same]
      exact retraces.claimed (isHeld.resolve_right same)

/-- Links are pointed at a value. Those of the base point there already. -/
theorem points {links links' : List Handle} (retraces : base.Retraces names actor actor' known inside held pairs left right)
    (targets : pairs target target')
    (copies : ∀ {handle handle'}, pairs handle handle' → base.Offers handle' → (handle ∈ links ↔ handle' ∈ links'))
    (enclosed : ∀ link ∈ links, inside link → inside target)
    (still : ∀ link ∈ links', ¬ base.Offers link → ∀ slot, right.lookup link = .ok slot → slot.pointed target' = slot) :
    base.Retraces names actor actor' known inside held pairs (left.pointAll links target) (right.pointAll links' target') := by
  have same : ∀ {handle}, ¬ base.Offers handle → (right.pointAll links' target').lookup handle = right.lookup handle := by
    intro handle old
    rw [lookup_pointAll]
    split
    · rename_i member
      cases found : right.lookup handle with
      | error fault => rfl
      | ok slot => exact congrArg Except.ok (still handle member old slot found)
    · rfl
  constructor
  case free => exact ⟨pointAll_free retraces.free.1 _ _, pointAll_free retraces.free.2 _ _⟩
  case unbounded =>
    exact ⟨(pointAll_rest left links target).2.1.trans retraces.unbounded.1,
      (pointAll_rest right links' target').2.1.trans retraces.unbounded.2⟩
  case exactly => exact retraces.exactly
  case named => exact retraces.named
  case granted =>
    exact fun both => ⟨fun offers => (retraces.granted both).1 (pointAll_offers _ _ _ offers),
      fun offers => (retraces.granted both).2 (pointAll_offers _ _ _ offers)⟩
  case sorts => exact retraces.sorts
  case joins => exact retraces.joins
  case issued => exact fun isInside offers => retraces.issued isInside (pointAll_offers _ _ _ offers)
  case closed =>
    intro handle slot isInside found
    rw [lookup_pointAll] at found
    split at found
    · rename_i member
      cases old : left.lookup handle with
      | error fault =>
        rw [old] at found
        cases found
      | ok slot =>
        obtain ⟨state, content⟩ := slot
        rw [old] at found
        cases found
        have alike := retraces.closed isInside old
        cases content with
        | indirection next => exact .indirection ⟨enclosed handle member isInside, rfl⟩
        | _ => exact alike
    · exact retraces.closed isInside found
  case copied =>
    intro handle handle' both copy
    obtain ⟨slot, slot', found, found', alike⟩ := retraces.copied both copy
    rw [lookup_pointAll, lookup_pointAll, found, found']
    by_cases member : handle ∈ links
    · rw [if_pos member, if_pos ((copies both copy).mp member)]
      exact ⟨_, _, rfl, rfl, alike.pointed targets⟩
    · rw [if_neg member, if_neg fun member' => member ((copies both copy).mpr member')]
      exact ⟨slot, slot', rfl, rfl, alike⟩
  case offers => exact fun offers => retraces.offers (pointAll_offers _ _ _ offers)
  case kept =>
    intro handle old unheld slot
    rw [same old]
    exact retraces.kept old unheld slot
  case claimed =>
    intro handle isHeld
    obtain ⟨old, content, found, fresh⟩ := retraces.claimed isHeld
    exact ⟨old, content, (same old).trans found, fresh⟩

/-- The call goes on inside, where the repetition has nothing to do. -/
theorem skips {inside' : Handle → Prop} (retraces : base.Retraces names actor actor' known inside held pairs left right)
    (twins : settled.Twins Eq known names base) (wider : ∀ {handle}, inside handle → inside' handle)
    (fresh : ∀ {handle}, inside' handle → inside handle ∨ ¬ left.Live handle)
    (unchanged : ∀ {handle}, left.Live handle → ¬ inside handle → left'.lookup handle = left.lookup handle)
    (free : left'.FreeListSound) (unbounded : left'.maxNodes = none) (issued : ∀ {handle}, inside' handle → ¬ left'.Offers handle)
    (closed : ∀ {handle slot}, inside' handle → left'.lookup handle = .ok slot →
      slot.node.Alike known (.within inside') slot.node) :
    base.Retraces names actor actor' known inside' held (pairs.joining names inside') left' right := by
  have extends' : pairs.Extends (pairs.joining names inside') := fun _ _ => .inl
  -- a copied node is live, and what is new inside was not
  have outside : ∀ {handle handle'}, pairs handle handle' → base.Offers handle' → ¬ inside' handle := by
    intro handle handle' both copy isInside
    obtain ⟨slot, _, found, _⟩ := retraces.copied both copy
    rcases fresh isInside with isInside | dead
    · exact retraces.copy_outside both copy isInside
    · exact dead ⟨slot, found⟩
  have apart : ∀ {handle handle' other other'}, pairs handle handle' → names other other' → inside' other →
      (handle = other ↔ handle' = other') := by
    intro handle handle' other other' both name isInside
    by_cases copy : base.Offers handle'
    · exact ⟨fun same => absurd (same ▸ isInside) (outside both copy), fun same => absurd (same ▸ copy) (twins.granted name).2⟩
    · exact twins.exactly (retraces.old both copy).1 name
  constructor
  case free => exact ⟨free, retraces.free.2⟩
  case unbounded => exact ⟨unbounded, retraces.unbounded.2⟩
  case exactly =>
    rintro handle handle' other other' (both | ⟨name, isInside⟩) (both' | ⟨name', isInside'⟩)
    · exact retraces.exactly both both'
    · exact apart both name' isInside'
    · exact eq_comm.trans ((apart both' name isInside).trans eq_comm)
    · exact twins.exactly name name'
  case named => exact fun handle isKnown => ⟨.inl (retraces.named handle isKnown).1, wider (retraces.named handle isKnown).2⟩
  case granted =>
    rintro handle handle' (both | ⟨name, isInside⟩)
    · refine ⟨?_, (retraces.granted both).2⟩
      by_cases copy : base.Offers handle'
      · obtain ⟨slot, _, found, _⟩ := retraces.copied both copy
        exact Live.granted ⟨slot, (unchanged ⟨slot, found⟩ (retraces.copy_outside both copy)).trans found⟩ free
      · exact issued (wider (retraces.old both copy).2)
    · exact ⟨issued isInside, fun offered => (twins.granted name).2 (retraces.offers offered)⟩
  case sorts =>
    rintro handle handle' (both | ⟨name, isInside⟩)
    · by_cases copy : base.Offers handle'
      · exact .inr ⟨copy, outside both copy⟩
      · exact .inl ⟨(retraces.old both copy).1, wider (retraces.old both copy).2, copy⟩
    · exact .inl ⟨name, isInside, (twins.granted name).2⟩
  case joins => exact fun name isInside => .inr ⟨name, isInside⟩
  case issued => exact issued
  case closed => exact closed
  case copied =>
    rintro handle handle' (both | ⟨name, _⟩) copy
    · obtain ⟨slot, slot', found, found', alike⟩ := retraces.copied both copy
      exact ⟨slot, slot', (unchanged ⟨slot, found⟩ (retraces.copy_outside both copy)).trans found, found', alike.mono extends'⟩
    · exact absurd copy (twins.granted name).2
  case offers => exact retraces.offers
  case kept => exact retraces.kept
  case claimed => exact retraces.claimed

/-! ### Walks -/

theorem route_inside {links : List Handle} (retraces : base.Retraces names actor actor' known inside held pairs left right)
    (isInside : inside handle) (route : left.Route target links handle) : inside target ∧ ∀ link ∈ links, inside link := by
  induction route with
  | here => exact ⟨isInside, nofun⟩
  | link linked _ ih =>
    obtain ⟨state, found⟩ := linked
    obtain ⟨ends, passed⟩ := ih (retraces.references isInside found _ (.head _))
    exact ⟨ends, List.forall_mem_cons.mpr ⟨isInside, passed⟩⟩

/-- A walk goes through copies, and may enter what was in the base. -/
theorem route {links : List Handle} (retraces : base.Retraces names actor actor' known inside held pairs left right)
    (both : pairs handle handle') (route : left.Route target links handle) :
    ∃ copies copies' rest entry entry', links = copies ++ rest ∧
      List.Forall₂ (fun link link' => pairs link link' ∧ base.Offers link') copies copies' ∧
      right.Route entry' copies' handle' ∧ pairs entry entry' ∧ left.Route target rest entry ∧
      (base.Offers entry' → rest = []) := by
  induction route generalizing handle' with
  | here => exact ⟨[], [], [], _, handle', rfl, .nil, .here, both, .here, fun _ => rfl⟩
  | @link link next passed linked rest ih =>
    by_cases copy : base.Offers handle'
    · obtain ⟨state, found⟩ := linked
      obtain ⟨slot, ⟨state', content'⟩, here, there, alike⟩ := retraces.copied both copy
      cases found.symm.trans here
      have nodes := alike.node
      cases nodes with
      | indirection next' =>
        obtain ⟨copies, copies', within, entry, entry', rfl, each, way, entries, onward, ends⟩ := ih next'
        exact ⟨link :: copies, handle' :: copies', within, entry, entry', rfl, .cons ⟨both, copy⟩ each, .link ⟨state', there⟩ way,
          entries, onward, ends⟩
    · exact ⟨[], [], link :: passed, link, handle', rfl, .nil, .here, both, .link linked rest, fun offers => absurd offers copy⟩

/-- Copies are passed on the right where their originals are on the left. -/
theorem mem_copies {copies copies' rest rest' : List Handle} (retraces : base.Retraces names actor actor' known inside held pairs left right)
    (each : List.Forall₂ (fun link link' => pairs link link' ∧ base.Offers link') copies copies')
    (within : ∀ link ∈ rest, inside link) (found : ∀ link ∈ rest', ¬ base.Offers link)
    (both : pairs handle handle') (copy : base.Offers handle') :
    handle ∈ copies ++ rest ↔ handle' ∈ copies' ++ rest' := by
  have among := List.rel_mem retraces.biUnique both (each.imp fun _ _ both => both.1)
  have absent : handle ∉ rest := fun member => retraces.copy_outside both copy (within handle member)
  have absent' : handle' ∉ rest' := fun member => found handle' member copy
  simp only [List.mem_append, absent, absent', or_false]
  exact among

theorem finished {content : Node} (retraces : base.Retraces names actor actor' known inside held pairs left right)
    (old : ¬ base.Offers handle) (done : base.lookup handle = .ok ⟨.evaluated, content⟩) :
    right.lookup handle = .ok ⟨.evaluated, content⟩ := by
  refine (retraces.kept old (fun isHeld => ?_) _).mpr done
  obtain ⟨_, _, _, fresh⟩ := retraces.claimed isHeld
  cases done.symm.trans fresh

/-- A value that the call has come to is found by the repetition. The chain that it walks enters
what was in the base at a link that points at the value, if it is not the value itself. -/
theorem arrives {copies copies' rest : List Handle} {entry entry' root' : Handle} {value : Node}
    (retraces : base.Retraces names actor actor' known inside held pairs left right)
    (twins : settled.Twins Eq known names base) (regular : base.Regular)
    (each : List.Forall₂ (fun link link' => pairs link link' ∧ base.Offers link') copies copies')
    (way : right.Route entry' copies' root') (entries : pairs entry entry')
    (stored : left.lookup target = .ok ⟨.evaluated, value⟩) (isWhnf : value.tag.isWhnf)
    (copied : base.Offers entry' → rest = [] ∧ entry = target)
    (within : ¬ base.Offers entry' → (∀ link ∈ rest, inside link) ∧ inside target ∧
      settled.lookup target = .ok ⟨.evaluated, value⟩ ∧ (entry = target ∨ settled.LinksTo entry target)) :
    ∃ links' target' value', right.followOn [] root' = ⟨links', .at target' ⟨.evaluated, value'⟩⟩ ∧ value'.tag.isWhnf ∧
      pairs target target' ∧ value.Alike known pairs value' ∧
      base.Retraces names actor actor' known inside held pairs (left.pointAll (copies ++ rest) target)
        (right.pointAll links' target') := by
  have noLink : ∀ {node node' : Node} {pairs : Pairing}, node.Alike known pairs node' → node.tag.isWhnf →
      node'.tag.isWhnf ∧ node'.tag ≠ .indirection := by
    intro node node' pairs alike isWhnf
    rw [alike.tag]
    exact ⟨isWhnf, Tag.ne_indirection_of_whnf isWhnf⟩
  have copies_outside : ∀ link ∈ copies, ¬ inside link := by
    intro link member
    obtain ⟨link', _, both, copy⟩ := forall₂_mem_left each member
    exact retraces.copy_outside both copy
  have copies_new : ∀ link ∈ copies', base.Offers link := by
    intro link' member
    obtain ⟨link, _, both, copy⟩ := forall₂_mem_right each member
    exact copy
  by_cases copy : base.Offers entry'
  · obtain ⟨rfl, rfl⟩ := copied copy
    obtain ⟨slot, ⟨state', value'⟩, found, found', states, nodes⟩ := retraces.copied entries copy
    cases stored.symm.trans found
    cases states
    have whnf' := noLink nodes isWhnf
    refine ⟨copies', entry', value', way.follow found' whnf'.2, whnf'.1, entries, nodes, ?_⟩
    refine retraces.points entries (fun both copy => ?_) (fun link member isInside => ?_) fun link member old => ?_
    · have among := retraces.mem_copies each (List.forall_mem_nil inside) (List.forall_mem_nil _) both copy
      rwa [List.append_nil copies'] at among
    · rw [List.append_nil] at member
      exact absurd isInside (copies_outside link member)
    · exact absurd (copies_new link member) old
  · obtain ⟨inner, isInside, stored', leads⟩ := within copy
    obtain ⟨name, _⟩ := retraces.old entries copy
    -- where the chain ends in the base
    obtain ⟨rest', target', name', old, way', still⟩ : ∃ rest' target', names target target' ∧ (∀ link ∈ rest', ¬ base.Offers link) ∧
        right.Route target' rest' entry' ∧ ∀ link ∈ rest', ∀ slot, right.lookup link = .ok slot → slot.pointed target' = slot := by
      rcases leads with rfl | ⟨state, linked⟩
      · exact ⟨[], entry', name, List.forall_mem_nil _, .here, List.forall_mem_nil _⟩
      · obtain ⟨⟨state', content'⟩, found', states, nodes⟩ := twins.ok name linked
        cases nodes with
        | @indirection _ target' name' =>
          have there : right.lookup entry' = .ok ⟨state', .indirection target'⟩ := by
            refine (retraces.kept copy (fun isHeld => ?_) _).mpr found'
            obtain ⟨_, _, _, fresh⟩ := retraces.claimed isHeld
            cases found'.symm.trans fresh
            cases (regular.proper fresh).mpr (by simp)
          refine ⟨[entry'], target', name', List.forall_mem_singleton.mpr copy, .link ⟨state', there⟩ .here, ?_⟩
          refine List.forall_mem_singleton.mpr fun slot found => ?_
          cases there.symm.trans found
          rfl
    have targets := retraces.joins name' isInside
    obtain ⟨⟨state', value'⟩, found', states, nodes⟩ := twins.ok name' stored'
    cases states
    have whnf' := noLink nodes isWhnf
    have there := retraces.finished (twins.granted name').2 found'
    refine ⟨copies' ++ rest', target', value', (way.append way').follow there whnf'.2, whnf'.1, targets,
      retraces.alike (retraces.references isInside stored) nodes, ?_⟩
    refine retraces.points targets (fun both copy => retraces.mem_copies each inner old both copy) (fun _ _ _ => isInside) ?_
    intro link member old'
    exact still link ((List.mem_append.mp member).resolve_left fun copied => old' (copies_new link copied))

/-! ### The end of the call -/

theorem twins (retraces : base.Retraces names actor actor' known inside held pairs left right)
    (twins : settled.Twins Eq known names base)
    (same : ∀ {handle handle'}, pairs handle handle' → ¬ held handle' → ¬ base.Offers handle' →
      settled.lookup handle = left.lookup handle)
    (released : ∀ {handle handle' content}, pairs handle handle' → held handle' →
      settled.lookup handle = .ok ⟨.unevaluated, content⟩ → left.lookup handle = .ok ⟨.inProgress actor, content⟩)
    (others : ∀ {owner handle}, settled.HeldBy owner handle → Substitutes actor actor' owner owner)
    (unawaited : left.waits = [] ∧ right.waits = []) : left.Twins (Substitutes actor actor') known pairs right where
  free := retraces.free
  unbounded := retraces.unbounded
  exactly := retraces.exactly
  named := fun handle isKnown => (retraces.named handle isKnown).1
  granted := retraces.granted
  waits := by
    rw [unawaited.1, unawaited.2]
    exact .nil
  slots := by
    intro handle handle' both
    by_cases copy : base.Offers handle'
    · obtain ⟨slot, slot', found, found', alike⟩ := retraces.copied both copy
      rw [found, found']
      exact alike
    obtain ⟨name, isInside⟩ := retraces.old both copy
    by_cases isHeld : held handle'
    · obtain ⟨_, content', found', fresh⟩ := retraces.claimed isHeld
      have coincide := twins.slots name
      rw [fresh] at coincide
      cases found : settled.lookup handle with
      | error fault =>
        rw [found] at coincide
        cases coincide
      | ok slot =>
        obtain ⟨state, content⟩ := slot
        rw [found] at coincide
        obtain ⟨states, nodes⟩ := coincide
        cases states
        have busy := released both isHeld found
        rw [busy, found']
        exact ⟨.inProgress (.inl ⟨rfl, rfl⟩), retraces.alike (retraces.references isInside busy) nodes⟩
    · have kept := retraces.kept copy isHeld
      have settles := same both isHeld copy
      cases found : left.lookup handle with
      | ok slot =>
        obtain ⟨slot', found', states, nodes⟩ := twins.ok name (settles.trans found)
        rw [(kept slot').mpr found']
        refine ⟨?_, retraces.alike (retraces.references isInside found) nodes⟩
        obtain ⟨state, content⟩ := slot
        obtain ⟨state', content'⟩ := slot'
        cases states with
        | unevaluated => exact .unevaluated
        | evaluated => exact .evaluated
        | @inProgress owner _ sameOwner =>
          cases sameOwner
          exact .inProgress (others (heldBy_iff.mpr ⟨content, settles.trans found⟩))
      | error fault =>
        obtain ⟨fault', broken⟩ := twins.error name (settles.trans found)
        cases found' : right.lookup handle' with
        | ok slot => cases broken.symm.trans ((kept slot).mp found')
        | error fault'' => exact (lookup_error_kind found).trans (lookup_error_kind found').symm

end Retraces

end Heap

end LazyGraph

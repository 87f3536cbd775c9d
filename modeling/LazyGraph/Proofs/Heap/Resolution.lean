import LazyGraph.Proofs.Heap.Lookup

/-! The node that a handle stands for.

Indirections lead to one node at most, so a handle that resolves, resolves to one node.
It goes on doing so when slots elsewhere are written, and when a link is pointed straight
at the end of its own chain. -/

set_option autoImplicit false

namespace LazyGraph.Heap

variable {heap before after : Heap} {handle link next node target target' : Handle}

def LinksTo (heap : Heap) (link next : Handle) : Prop :=
  ∃ state, heap.lookup link = .ok ⟨state, .indirection next⟩

/-- The handle names a live node that is no indirection. -/
def Solid (heap : Heap) (handle : Handle) : Prop :=
  ∃ slot, heap.lookup handle = .ok slot ∧ slot.node.tag ≠ .indirection

inductive Resolves (heap : Heap) (target : Handle) : Handle → Prop where
  | here (solid : heap.Solid target) : Resolves heap target target
  | link {link next : Handle} (links : heap.LinksTo link next) (rest : Resolves heap target next) :
      Resolves heap target link

theorem LinksTo.unique (links : heap.LinksTo link next) (links' : heap.LinksTo link target) : next = target := by
  obtain ⟨state, found⟩ := links
  obtain ⟨state', found'⟩ := links'
  cases found.symm.trans found'
  rfl

theorem LinksTo.not_solid (links : heap.LinksTo link next) : ¬ heap.Solid link := by
  rintro ⟨slot, found, noLink⟩
  obtain ⟨state, found'⟩ := links
  cases found.symm.trans found'
  exact noLink rfl

namespace Resolves

theorem solid (resolves : heap.Resolves target handle) : heap.Solid target := by
  induction resolves with
  | here solid => exact solid
  | link _ _ ih => exact ih

theorem unique (resolves : heap.Resolves target handle) (resolves' : heap.Resolves target' handle) :
    target = target' := by
  induction resolves with
  | here solid =>
    cases resolves' with
    | here _ => rfl
    | link links _ => exact absurd solid links.not_solid
  | link links _ ih =>
    cases resolves' with
    | here solid => exact absurd solid links.not_solid
    | link links' rest' => exact ih (links.unique links' ▸ rest')

theorem mono (resolves : before.Resolves target handle)
    (kept : ∀ {handle slot}, before.lookup handle = .ok slot → after.lookup handle = .ok slot) :
    after.Resolves target handle := by
  induction resolves with
  | here solid =>
    obtain ⟨slot, found, noLink⟩ := solid
    exact .here ⟨slot, kept found, noLink⟩
  | link links _ ih =>
    obtain ⟨state, found⟩ := links
    exact .link ⟨state, kept found⟩ ih

/-- A write to a slot that was no indirection leaves the way to where a chain ended. -/
theorem onward {old new : Slot} (resolves : before.Resolves target handle)
    (rewrites : before.Rewrites after node old new) (noLink : old.node.tag ≠ .indirection)
    (rest : after.Resolves target' target) : after.Resolves target' handle := by
  induction resolves with
  | here _ => exact rest
  | @link link next links _ ih =>
    obtain ⟨state, found⟩ := links
    have apart : link ≠ node := by
      rintro rfl
      cases rewrites.found.symm.trans found
      exact noLink rfl
    refine .link ⟨state, ?_⟩ ih
    rw [rewrites.lookup, if_neg apart, found]

/-- A link that is pointed at the end of its chain changes no chain's end. -/
theorem collapse {state : SlotState} {old : Handle} (resolves : before.Resolves target handle)
    (rewrites : before.Rewrites after link ⟨state, .indirection old⟩ ⟨state, .indirection target'⟩)
    (leads : before.Resolves target' link) : after.Resolves target handle := by
  have links : before.LinksTo link old := ⟨state, rewrites.found⟩
  have stays : before.Solid target → after.Solid target := by
    rintro ⟨slot, found, noLink⟩
    have apart : target ≠ link := by
      rintro rfl
      exact links.not_solid ⟨slot, found, noLink⟩
    exact ⟨slot, by rw [rewrites.lookup, if_neg apart, found], noLink⟩
  induction resolves with
  | here solid => exact .here (stays solid)
  | @link passed next passes rest ih =>
    by_cases same : passed = link
    · subst same
      obtain rfl := (link passes rest).unique leads
      refine .link ⟨state, ?_⟩ (.here (stays rest.solid))
      rw [rewrites.lookup, if_pos rfl]
    · obtain ⟨state', found⟩ := passes
      refine .link ⟨state', ?_⟩ ih
      rw [rewrites.lookup, if_neg same, found]

end Resolves

/-! ### Following and resolving -/

theorem followFrom_resolves {marks : Marks} {links : List Handle} {slot : Slot}
    (landed : (heap.followFrom marks links handle).landing = .at target slot) :
    heap.Resolves target handle ∧
      ∀ link ∈ (heap.followFrom marks links handle).links, link ∈ links ∨ heap.Resolves target link := by
  fun_induction followFrom heap marks links handle with
  | case1 => cases landed
  | case2 => cases landed
  | case3 marks links current slot' found next isLink unmet ih =>
    obtain ⟨resolves, all⟩ := ih landed
    have links : heap.LinksTo current next := ⟨slot'.state, by rw [found, ← isLink]⟩
    refine ⟨.link links resolves, fun link member => ?_⟩
    rcases all link member with member | resolved
    · rcases List.mem_cons.mp member with rfl | member
      · exact .inr (.link links resolves)
      · exact .inl member
    · exact .inr resolved
  | case4 marks links current slot' found noLink =>
    cases landed
    refine ⟨.here ⟨slot, found, fun isLink => ?_⟩, fun link member => .inl (List.mem_reverse.mp member)⟩
    cases content : slot.node with
    | indirection next => exact noLink next content
    | _ => simp [content, Node.tag] at isLink

theorem followOn_resolves {passed : List Handle} {slot : Slot}
    (landed : (heap.followOn passed handle).landing = .at target slot) :
    heap.Resolves target handle ∧
      ∀ link ∈ (heap.followOn passed handle).links, link ∈ passed ∨ heap.Resolves target link := by
  obtain ⟨resolves, all⟩ := followFrom_resolves landed
  exact ⟨resolves, fun link member => (all link member).imp_left List.mem_reverse.mp⟩

-- The number of links to the target.
inductive Distance (heap : Heap) (target : Handle) : Handle → Nat → Prop where
  | here (solid : heap.Solid target) : Distance heap target target 0
  | link {link next : Handle} {count : Nat} (links : heap.LinksTo link next)
      (rest : Distance heap target next count) : Distance heap target link (count + 1)

theorem Resolves.distance (resolves : heap.Resolves target handle) : ∃ count, heap.Distance target handle count := by
  induction resolves with
  | here solid => exact ⟨0, .here solid⟩
  | link links _ ih =>
    obtain ⟨count, rest⟩ := ih
    exact ⟨count + 1, .link links rest⟩

theorem Distance.unique {count count' : Nat} (distance : heap.Distance target handle count)
    (distance' : heap.Distance target handle count') : count = count' := by
  induction distance generalizing count' with
  | here solid =>
    cases distance' with
    | here _ => rfl
    | link links _ => exact absurd solid links.not_solid
  | link links _ ih =>
    cases distance' with
    | here solid => exact absurd solid links.not_solid
    | link links' rest' => rw [ih (links.unique links' ▸ rest')]

/-- A chain with an end is followed to it: what was passed is further away, so nothing is
met twice. -/
theorem Distance.followFrom {count : Nat} {marks : Marks} (distance : heap.Distance target handle count)
    (further : ∀ index, marks.contains index → ∃ passed count', passed.index.toNat = index ∧ count < count' ∧
      heap.Distance target passed count') (links : List Handle) :
    ∃ slot, (heap.followFrom marks links handle).landing = .at target slot := by
  induction distance generalizing marks links with
  | here solid =>
    obtain ⟨slot, found, noLink⟩ := solid
    refine ⟨slot, ?_⟩
    rw [followFrom_eq, found]
    obtain ⟨state, content⟩ := slot
    cases content with
    | indirection next => exact absurd rfl noLink
    | _ => rfl
  | @link current next count links' rest ih =>
    have links'' := links'
    obtain ⟨state, found⟩ := links'
    have unmet : ¬ marks.contains current.index.toNat := by
      intro met
      obtain ⟨passed, count', index, away, distance⟩ := further _ met
      have live : ∃ slot, heap.lookup passed = .ok slot := by
        cases distance with
        | here solid => exact ⟨solid.choose, solid.choose_spec.1⟩
        | link passes _ => exact ⟨_, passes.choose_spec⟩
      obtain ⟨slot, live⟩ := live
      obtain rfl := eq_of_lookup live found index
      have same := distance.unique (.link links'' rest)
      omega
    rw [followFrom_eq, found]
    simp only [unmet]
    apply ih
    intro index met
    rw [Marks.contains_insert, Bool.or_eq_true, beq_iff_eq] at met
    rcases met with rfl | met
    · exact ⟨current, count + 1, rfl, Nat.lt_succ_self count, .link links'' rest⟩
    · obtain ⟨passed, count', index, away, distance⟩ := further index met
      exact ⟨passed, count', index, Nat.lt_of_succ_lt away, distance⟩

theorem resolve_iff : heap.resolve handle = .ok target ↔ heap.Resolves target handle := by
  unfold resolve resolveSlot follow
  constructor
  · intro resolved
    cases landed : (heap.followOn [] handle).landing with
    | «at» ended slot =>
      rw [landed] at resolved
      cases resolved
      exact (followOn_resolves landed).1
    | loop ended =>
      rw [landed] at resolved
      cases resolved
    | broken fault =>
      rw [landed] at resolved
      cases resolved
  · intro resolves
    obtain ⟨count, distance⟩ := resolves.distance
    have lands : ∃ slot, (heap.followOn [] handle).landing = .at target slot :=
      distance.followFrom (by simp) []
    obtain ⟨slot, landed⟩ := lands
    rw [landed]
    rfl

end LazyGraph.Heap

import LazyGraph.Proofs.Heap.Assignment
import LazyGraph.Proofs.Heap.Grants

/-! Chains of indirections, link by link.

A walk that lands has taken the only route to where it landed. Pointing links at a node
changes these links and nothing else. -/

set_option autoImplicit false

namespace LazyGraph

/-- A link points at the target, and what is no link is as it was. -/
def Slot.pointed (target : Handle) (slot : Slot) : Slot :=
  (slot.redirect target).getD slot

@[simp] theorem Slot.pointed_link (state : SlotState) (old target : Handle) :
    Slot.pointed target ⟨state, .indirection old⟩ = ⟨state, .indirection target⟩ := rfl

theorem Slot.pointed_pointed (target : Handle) (slot : Slot) :
    (slot.pointed target).pointed target = slot.pointed target := by
  obtain ⟨state, content⟩ := slot
  cases content <;> rfl

theorem Slot.pointed_whnf {slot : Slot} (isWhnf : slot.node.tag.isWhnf) (target : Handle) : slot.pointed target = slot := by
  obtain ⟨state, content⟩ := slot
  cases content with
  | indirection onto => cases isWhnf
  | _ => rfl

namespace Heap

variable {heap before after : Heap} {target handle next : Handle} {links passed : List Handle} {slot : Slot}

/-- From the handle, the links lead to the target one after the other. -/
inductive Route (heap : Heap) (target : Handle) : List Handle → Handle → Prop where
  | here : Route heap target [] target
  | link {link next : Handle} {passed : List Handle} (links : heap.LinksTo link next)
      (rest : Route heap target passed next) : Route heap target (link :: passed) link

theorem Resolves.route (resolves : heap.Resolves target handle) : ∃ links, heap.Route target links handle := by
  induction resolves with
  | here _ => exact ⟨[], .here⟩
  | link links _ ih =>
    obtain ⟨passed, rest⟩ := ih
    exact ⟨_, .link links rest⟩

namespace Route

theorem resolves (route : heap.Route target links handle) (solid : heap.Solid target) : heap.Resolves target handle := by
  induction route with
  | here => exact .here solid
  | link links _ ih => exact .link links ih

theorem resolves_link (route : heap.Route target links handle) (solid : heap.Solid target) {link : Handle}
    (member : link ∈ links) : heap.Resolves target link := by
  induction route with
  | here => cases member
  | link links rest ih =>
    rcases List.mem_cons.mp member with rfl | member
    · exact .link links (rest.resolves solid)
    · exact ih member

theorem linksTo (route : heap.Route target links handle) {link : Handle} (member : link ∈ links) :
    ∃ next, heap.LinksTo link next := by
  induction route with
  | here => cases member
  | @link link next _ links _ ih =>
    rcases List.mem_cons.mp member with rfl | member
    · exact ⟨next, links⟩
    · exact ih member

theorem unique (route : heap.Route target links handle) (route' : heap.Route target passed handle)
    (solid : heap.Solid target) : links = passed := by
  induction route generalizing passed with
  | here =>
    cases route' with
    | here => rfl
    | link links' _ => exact absurd solid links'.not_solid
  | link links _ ih =>
    cases route' with
    | here => exact absurd solid links.not_solid
    | link links' rest' =>
      obtain rfl := links.unique links'
      rw [ih rest']

theorem append {middle : Handle} (route : heap.Route middle links handle) (rest : heap.Route target passed middle) :
    heap.Route target (links ++ passed) handle := by
  induction route with
  | here => exact rest
  | link links _ ih => exact .link links ih

theorem mono (route : before.Route target links handle)
    (kept : ∀ link ∈ links, after.lookup link = before.lookup link) : after.Route target links handle := by
  induction route with
  | here => exact .here
  | link linked _ ih =>
    obtain ⟨same, rest⟩ := List.forall_mem_cons.mp kept
    obtain ⟨state, found⟩ := linked
    exact .link ⟨state, same.trans found⟩ (ih rest)

end Route

theorem followFrom_route {marks : Marks} (landed : (heap.followFrom marks passed handle).landing = .at target slot) :
    ∃ further, (heap.followFrom marks passed handle).links = passed.reverse ++ further ∧
      heap.Route target further handle := by
  fun_induction followFrom heap marks passed handle with
  | case1 => cases landed
  | case2 => cases landed
  | case3 marks passed current slot' found next isLink unmet ih =>
    obtain ⟨further, same, route⟩ := ih landed
    refine ⟨current :: further, by simp [same], .link ⟨slot'.state, ?_⟩ route⟩
    rw [found, ← isLink]
  | case4 =>
    cases landed
    exact ⟨[], by simp, .here⟩

theorem follow_route (chain : heap.followOn [] handle = ⟨links, .at target slot⟩) : heap.Route target links handle := by
  obtain ⟨further, same, route⟩ := followFrom_route (congrArg Chain.landing chain)
  obtain rfl : links = further := by simpa [followOn] using (congrArg Chain.links chain).symm.trans same
  exact route

/-- A route to a node that is no indirection is the one that is walked. -/
theorem Route.follow (route : heap.Route target links handle) (found : heap.lookup target = .ok slot)
    (noLink : slot.node.tag ≠ .indirection) : heap.followOn [] handle = ⟨links, .at target slot⟩ := by
  have solid : heap.Solid target := ⟨slot, found, noLink⟩
  obtain ⟨count, distance⟩ := (route.resolves solid).distance
  obtain ⟨slot', landed'⟩ : ∃ slot', (heap.followOn [] handle).landing = .at target slot' :=
    distance.followFrom (fun index met => by simp at met) []
  have found' := (followOn_at landed').1
  cases found.symm.trans found'
  rcases chain : heap.followOn [] handle with ⟨passed, landing⟩
  rw [chain] at landed'
  cases landed'
  rw [(follow_route chain).unique route solid]

/-! ### Pointing links at a node -/

/-- The links are pointed at the target, one after the other. -/
def pointAll (heap : Heap) (links : List Handle) (target : Handle) : Heap :=
  links.foldl (fun heap link => (redirect link target heap).state) heap

theorem redirect_state (heap : Heap) (link target : Handle) :
    (redirect link target heap).state = heap ∨
      ∃ state old, heap.lookup link = .ok ⟨state, .indirection old⟩ ∧
        (redirect link target heap).state = heap.put link.index.toNat ⟨state, .indirection target⟩ := by
  unfold redirect transition
  cases found : heap.lookup link with
  | error fault => exact .inl rfl
  | ok slot =>
    obtain ⟨state, content⟩ := slot
    cases content with
    | indirection old => exact .inr ⟨state, old, rfl, rfl⟩
    | _ => exact .inl rfl

theorem pointAll_induct {holds : Heap → Prop} (links : List Handle) (target : Handle) (begins : holds heap)
    (step : ∀ {heap link state old}, link ∈ links → holds heap → heap.lookup link = .ok ⟨state, .indirection old⟩ →
      holds (heap.put link.index.toNat ⟨state, .indirection target⟩)) : holds (heap.pointAll links target) := by
  induction links generalizing heap with
  | nil => exact begins
  | cons link links ih =>
    have first : holds (redirect link target heap).state := by
      rcases redirect_state heap link target with same | ⟨state, old, found, same⟩
      · rw [same]
        exact begins
      · rw [same]
        exact step (.head _) begins found
    exact ih first fun member => step (.tail _ member)

theorem pointAll_rest (heap : Heap) (links : List Handle) (target : Handle) :
    (heap.pointAll links target).waits = heap.waits ∧ (heap.pointAll links target).maxNodes = heap.maxNodes ∧
      (heap.pointAll links target).capacity = heap.capacity := by
  refine @pointAll_induct _ (fun after => after.waits = heap.waits ∧ after.maxNodes = heap.maxNodes ∧
    after.capacity = heap.capacity) links target ⟨rfl, rfl, rfl⟩ ?_
  rintro after link state old _ ⟨waits, bound, capacity⟩ _
  exact ⟨waits, bound, (capacity_put after _ _).trans capacity⟩

theorem pointAll_free (sound : heap.FreeListSound) (links : List Handle) (target : Handle) :
    (heap.pointAll links target).FreeListSound := by
  refine pointAll_induct links target sound ?_
  intro heap link state old _ sound found
  exact sound.rewrites (put_rewrites found rfl rfl)

theorem pointAll_offers (heap : Heap) (links : List Handle) (target : Handle) {handle : Handle}
    (offers : (heap.pointAll links target).Offers handle) : heap.Offers handle := by
  refine @pointAll_induct _ (fun after => after.Offers handle → heap.Offers handle) links target id ?_ offers
  intro after link state old _ early found offers
  exact early ((put_rewrites found rfl rfl : after.Rewrites _ link _ _).offers offers)

/-- Links that are listed point at the target, and all else is as it was. -/
theorem lookup_pointAll (heap : Heap) (links : List Handle) (target handle : Handle) :
    (heap.pointAll links target).lookup handle =
      if handle ∈ links then (heap.lookup handle).map (Slot.pointed target) else heap.lookup handle := by
  induction links generalizing heap with
  | nil => simp [pointAll]
  | cons link links ih =>
    have unfolds : heap.pointAll (link :: links) target = (redirect link target heap).state.pointAll links target := rfl
    have first : (redirect link target heap).state.lookup handle =
        if handle = link then (heap.lookup handle).map (Slot.pointed target) else heap.lookup handle := by
      by_cases same : handle = link
      · subst same
        rw [if_pos rfl]
        unfold redirect transition
        cases found : heap.lookup handle with
        | error fault => exact found
        | ok slot =>
          obtain ⟨state, content⟩ := slot
          cases content with
          | indirection old =>
            have rewrites : heap.Rewrites (heap.put handle.index.toNat ⟨state, .indirection target⟩) handle _ _ :=
              put_rewrites found rfl rfl
            exact (rewrites.lookup handle).trans (if_pos rfl)
          | _ => exact found
      · rw [if_neg same]
        rcases redirect_state heap link target with kept | ⟨state, old, found, written⟩
        · rw [kept]
        · have rewrites : heap.Rewrites (heap.put link.index.toNat ⟨state, .indirection target⟩) link _ _ :=
            put_rewrites found rfl rfl
          rw [written, rewrites.lookup, if_neg same]
    rw [unfolds, ih, first]
    by_cases same : handle = link
    · subst same
      simp only [if_true, List.mem_cons_self]
      split
      · cases heap.lookup handle with
        | error fault => rfl
        | ok slot => exact congrArg Except.ok (Slot.pointed_pointed target slot)
      · rfl
    · simp only [List.mem_cons, same, false_or, if_false]

theorem put_self (found : heap.lookup handle = .ok slot) : heap.put handle.index.toNat slot = heap := by
  have present := lookup_eq_ok.mp found
  have same : heap.entries.modify handle.index.toNat (fun entry => { entry with slot := some slot }) = heap.entries := by
    refine Array.ext_getElem? fun index => ?_
    rw [Array.getElem?_modify]
    split
    · rename_i here
      rw [← here, present]
      rfl
    · rfl
  rw [put, same]

theorem pointAll_still (linked : heap.LinksTo handle target) : heap.pointAll [handle] target = heap := by
  obtain ⟨state, found⟩ := linked
  change (redirect handle target heap).state = heap
  rcases redirect_state heap handle target with same | ⟨state', old, found', same⟩
  · exact same
  · cases found.symm.trans found'
    exact same.trans (put_self found)

theorem pointAll_append (heap : Heap) (links passed : List Handle) (target : Handle) :
    heap.pointAll (links ++ passed) target = (heap.pointAll links target).pointAll passed target :=
  List.foldl_append

end Heap

end LazyGraph

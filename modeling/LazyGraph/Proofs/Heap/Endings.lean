import LazyGraph.Proofs.Heap.Walks
import LazyGraph.Proofs.Heap.WellFormed
import Mathlib.Logic.Function.Iterate

/-! How chains of indirections end.

A chain ends at a live node that is no indirection, or at a handle that names nothing, or it has no
end at all. Resolving a handle tells which of the three it is. The walk passes each link once, so it
is over after one step more than the heap has links; and whatever is read at the end of a chain can
be read from every handle on it. -/

set_option autoImplicit false

namespace LazyGraph.Heap

variable {heap : Heap} {marks : Marks} {passed links : List Handle} {start handle next target last : Handle}
  {slot : Slot}

def Endless (heap : Heap) (start : Handle) : Prop :=
  ∃ chain : Nat → Handle, chain 0 = start ∧ ∀ place, heap.LinksTo (chain place) (chain (place + 1))

/-- Links lead from the handle to one that names nothing. -/
def Dangles (heap : Heap) (start : Handle) : Prop :=
  ∃ links last, heap.Route last links start ∧ ¬ heap.Live last

theorem LinksTo.live (linked : heap.LinksTo handle next) : heap.Live handle := by
  obtain ⟨state, found⟩ := linked
  exact ⟨_, found⟩

/-! ### One ending for each chain -/

namespace Endless

theorem linksTo (endless : heap.Endless start) : ∃ next, heap.LinksTo start next := by
  obtain ⟨chain, rfl, linked⟩ := endless
  exact ⟨_, linked 0⟩

theorem tail (endless : heap.Endless start) (linked : heap.LinksTo start next) : heap.Endless next := by
  obtain ⟨chain, rfl, links⟩ := endless
  exact ⟨fun place => chain (place + 1), (links 0).unique linked, fun place => links (place + 1)⟩

theorem route (endless : heap.Endless start) (route : heap.Route last links start) : heap.Endless last := by
  induction route with
  | here => exact endless
  | link linked _ ih => exact ih (endless.tail linked)

theorem not_dangles (endless : heap.Endless start) : ¬ heap.Dangles start := by
  rintro ⟨links, last, route, dead⟩
  obtain ⟨next, linked⟩ := (endless.route route).linksTo
  exact dead linked.live

theorem not_resolves (endless : heap.Endless start) : ¬ heap.Resolves target start := by
  intro resolves
  obtain ⟨links, route⟩ := resolves.route
  obtain ⟨next, linked⟩ := (endless.route route).linksTo
  exact linked.not_solid resolves.solid

theorem of_closed (member : start ∈ links) (closed : ∀ link ∈ links, ∃ next ∈ links, heap.LinksTo link next) :
    heap.Endless start := by
  have : Nonempty Handle := ⟨start⟩
  choose! onward inside linked using closed
  have stays : ∀ place, onward^[place] start ∈ links := by
    intro place
    induction place with
    | zero => exact member
    | succ place ih =>
      rw [Function.iterate_succ_apply']
      exact inside _ ih
  refine ⟨fun place => onward^[place] start, rfl, fun place => ?_⟩
  simp only [Function.iterate_succ_apply']
  exact linked _ (stays place)

end Endless

/-- From a link on the way one comes to the next, or to the end of the way. -/
theorem Route.onward (route : heap.Route target links handle) {link : Handle} (member : link ∈ links) :
    ∃ next, heap.LinksTo link next ∧ (next ∈ links ∨ next = target) := by
  induction route with
  | here => cases member
  | @link first second passed linked rest ih =>
    rcases List.mem_cons.mp member with rfl | member
    · refine ⟨second, linked, ?_⟩
      cases rest with
      | here => exact .inr rfl
      | link => exact .inl (by simp)
    · obtain ⟨next, linked', inside⟩ := ih member
      exact ⟨next, linked', inside.imp_left (.tail _)⟩

theorem Route.start_mem (route : heap.Route target links start) (some : links ≠ []) : start ∈ links := by
  cases route with
  | here => exact absurd rfl some
  | link => exact .head _

theorem Revisits.endless (revisits : heap.Revisits start handle) : heap.Endless start := by
  obtain ⟨approach, cycle, some, _, early, late⟩ := revisits
  have route := early.append late
  have back : handle ∈ approach ++ cycle := List.mem_append_right _ (late.start_mem some)
  refine .of_closed (route.start_mem (by simp [some])) fun link member => ?_
  obtain ⟨next, linked, inside | rfl⟩ := route.onward member
  · exact ⟨next, inside, linked⟩
  · exact ⟨next, back, linked⟩

theorem Resolves.along (resolves : heap.Resolves target start) (route : heap.Route handle links start) :
    heap.Resolves target handle := by
  induction route with
  | here => exact resolves
  | link linked _ ih =>
    cases resolves with
    | here solid => exact absurd solid linked.not_solid
    | link linked' rest => exact ih (linked'.unique linked ▸ rest)

theorem Resolves.not_dangles (resolves : heap.Resolves target start) : ¬ heap.Dangles start := by
  rintro ⟨links, last, route, dead⟩
  cases resolves.along route with
  | here solid => exact dead ⟨solid.choose, solid.choose_spec.1⟩
  | link linked _ => exact dead linked.live

theorem followFrom_dangles {fault : Fault} (landed : (heap.followFrom marks passed handle).landing = .broken fault) :
    heap.Dangles handle := by
  fun_induction followFrom heap marks passed handle with
  | case1 marks passed current fault' found =>
    refine ⟨[], current, .here, ?_⟩
    rintro ⟨slot, live⟩
    cases found.symm.trans live
  | case2 | case4 => cases landed
  | case3 marks passed current slot found next isLink unmet ih =>
    obtain ⟨links, last, route, dead⟩ := ih landed
    exact ⟨current :: links, last, .link ⟨slot.state, by rw [found, ← isLink]⟩ route, dead⟩

/-- Resolving ends in one of three ways, each of which tells how the chain ends. -/
theorem resolve_cases (heap : Heap) (start : Handle) :
    (∃ target, heap.resolve start = .ok target ∧ heap.Resolves target start) ∨
      (∃ defect, heap.resolve start = .error (.malformed defect) ∧ heap.Dangles start) ∨
      (heap.resolve start = .error (.nonTermination start) ∧ heap.Endless start) := by
  cases landed : (heap.follow start).landing with
  | «at» target slot =>
    have resolves := (followOn_resolves landed).1
    exact .inl ⟨target, resolve_iff.mpr resolves, resolves⟩
  | broken fault =>
    obtain ⟨defect, rfl⟩ := followFrom_broken landed
    refine .inr (.inl ⟨defect, ?_, followFrom_dangles landed⟩)
    simp only [resolve, resolveSlot, landed, Except.map]
  | loop node =>
    refine .inr (.inr ⟨?_, (follow_loop_iff.mp landed).endless⟩)
    simp only [resolve, resolveSlot, landed, Except.map]

theorem resolve_malformed_iff : (∃ defect, heap.resolve start = .error (.malformed defect)) ↔ heap.Dangles start := by
  rcases resolve_cases heap start with ⟨target, resolved, resolves⟩ | ⟨defect, resolved, dangles⟩ | ⟨resolved, endless⟩
  · exact iff_of_false (by simp [resolved]) resolves.not_dangles
  · exact iff_of_true ⟨defect, resolved⟩ dangles
  · exact iff_of_false (by simp [resolved]) endless.not_dangles

theorem resolve_nonTermination_iff : heap.resolve start = .error (.nonTermination start) ↔ heap.Endless start := by
  rcases resolve_cases heap start with ⟨target, resolved, resolves⟩ | ⟨defect, resolved, dangles⟩ | ⟨resolved, endless⟩
  · exact iff_of_false (by simp [resolved]) fun endless => endless.not_resolves resolves
  · exact iff_of_false (by simp [resolved]) fun endless => endless.not_dangles dangles
  · exact iff_of_true resolved endless

/-! ### Reading at the end of a chain -/

theorem resolveSlot_eq_ok :
    heap.resolveSlot start = .ok (target, slot) ↔ heap.Resolves target start ∧ heap.lookup target = .ok slot := by
  constructor
  · intro resolved
    unfold resolveSlot at resolved
    split at resolved
    · rename_i landed
      cases resolved
      exact ⟨(followOn_resolves landed).1, (followOn_at landed).1⟩
    · cases resolved
    · cases resolved
  · rintro ⟨resolves, found⟩
    obtain ⟨links, route⟩ := resolves.route
    have noLink : slot.node.tag ≠ .indirection := by
      obtain ⟨slot', found', noLink⟩ := resolves.solid
      cases found.symm.trans found'
      exact noLink
    have walk : heap.follow start = ⟨links, .at target slot⟩ := route.follow found noLink
    simp only [resolveSlot, walk]

theorem value_eq_none_iff : heap.value start = .ok none ↔
    ∃ target state expr env, heap.Resolves target start ∧ heap.lookup target = .ok ⟨state, .thunk expr env⟩ := by
  constructor
  · intro shown
    cases resolved : heap.resolveSlot start with
    | error fault => simp [value, resolved, Except.map] at shown
    | ok landing =>
      obtain ⟨target, state, content⟩ := landing
      obtain ⟨resolves, found⟩ := resolveSlot_eq_ok.mp resolved
      simp only [value, resolved, Except.map, Except.ok.injEq] at shown
      cases content with
      | thunk expr env => exact ⟨target, state, expr, env, resolves, found⟩
      | indirection next =>
        obtain ⟨slot, found', noLink⟩ := resolves.solid
        cases found.symm.trans found'
        exact absurd rfl noLink
      | _ => cases shown
  · rintro ⟨target, state, expr, env, resolves, found⟩
    simp only [value, resolveSlot_eq_ok.mpr ⟨resolves, found⟩, Except.map, Node.value?]

/-- A chain with an end is read alike from all that it passes. -/
theorem resolveSlot_onward (resolved : heap.resolve start = .ok target) (route : heap.Route handle links start) :
    heap.resolveSlot handle = heap.resolveSlot start := by
  have resolves := resolve_iff.mp resolved
  obtain ⟨slot, found, _⟩ := resolves.solid
  rw [resolveSlot_eq_ok.mpr ⟨resolves, found⟩, resolveSlot_eq_ok.mpr ⟨resolves.along route, found⟩]

/-! ### The length of a walk -/

/-- The walk, if so many steps are enough for it. A step looks at one handle. -/
def followWithin (heap : Heap) :
    (steps : Nat) → (marks : Marks) → (links : List Handle) → (current : Handle) → Option Chain
  | 0, _, _, _ => none
  | steps + 1, marks, links, current =>
    match heap.lookup current with
    | .error fault => some ⟨links.reverse, .broken fault⟩
    | .ok slot =>
      match slot.node with
      | .indirection target =>
        if marks.contains current.index.toNat then some ⟨links.reverse, .loop current⟩
        else heap.followWithin steps (marks.insert current.index.toNat) (current :: links) target
      | _ => some ⟨links.reverse, .at current slot⟩

def linkCount (heap : Heap) : Nat :=
  (List.range heap.capacity).countP fun place => (heap.slotAt? place).any fun slot => slot.node.tag = .indirection

theorem passed_le (heap : Heap) (marks : Marks) (passed : List Handle) (handle : Handle) :
    passed.length ≤ (heap.followFrom marks passed handle).links.length := by
  obtain ⟨further, _, walked, _⟩ := heap.followFrom_walk marks passed handle
  rw [walked, List.length_append, List.length_reverse]
  exact Nat.le_add_right _ _

/-- A walk takes one step for each link that it passes, and a last one. -/
theorem followWithin_eq {steps : Nat}
    (enough : (heap.followFrom marks passed handle).links.length < passed.length + steps) :
    heap.followWithin steps marks passed handle = some (heap.followFrom marks passed handle) := by
  induction steps generalizing marks passed handle with
  | zero => exact absurd (heap.passed_le marks passed handle) (Nat.not_le.mpr enough)
  | succ steps ih =>
    rw [followFrom_eq] at enough ⊢
    rw [followWithin]
    cases found : heap.lookup handle with
    | error fault => rfl
    | ok slot =>
      obtain ⟨state, content⟩ := slot
      cases content with
      | indirection next =>
        by_cases met : marks.contains handle.index.toNat
        · simp only [met, if_true]
        · simp only [found, met, Bool.false_eq_true, if_false] at enough ⊢
          exact ih (by rw [List.length_cons]; omega)
      | _ => rfl

theorem links_le (heap : Heap) (start : Handle) : (heap.follow start).links.length ≤ heap.linkCount := by
  obtain ⟨links, last, walked, route, distinct, _⟩ := heap.followFrom_walk .empty [] start
  have apart : (links.map fun link => link.index.toNat).Nodup := by
    refine distinct.map_on fun link member other member' sameIndex => ?_
    obtain ⟨_, _, found⟩ := route.linksTo member
    obtain ⟨_, _, found'⟩ := route.linksTo member'
    exact eq_of_lookup found found' sameIndex
  have placed : (links.map fun link => link.index.toNat) ⊆
      (List.range heap.capacity).filter fun place =>
        (heap.slotAt? place).any fun slot => slot.node.tag = .indirection := by
    intro index member
    obtain ⟨link, passed, rfl⟩ := List.mem_map.mp member
    obtain ⟨_, _, found⟩ := route.linksTo passed
    have present := lookup_eq_ok.mp found
    exact List.mem_filter.mpr ⟨List.mem_range.mpr (index_lt_of_lookup found), by simp [slotAt?, present, Node.tag]⟩
  have walked : (heap.follow start).links = links := walked
  have bound := (apart.subperm placed).length_le
  rw [walked]
  rwa [List.length_map, ← List.countP_eq_length_filter] at bound

/-- Resolving is over within one step more than there are live indirections, and it tells how the
chain ends: with the live node where it ends, as malformed if links lead to a handle that names
nothing, and as non-termination if they go on for ever. So there is no value exactly where a chain
ends in a thunk, and value and ordinal at the end of a chain are those of all that it passes. -/
theorem resolve_exact (heap : Heap) (start : Handle) :
    heap.followWithin (heap.linkCount + 1) .empty [] start = some (heap.follow start) ∧
    (∀ target, heap.resolve start = .ok target ↔ heap.Resolves target start) ∧
    ((∃ defect, heap.resolve start = .error (.malformed defect)) ↔ heap.Dangles start) ∧
    ((∃ node, heap.resolve start = .error (.nonTermination node)) ↔ heap.Endless start) ∧
    ((∃ target, heap.resolve start = .ok target) ∨ (∃ defect, heap.resolve start = .error (.malformed defect)) ∨
      heap.resolve start = .error (.nonTermination start)) ∧
    (heap.value start = .ok none ↔ ∃ target state expr env, heap.Resolves target start ∧
      heap.lookup target = .ok ⟨state, .thunk expr env⟩) ∧
    (∀ target handle links, heap.resolve start = .ok target → heap.Route handle links start →
      heap.value handle = heap.value start ∧ heap.ordinal handle = heap.ordinal start) := by
  refine ⟨?brief, fun target => resolve_iff, resolve_malformed_iff, ?endless, ?total, value_eq_none_iff, ?alike⟩
  case brief =>
    have bound : (heap.follow start).links.length < ([] : List Handle).length + (heap.linkCount + 1) := by
      rw [List.length_nil, Nat.zero_add]
      exact Nat.lt_succ_of_le (heap.links_le start)
    exact followWithin_eq bound
  case endless =>
    refine ⟨?_, fun endless => ⟨start, resolve_nonTermination_iff.mpr endless⟩⟩
    rintro ⟨node, resolved⟩
    rcases resolve_cases heap start with ⟨_, resolved', _⟩ | ⟨_, resolved', _⟩ | ⟨_, endless⟩
    · cases resolved.symm.trans resolved'
    · cases resolved.symm.trans resolved'
    · exact endless
  case total =>
    rcases resolve_cases heap start with ⟨target, resolved, _⟩ | ⟨defect, resolved, _⟩ | ⟨resolved, _⟩
    · exact .inl ⟨target, resolved⟩
    · exact .inr (.inl ⟨defect, resolved⟩)
    · exact .inr (.inr resolved)
  case alike =>
    intro target handle links resolved route
    have same := resolveSlot_onward resolved route
    constructor
    · rw [value, value, same]
    · rw [ordinal, ordinal, same]

/-! ### A chain, a ring and a link to nowhere -/

def knottedNodes : List Node :=
  [.int 9, .indirection ⟨0, 0⟩, .indirection ⟨1, 0⟩, .indirection ⟨4, 0⟩, .indirection ⟨3, 0⟩, .indirection ⟨9, 0⟩]

def knotted : Heap :=
  .ofNodes knottedNodes

theorem resolve_exact_knotted :
    knotted.resolve ⟨2, 0⟩ = .ok ⟨0, 0⟩ ∧ knotted.value ⟨1, 0⟩ = knotted.value ⟨2, 0⟩ ∧
      knotted.Endless ⟨3, 0⟩ ∧ knotted.Dangles ⟨5, 0⟩ := by
  have resolved : knotted.resolve ⟨2, 0⟩ = .ok ⟨0, 0⟩ := by decide +kernel
  have looped : knotted.resolve ⟨3, 0⟩ = .error (.nonTermination ⟨3, 0⟩) := by decide +kernel
  have broken : knotted.resolve ⟨5, 0⟩ = .error (.malformed (.dangling 9)) := by decide +kernel
  have route : knotted.Route ⟨1, 0⟩ [⟨2, 0⟩] ⟨2, 0⟩ := .link ⟨.evaluated, rfl⟩ .here
  obtain ⟨_, _, _, _, _, _, alike⟩ := resolve_exact knotted ⟨2, 0⟩
  obtain ⟨_, _, _, endless, _⟩ := resolve_exact knotted ⟨3, 0⟩
  obtain ⟨_, _, dangling, _⟩ := resolve_exact knotted ⟨5, 0⟩
  exact ⟨resolved, (alike _ _ _ resolved route).1, endless.mp ⟨_, looped⟩, dangling.mp ⟨_, broken⟩⟩

end LazyGraph.Heap

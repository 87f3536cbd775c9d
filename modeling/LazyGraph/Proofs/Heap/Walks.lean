import LazyGraph.Proofs.Heap.Routes
import Mathlib.Data.List.Nodup
import Mathlib.Data.List.Perm.Subperm

/-! Walks along indirections.

A walk passes each link once. It ends where the chain ends, or where it comes back to a link. -/

set_option autoImplicit false

namespace LazyGraph.Heap

variable {heap : Heap} {marks : Marks} {passed links : List Handle} {handle node target : Handle}

/-- The walk from the handle comes back to a link: some links lead to the node and some from it
back to it, all of them passed once. -/
def Revisits (heap : Heap) (handle node : Handle) : Prop :=
  ∃ approach cycle, cycle ≠ [] ∧ (approach ++ cycle).Nodup ∧ heap.Route node approach handle ∧ heap.Route node cycle node

namespace Route

theorem split {before rest : List Handle} {link : Handle} (route : heap.Route target (before ++ link :: rest) handle) :
    heap.Route link before handle ∧ heap.Route target (link :: rest) link := by
  induction before generalizing handle with
  | nil =>
    cases route with
    | link linked rest => exact ⟨.here, .link linked rest⟩
  | cons first before ih =>
    cases route with
    | link linked rest =>
      obtain ⟨early, late⟩ := ih rest
      exact ⟨.link linked early, late⟩

theorem followFrom (route : heap.Route target links handle) (distinct : links.Nodup)
    (fresh : ∀ link ∈ links, marks.contains link.index.toNat = false) (passed : List Handle) :
    heap.followFrom marks passed handle =
      heap.followFrom (links.foldl (fun marks link => marks.insert link.index.toNat) marks) (links.reverse ++ passed)
        target := by
  induction route generalizing marks passed with
  | here => rfl
  | @link link next links linked rest ih =>
    obtain ⟨once, distinct⟩ := List.nodup_cons.mp distinct
    obtain ⟨unmet, fresh⟩ := List.forall_mem_cons.mp fresh
    obtain ⟨state, found⟩ := linked
    have fresh' : ∀ other ∈ links, (marks.insert link.index.toNat).contains other.index.toNat = false := by
      intro other member
      have apart : link.index.toNat ≠ other.index.toNat := by
        intro same
        obtain ⟨_, _, found'⟩ := rest.linksTo member
        exact once (eq_of_lookup found found' same ▸ member)
      simpa [apart] using fresh other member
    rw [followFrom_eq, found]
    simp only [unmet, Bool.false_eq_true, if_false]
    rw [ih distinct fresh']
    simp

end Route

/-- Where a walk has come from a handle: along new links, each passed once, to where it ends. -/
theorem followFrom_walk (heap : Heap) (marks : Marks) (passed : List Handle) (handle : Handle) :
    ∃ further last, (heap.followFrom marks passed handle).links = passed.reverse ++ further ∧
      heap.Route last further handle ∧ further.Nodup ∧ (∀ link ∈ further, marks.contains link.index.toNat = false) ∧
      ∀ node, (heap.followFrom marks passed handle).landing = .loop node →
        node = last ∧ (∃ next, heap.LinksTo node next) ∧ (marks.contains node.index.toNat = true ∨ node ∈ further) := by
  fun_induction Heap.followFrom heap marks passed handle with
  | case1 marks passed current fault found =>
    exact ⟨[], current, by simp, .here, .nil, List.forall_mem_nil _, by simp⟩
  | case2 marks passed current slot found next isLink met =>
    refine ⟨[], current, by simp, .here, .nil, List.forall_mem_nil _, ?_⟩
    rintro node ⟨⟩
    exact ⟨rfl, ⟨next, slot.state, by rw [found, ← isLink]⟩, .inl met⟩
  | case3 marks passed current slot found next isLink unmet ih =>
    obtain ⟨further, last, same, route, distinct, fresh, loops⟩ := ih
    have linked : heap.LinksTo current next := ⟨slot.state, by rw [found, ← isLink]⟩
    have fresh' : ∀ link ∈ further, link ≠ current ∧ marks.contains link.index.toNat = false := by
      intro link member
      have unmarked := fresh link member
      simp only [Marks.contains_insert, Bool.or_eq_false_iff, beq_eq_false_iff_ne] at unmarked
      exact ⟨fun same => unmarked.1 (same ▸ rfl), unmarked.2⟩
    refine ⟨current :: further, last, by simp [same], .link linked route, ?_, ?_, ?_⟩
    · exact List.nodup_cons.mpr ⟨fun member => (fresh' current member).1 rfl, distinct⟩
    · exact List.forall_mem_cons.mpr ⟨by simpa using unmet, fun link member => (fresh' link member).2⟩
    · intro node landed
      obtain ⟨rfl, ⟨onward, state, found'⟩, met⟩ := loops node landed
      refine ⟨rfl, ⟨onward, state, found'⟩, ?_⟩
      rcases met with met | member
      · simp only [Marks.contains_insert, Bool.or_eq_true, beq_iff_eq] at met
        rcases met with same | met
        · exact .inr (eq_of_lookup found found' same ▸ .head _)
        · exact .inl met
      · exact .inr (.tail _ member)
  | case4 marks passed current slot found noLink =>
    exact ⟨[], current, by simp, .here, .nil, List.forall_mem_nil _, by simp⟩

theorem follow_loop_iff : (heap.follow handle).landing = .loop node ↔ heap.Revisits handle node := by
  constructor
  · intro landed
    obtain ⟨links, last, _, route, distinct, _, loops⟩ := heap.followFrom_walk .empty [] handle
    obtain ⟨rfl, _, met⟩ := loops node landed
    obtain ⟨approach, rest, rfl⟩ := List.append_of_mem (met.resolve_left (by simp))
    obtain ⟨early, late⟩ := route.split
    exact ⟨approach, node :: rest, List.cons_ne_nil _ _, distinct, early, late⟩
  · rintro ⟨approach, cycle, some, distinct, early, late⟩
    have route := early.append late
    have fresh : ∀ link ∈ approach ++ cycle, Marks.empty.contains link.index.toNat = false :=
      fun link _ => Marks.contains_empty _
    have walk := route.followFrom distinct fresh []
    have member : node ∈ approach ++ cycle := by
      cases late with
      | here => exact absurd rfl some
      | link => simp
    obtain ⟨next, state, found⟩ := route.linksTo member
    have met := (contains_passed (approach ++ cycle) .empty node.index.toNat).mpr (.inr ⟨node, member, rfl⟩)
    rw [follow, followOn, List.foldl_nil, List.reverse_nil, walk, followFrom_eq, found]
    simp only [met, if_true]

/-- A walk passes each link once, so no more links than there are slots. -/
theorem follow_brief (heap : Heap) (handle : Handle) :
    (heap.follow handle).links.Nodup ∧ (heap.follow handle).links.length ≤ heap.capacity := by
  obtain ⟨links, last, same, route, distinct, _, _⟩ := heap.followFrom_walk .empty [] handle
  have walked : (heap.follow handle).links = links := same
  have apart : (links.map fun link => link.index.toNat).Nodup := by
    refine distinct.map_on fun link member other member' sameIndex => ?_
    obtain ⟨_, _, found⟩ := route.linksTo member
    obtain ⟨_, _, found'⟩ := route.linksTo member'
    exact eq_of_lookup found found' sameIndex
  have inside : (links.map fun link => link.index.toNat) ⊆ List.range heap.capacity := by
    intro index member
    obtain ⟨link, passed, rfl⟩ := List.mem_map.mp member
    obtain ⟨_, _, found⟩ := route.linksTo passed
    exact List.mem_range.mpr (index_lt_of_lookup found)
  rw [walked]
  exact ⟨distinct, by simpa using (apart.subperm inside).length_le⟩

end LazyGraph.Heap

import LazyGraph.Machine.Reduce
import LazyGraph.Proofs.Code.Parts
import LazyGraph.Proofs.Code.Scope
import LazyGraph.Proofs.Heap.Reachability
import LazyGraph.Proofs.Heap.WellFormed

/-! Heaps that change in a region only.

The region is a fixed set of handles, and what its nodes hold lies in it. A write to a
handle of the region keeps this when the new node stays in it. Allocation keeps it when
the region holds every handle that named nothing at the start: new handles are of these,
so the region needs no growth. -/

set_option autoImplicit false

namespace LazyGraph

/-! ### Things that stay in a region -/

structure Node.StaysIn (region : Handle → Prop) (node : Node) : Prop where
  references : ∀ handle ∈ node.references, region handle
  code : ∀ code, node.code? = some code → code.StaysIn region

def Suspension.StaysIn (region : Handle → Prop) : Suspension → Prop
  | .existing handle => region handle
  | .new node => node.StaysIn region

/-- The expression can run in the environment without leaving the region. -/
structure ClosureIn (region : Handle → Prop) (expr : Expr) (env : Env) : Prop where
  env : ∀ handle ∈ env, region handle
  code : expr.StaysIn region

variable {region : Handle → Prop}

theorem Node.Plain.staysIn {node : Node} (plain : node.Plain) : node.StaysIn region where
  references := by simp [plain.references]
  code := by simp [plain.code]

theorem Env.lookup_staysIn {env : Env} (inside : ∀ handle ∈ env, region handle) {slot : UInt64} {handle : Handle}
    (found : env.lookup slot = .ok handle) : region handle := by
  unfold Env.lookup at found
  split at found
  · rename_i present
    cases found
    exact inside _ (List.mem_of_getElem? present)
  · cases found

theorem Env.close_staysIn {env : Env} (inside : ∀ handle ∈ env, region handle) {code : Lambda Expr}
    (body : code.body.StaysIn region) {captures : List UInt64} {node : Node}
    (closed : env.close code captures = .ok node) : node.StaysIn region := by
  unfold Env.close at closed
  split at closed
  · simp only [bind, Except.bind] at closed
    split at closed
    · cases closed
    · rename_i handles captured
      cases closed
      refine ⟨fun handle member => ?_, ?_⟩
      · obtain ⟨slot, _, found⟩ := of_mem_mapM captured member
        exact lookup_staysIn inside found
      · rintro _ ⟨⟩
        exact body
  · cases closed

theorem Env.suspend_staysIn {env : Env} {expr : Expr} (closure : ClosureIn region expr env) {suspension : Suspension}
    (suspended : env.suspend expr = .ok suspension) : suspension.StaysIn region := by
  have thunk : (Node.thunk expr env).StaysIn region := by
    refine ⟨closure.env, ?_⟩
    rintro _ ⟨⟩
    exact closure.code
  obtain ⟨label, form⟩ := expr
  unfold Env.suspend at suspended
  cases form with
  | var slot =>
    cases found : env.lookup slot with
    | ok handle =>
      simp only [found] at suspended
      cases suspended
      exact lookup_staysIn closure.env found
    | error fault =>
      simp only [found] at suspended
      cases suspended
  | global node =>
    cases suspended
    exact closure.code.names node .global
  | char | int | double | text =>
    cases suspended
    exact Node.Plain.staysIn ⟨rfl, rfl, rfl⟩
  | lambda code captures =>
    have body : code.body.StaysIn region := closure.code.child (.head _)
    cases closed : env.close code captures with
    | ok node =>
      simp only [closed] at suspended
      cases suspended
      exact close_staysIn closure.env body closed
    | error fault =>
      simp only [closed] at suspended
      cases suspended
  | data | apply | primitive | host | choose | letrec | seq | raise =>
    cases suspended
    exact thunk

theorem Env.binding_staysIn {env : Env} {expr : Expr} (closure : ClosureIn region expr env) {node : Node}
    (bound : env.binding expr = .ok node) : node.StaysIn region := by
  unfold Env.binding at bound
  cases suspended : env.suspend expr with
  | error fault =>
    rw [suspended] at bound
    cases bound
  | ok suspension =>
    rw [suspended] at bound
    have stays := suspend_staysIn closure suspended
    cases suspension with
    | existing handle =>
      cases bound
      exact ⟨List.forall_mem_singleton.mpr stays, nofun⟩
    | new node =>
      cases bound
      exact stays

/-! ### Heaps that changed in the region only -/

namespace Heap

structure Confined (start : Heap) (region : Handle → Prop) (heap : Heap) : Prop where
  free : heap.FreeListSound
  outside : ∀ handle, ¬ region handle → heap.lookup handle = start.lookup handle
  live : ∀ handle, start.Live handle → heap.Live handle
  nodes : ∀ {handle slot}, region handle → heap.lookup handle = .ok slot → slot.node.StaysIn region

variable {start before after heap : Heap} {node : Handle} {old new : Slot} {added : List (Handle × Node)}

@[simp] theorem capacity_transition (node : Handle) (change : Slot → Option Slot) (heap : Heap) :
    (transition node change heap).state.capacity = heap.capacity := by
  unfold transition
  split
  · rfl
  · split
    · exact capacity_put heap _ _
    · rfl

@[simp] theorem capacity_complete (node : Handle) (actor : Actor) (payload : Node) (heap : Heap) :
    (complete node actor payload heap).state.capacity = heap.capacity := by
  have same := capacity_transition node (Slot.complete actor payload) heap
  unfold complete
  cases ended : transition node (Slot.complete actor payload) heap with
  | ok done after =>
    rw [ended] at same
    rw [bind_ok ended]
    exact same
  | error fault after =>
    rw [ended] at same
    rw [bind_error ended]
    exact same

namespace Confined

theorem of_entries (confined : Confined start region before) (entries : after.entries = before.entries)
    (free : after.free = before.free) : Confined start region after where
  free := confined.free.of_entries entries free
  outside := fun handle outside => (lookup_congr entries handle).trans (confined.outside handle outside)
  live := by
    intro handle live
    obtain ⟨slot, found⟩ := confined.live handle live
    exact ⟨slot, (lookup_congr entries handle).trans found⟩
  nodes := fun inside found => confined.nodes inside ((lookup_congr entries _).symm.trans found)

theorem rewrites (confined : Confined start region before) (rewrites : before.Rewrites after node old new)
    (inside : region node) (stays : new.node.StaysIn region) : Confined start region after where
  free := confined.free.rewrites rewrites
  outside := by
    intro handle outside
    have apart : handle ≠ node := by
      rintro rfl
      exact outside inside
    rw [rewrites.lookup, if_neg apart]
    exact confined.outside handle outside
  live := fun handle live => (rewrites.live_iff handle).mpr (confined.live handle live)
  nodes := by
    intro handle slot among found
    rw [rewrites.lookup] at found
    split at found
    · cases found
      exact stays
    · exact confined.nodes among found

theorem gains_inside (confined : Confined start region before) (gains : Gains before after added)
    (fresh : ∀ handle, ¬ start.Live handle → region handle) {handle : Handle} {node : Node}
    (member : (handle, node) ∈ added) : region handle := by
  refine fresh handle fun live => ?_
  obtain ⟨slot, found⟩ := confined.live handle live
  exact gains.dead member slot found

theorem gains (confined : Confined start region before) (gains : Gains before after added)
    (free : after.FreeListSound) (fresh : ∀ handle, ¬ start.Live handle → region handle)
    (each : ∀ {handle node}, (handle, node) ∈ added → node.StaysIn region) : Confined start region after where
  free := free
  outside := by
    intro handle outside
    rw [← confined.outside handle outside]
    obtain ⟨slot, found⟩ : before.Live handle := by
      apply confined.live
      exact Classical.byContradiction fun dead => outside (fresh handle dead)
    rw [gains.kept found, found]
  live := fun handle live => gains.widens handle (confined.live handle live)
  nodes := by
    intro handle slot among found
    rcases gains.fresh found with found | ⟨node, member, rfl⟩
    · exact confined.nodes among found
    · exact each member

theorem transition (confined : Confined start region heap) {change : Slot → Option Slot} (inside : region node)
    (stays : ∀ old new, old.node.StaysIn region → change old = some new → new.node.StaysIn region) :
    Confined start region (Heap.transition node change heap).state := by
  unfold Heap.transition
  split
  · exact confined
  · rename_i old found
    split
    · rename_i new changed
      exact confined.rewrites (put_rewrites found rfl rfl) inside (stays old new (confined.nodes inside found) changed)
    · exact confined

theorem notify {operation : HeapM Bool} (confined : Confined start region (operation heap).state) :
    Confined start region ((do let done ← operation; modify Heap.notify; return done : HeapM Bool) heap).state := by
  cases ended : operation heap with
  | ok done after =>
    rw [ended] at confined
    rw [bind_ok ended]
    exact confined.of_entries rfl rfl
  | error fault after =>
    rw [ended] at confined
    rw [bind_error ended]
    exact confined

theorem complete (confined : Confined start region heap) (inside : region node) {payload : Node}
    (stays : payload.StaysIn region) (actor : Actor) :
    Confined start region (Heap.complete node actor payload heap).state := by
  refine notify (confined.transition inside fun old new _ changed => ?_)
  unfold Slot.complete at changed
  split at changed <;> cases changed
  exact stays

theorem release (confined : Confined start region heap) (inside : region node) (actor : Actor) :
    Confined start region (Heap.release node actor heap).state := by
  refine notify (confined.transition inside fun old new stays changed => ?_)
  unfold Slot.release at changed
  split at changed <;> cases changed
  exact stays

theorem claim (confined : Confined start region heap) (inside : region node) (actor : Actor) :
    Confined start region (Heap.claim node actor heap).state := by
  refine confined.transition inside fun old new stays changed => ?_
  unfold Slot.claim at changed
  split at changed <;> cases changed
  exact stays

theorem redirect (confined : Confined start region heap) (inside : region node) {target : Handle}
    (leads : region target) : Confined start region (Heap.redirect node target heap).state := by
  refine confined.transition inside fun old new _ changed => ?_
  unfold Slot.redirect at changed
  split at changed <;> cases changed
  exact ⟨List.forall_mem_singleton.mpr leads, fun _ code => by cases code⟩

theorem beginWait (confined : Confined start region heap) (actor : Actor) (node : Handle) :
    Confined start region (Heap.beginWait actor node heap).state := by
  unfold Heap.beginWait
  split
  · exact confined
  · exact confined
  · exact confined.of_entries rfl rfl

theorem followFrom (confined : Confined start region heap) {marks : Marks} {links : List Handle} {current : Handle}
    (inside : region current) (passed : ∀ link ∈ links, region link) :
    (∀ link ∈ (heap.followFrom marks links current).links, region link) ∧
      ∀ handle slot, (heap.followFrom marks links current).landing = .at handle slot → region handle := by
  fun_induction Heap.followFrom heap marks links current with
  | case1 marks links current fault found =>
    exact ⟨fun link member => passed link (List.mem_reverse.mp member), fun _ _ landed => by cases landed⟩
  | case2 marks links current slot found target isLink met =>
    exact ⟨fun link member => passed link (List.mem_reverse.mp member), fun _ _ landed => by cases landed⟩
  | case3 marks links current slot found target isLink unmet ih =>
    have leads : region target := (confined.nodes inside found).references target (by simp [isLink, Node.references])
    exact ih leads (List.forall_mem_cons.mpr ⟨inside, passed⟩)
  | case4 marks links current slot found noLink =>
    refine ⟨fun link member => passed link (List.mem_reverse.mp member), ?_⟩
    rintro _ _ ⟨⟩
    exact inside

theorem followOn (confined : Confined start region heap) {passed : List Handle} {current : Handle}
    (inside : region current) (passedIn : ∀ link ∈ passed, region link) :
    (∀ link ∈ (heap.followOn passed current).links, region link) ∧
      ∀ handle slot, (heap.followOn passed current).landing = .at handle slot → region handle :=
  confined.followFrom inside fun link member => passedIn link (List.mem_reverse.mp member)

end Confined

end Heap

end LazyGraph

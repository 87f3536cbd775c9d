import LazyGraph.Proofs.Machine.Confinement
import LazyGraph.Proofs.Machine.Safety

/-! What a call can touch.

Without calls of host functions, a call stays in the region of its root: the handles that
the root reaches, and those that name nothing when the call begins. Each transition keeps
to the region, so a whole call does, and so does the unwinding after a fault. -/

set_option autoImplicit false

namespace LazyGraph.Machine

variable {σ α : Type} {start : Heap} {region : Handle → Prop} {needs : Prop} {evaluator : Evaluator}

/-! ### Demanding a node -/

theorem enter_confines (evaluator : Evaluator) (links : List Handle) (node : Handle) (expr : Expr) (env : Env) :
    Confines start region ((Control.await links node).StaysIn region ∧ ClosureIn region expr env)
      (enter (σ := σ) evaluator links node expr env) (Control.StaysIn region) := by
  have marks : Confines start region ((Control.await links node).StaysIn region ∧ ClosureIn region expr env)
      (do push (σ := σ) evaluator (.update node); return .eval expr env) (Control.StaysIn region) :=
    ((push_confines evaluator (.update node)).weaken fun needed => needed.1.2).bind fun _ => .pure fun needed => needed.2.2
  unfold enter
  split
  · exact marks
  · exact ((push_confines evaluator (.redirect links)).weaken fun needed => needed.1.1).bind fun _ => marks.weaken And.right

theorem startWait_confines (evaluator : Evaluator) (links : List Handle) (node : Handle) :
    Confines start region ((Control.await links node).StaysIn region) (startWait (σ := σ) evaluator links node)
      (Control.StaysIn region) :=
  (beginWait_confines evaluator.actor node).bind fun _ => (record_confines _).bind fun _ => .pure fun needed => needed.2.2

theorem demandFrom_confines (evaluator : Evaluator) (passed : List Handle) (node : Handle) :
    Confines start region ((Control.await passed node).StaysIn region) (demandFrom (σ := σ) evaluator passed node)
      (Control.StaysIn region) := by
  refine getHeap_confines.bind fun heap => ?_
  have walk : start.Confined region heap ∧ (Control.await passed node).StaysIn region →
      (∀ link ∈ (heap.followOn passed node).links, region link) ∧
        ∀ handle slot, (heap.followOn passed node).landing = .at handle slot → region handle :=
    fun needed => needed.1.followOn needed.2.2 needed.2.1
  simp only
  split
  · exact .throw
  · exact .throw
  · rename_i handle slot landed
    have found : heap.lookup handle = .ok slot := (Heap.followOn_at landed).1
    have here : start.Confined region heap ∧ (Control.await passed node).StaysIn region →
        (Control.await (heap.followOn passed node).links handle).StaysIn region :=
      fun needed => ⟨(walk needed).1, (walk needed).2 handle slot landed⟩
    have content : start.Confined region heap ∧ (Control.await passed node).StaysIn region →
        slot.node.StaysIn region := fun needed => needed.1.nodes (here needed).2 found
    split
    · rename_i expr env isThunk
      refine Confines.bind ((claim_confines handle evaluator.actor).weaken fun needed => (here needed).2) fun claimed => ?_
      split
      · refine (enter_confines evaluator _ handle expr env).weaken fun needed => ⟨here needed.2, ?_⟩
        have stays := content needed.2
        rw [isThunk] at stays
        exact ⟨stays.references, stays.code expr rfl⟩
      · split
        · split
          · exact .throw
          · exact (startWait_confines evaluator _ handle).weaken fun needed => here needed.2
        · exact .pure fun needed => here needed.2
    · refine Confines.bind ((redirectAll_confines _ handle).weaken here) fun _ => .pure fun needed => ⟨content needed.2, ?_⟩
      rintro _ ⟨⟩
      exact (here needed.2).2

theorem resumeWait_confines (evaluator : Evaluator) (links : List Handle) (node : Handle) :
    Confines start region ((Control.await links node).StaysIn region) (resumeWait (σ := σ) evaluator links node)
      (Control.StaysIn region) := by
  refine (checkInterruption_confines evaluator).bind fun _ => getHeap_confines.bind fun heap => ?_
  refine Confines.bind (.settle fun _ _ _ => trivial : Confines _ _ _ _ fun _ => True) fun held => ?_
  split
  · exact Confines.bind (modifyWorld_confines (fun _ => rfl) fun _ => rfl) fun _ => .pure fun needed => needed.2.2.2.2
  · refine Confines.bind (modifyWorld_confines (fun _ => rfl) fun _ => rfl) fun _ => ?_
    exact (demandFrom_confines evaluator links node).weaken fun needed => needed.2.2.2.2

/-! ### One transition, and all of them -/

theorem tick_confines (evaluator : Evaluator) :
    Confines start region needs (tick (σ := σ) evaluator) fun _ => True := by
  refine .idle (fun state => ?_) (fun state => ?_) (fun state => ?_) fun _ _ _ _ _ _ => trivial
  all_goals
    rw [tick_state]
    rfl

theorem trace_confines (evaluator : Evaluator) (control : Control) :
    Confines start region needs (trace (σ := σ) evaluator control) fun _ => True := by
  refine .idle (fun state => ?_) (fun state => ?_) (fun state => ?_) fun _ _ _ _ _ _ => trivial
  all_goals
    obtain ⟨after, ended, stack, heap⟩ := trace_state evaluator control state
    rw [ended]
  · exact congrArg Heap.entries heap
  · exact congrArg Heap.free heap
  · exact stack

variable {host : Host σ}

theorem iterate_confines (fresh : ∀ handle, ¬ start.Live handle → region handle) (lawful : host.Follows growing)
    (evaluator : Evaluator) (control : Control) :
    Confines start region (control.StaysIn region) (iterate host evaluator control) (Progress.StaysIn region) := by
  have step : ∀ {next : MachineM σ Progress},
      Confines start region (control.StaysIn region) next (Progress.StaysIn region) →
      Confines start region (control.StaysIn region) (do tick evaluator; trace evaluator control; next)
        (Progress.StaysIn region) :=
    fun next => (tick_confines evaluator).bind fun _ => (trace_confines evaluator control).bind fun _ =>
      next.weaken fun needed => needed.2.2
  cases control with
  | await links node => exact (resumeWait_confines evaluator links node).bind fun _ => .pure And.left
  | eval expr env => exact step ((eval_confines fresh lawful evaluator expr env).bind fun _ => .pure And.left)
  | force handle =>
    have demanded : Confines start region (region handle) (demand (σ := σ) evaluator handle) (Control.StaysIn region) :=
      (demandFrom_confines evaluator [] handle).weaken fun inside => ⟨nofun, inside⟩
    exact step (demanded.bind fun _ => .pure And.left)
  | deliver whnf => exact step (finish_confines fresh lawful evaluator whnf)

theorem iterations_enclosed (fresh : ∀ handle, ¬ start.Live handle → region handle) (lawful : host.Follows growing)
    {control next : Control} {state reached : State σ} {count : Nat} (enclosed : Enclosed start region state)
    (stays : control.StaysIn region)
    (standing : iterations host evaluator control state count = some (next, reached))
    (fits : reached.world.heap.Addressable) : Enclosed start region reached ∧ next.StaysIn region := by
  induction count generalizing next reached with
  | zero =>
    cases standing
    exact ⟨enclosed, stays⟩
  | succ count ih =>
    obtain ⟨control', before, earlier, stepped⟩ := iterations_succ standing
    have confines := iterate_confines fresh lawful evaluator control'
    have grows := confines.grows before
    rw [stepped] at grows
    obtain ⟨enclosed', stays'⟩ := ih earlier (fits.mono grows)
    have remains := confines.remains stays' enclosed' (stepped ▸ fits)
    rw [stepped] at remains
    exact remains

/-- Frames name what their update markers hold, so only the region is released. -/
theorem releaseAll_confined (actor : Actor) {frames : List Frame} (released : Nat) {heap : Heap}
    (confined : start.Confined region heap) (inside : ∀ frame ∈ frames, frame.StaysIn region) :
    start.Confined region (releaseAll actor frames released heap).2 := by
  fun_induction releaseAll actor frames released heap with
  | case1 => exact confined
  | case2 node frames released heap heap' ended ih | case3 node frames released heap heap' ended ih =>
    have kept := confined.release (inside (.update node) (.head _)) actor
    rw [ended] at kept
    exact ih kept fun frame member => inside frame (.tail _ member)
  | case4 node frames released heap fault heap' ended ih =>
    have kept := confined.release (inside (.update node) (.head _)) actor
    rw [ended] at kept
    exact ih kept fun frame member => inside frame (.tail _ member)
  | case5 frame frames released heap other ih => exact ih confined fun frame member => inside frame (.tail _ member)

theorem Enclosed.unwind {state : State σ} (enclosed : Enclosed start region state) (evaluator : Evaluator)
    (fault : Fault) : start.Confined region (unwind evaluator fault state).world.heap :=
  (releaseAll_confined evaluator.actor 0 enclosed.heap enclosed.frames).of_entries rfl rfl

theorem force_confined (fresh : ∀ handle, ¬ start.Live handle → region handle) (lawful : host.Follows growing)
    {state after : State σ} (confined : start.Confined region state.world.heap) (idle : state.stack.items = [])
    {root : Handle} (inside : region root) {fuel : Nat} {result : Except Fault Handle}
    (ended : force host evaluator fuel root state = some (result, after)) (fits : after.world.heap.Addressable) :
    start.Confined region after.world.heap := by
  have enclosed : Enclosed start region (begin evaluator state) := by
    refine ⟨confined, ?_⟩
    rw [show (begin evaluator state).stack.items = [] from idle]
    exact nofun
  obtain ⟨count, control, last, standing, ends⟩ := force_ends ended
  have stays : (Control.force root).StaysIn region := inside
  have confines := iterate_confines fresh lawful evaluator control
  have grows := confines.grows last
  rcases ends with ⟨handle, _, finished⟩ | ⟨fault, raised, _, failed, rfl⟩
  · rw [finished] at grows
    obtain ⟨enclosed', stays'⟩ := iterations_enclosed fresh lawful enclosed stays standing (fits.mono grows)
    have remains := confines.remains stays' enclosed' (finished ▸ fits)
    rw [finished] at remains
    exact remains.1.heap
  · rw [failed] at grows
    have fits' : raised.world.heap.Addressable := fits.mono (Nat.le_of_eq (unwind_capacity evaluator fault raised).symm)
    obtain ⟨enclosed', stays'⟩ := iterations_enclosed fresh lawful enclosed stays standing (fits'.mono grows)
    have remains := confines.remains stays' enclosed' (failed ▸ fits')
    rw [failed] at remains
    exact remains.unwind evaluator fault

/-! ### The region of a root -/

end LazyGraph.Machine

namespace LazyGraph

namespace Heap

variable {heap : Heap} {root : Handle}

/-- A handle that names nothing, or that the root reaches. -/
def RegionOf (heap : Heap) (root handle : Handle) : Prop :=
  heap.Live handle → heap.Reachable (· = root) handle

theorem regionOf_root (heap : Heap) (root : Handle) : heap.RegionOf root root :=
  fun ⟨_, found⟩ => .root rfl found

theorem Reachable.target_in {source target : Handle} (reached : heap.Reachable (· = root) source)
    (edge : heap.Edge source target) : heap.RegionOf root target :=
  fun ⟨_, found⟩ => .step reached edge found

theorem confined_self (free : heap.FreeListSound)
    (hostFree : ∀ {handle slot code}, heap.Reachable (· = root) handle → heap.lookup handle = .ok slot →
      slot.node.code? = some code → code.HostFree) : heap.Confined (heap.RegionOf root) heap where
  free := free
  outside := fun _ _ => rfl
  live := fun _ => id
  nodes := by
    intro handle slot inside found
    have reached := inside ⟨slot, found⟩
    refine ⟨fun target member => reached.target_in (.held found member), fun code runs => ?_⟩
    exact ⟨hostFree reached found runs, fun target names => reached.target_in (.named found runs names)⟩

theorem Confined.reachable {start : Heap} (confined : start.Confined (start.RegionOf root) heap) {handle : Handle}
    (reached : heap.Reachable (· = root) handle) : start.RegionOf root handle := by
  induction reached with
  | root isRoot _ =>
    cases isRoot
    exact regionOf_root start root
  | step _ edge _ inside =>
    cases edge with
    | held live member => exact (confined.nodes inside live).references _ member
    | named live runs names => exact ((confined.nodes inside live).code _ runs).names _ names

end Heap

namespace Machine

variable {σ : Type} {host : Host σ} {evaluator : Evaluator} {before after : State σ}

/-- A call without host functions, whether it succeeds or not, changes only what its root
reaches and frees nothing; what the root reaches then was allocated by the call or was
reached before. -/
theorem force_touches_reachable (lawful : host.Follows growing) (free : before.world.heap.FreeListSound)
    (idle : before.stack.items = []) {root : Handle}
    (hostFree : ∀ {handle slot code}, before.world.heap.Reachable (· = root) handle →
      before.world.heap.lookup handle = .ok slot → slot.node.code? = some code → code.HostFree)
    {fuel : Nat} {result : Except Fault Handle}
    (ended : force host evaluator fuel root before = some (result, after)) (fits : after.world.heap.Addressable) :
    (∀ handle, before.world.heap.Live handle → ¬ before.world.heap.Reachable (· = root) handle →
      after.world.heap.lookup handle = before.world.heap.lookup handle) ∧
    (∀ handle, before.world.heap.Live handle → after.world.heap.Live handle) ∧
    ∀ handle, after.world.heap.Reachable (· = root) handle →
      ¬ before.world.heap.Live handle ∨ before.world.heap.Reachable (· = root) handle := by
  have confined : before.world.heap.Confined (before.world.heap.RegionOf root) after.world.heap :=
    force_confined (fun handle dead live => absurd live dead) lawful (Heap.confined_self free hostFree) idle
      (Heap.regionOf_root _ root) ended fits
  refine ⟨fun handle live unreached => ?_, confined.live, fun handle reached => ?_⟩
  · exact confined.outside handle fun inside => unreached (inside live)
  · by_cases live : before.world.heap.Live handle
    · exact .inr (confined.reachable reached live)
    · exact .inl live

/-! ### A call beside a thunk that it does not reach -/

-- A box whose content names another node.
def boxed : Expr :=
  ⟨0, .data 1 "Box" [⟨1, .apply ⟨2, .global ⟨1, 0⟩⟩ []⟩]⟩

-- The first thunk is not reached from the box, the second one is.
def boxHeap : Heap :=
  (do
    let _ ← Heap.alloc (.thunk ⟨3, .int 5⟩ [])
    let _ ← Heap.alloc (.thunk ⟨4, .int 3⟩ [])
    Heap.alloc (.thunk boxed []) : HeapM Handle).run (.ofSettings {}) |>.state

def boxState : State Unit :=
  ⟨.empty, 0, none, ⟨boxHeap, 0, [], #[], ()⟩⟩

theorem boxed_hostFree : boxed.HostFree := by
  have named : Expr.HostFree ⟨2, .global ⟨1, 0⟩⟩ := .of_children nofun nofun
  have content : Expr.HostFree ⟨1, .apply ⟨2, .global ⟨1, 0⟩⟩ []⟩ :=
    .of_children nofun (List.forall_mem_singleton.mpr named)
  exact .of_children nofun (List.forall_mem_singleton.mpr content)

theorem boxHeap_sound : boxHeap.FreeListSound :=
  ⟨nofun, .nil⟩

theorem boxHeap_reaches {handle : Handle} (reached : boxHeap.Reachable (· = ⟨2, 0⟩) handle) :
    handle = ⟨1, 0⟩ ∨ handle = ⟨2, 0⟩ := by
  have number : boxHeap.lookup ⟨1, 0⟩ = .ok ⟨.unevaluated, .thunk ⟨4, .int 3⟩ []⟩ := rfl
  have box : boxHeap.lookup ⟨2, 0⟩ = .ok ⟨.unevaluated, .thunk boxed []⟩ := rfl
  induction reached with
  | root isRoot _ => exact .inr isRoot
  | step _ edge _ ih =>
    rcases ih with rfl | rfl
    · cases edge with
      | held live member =>
        cases number.symm.trans live
        cases member
      | named live runs names =>
        cases number.symm.trans live
        cases runs
        cases names
    · cases edge with
      | held live member =>
        cases box.symm.trans live
        cases member
      | named live runs names =>
        cases box.symm.trans live
        cases runs
        cases names with
        | data member names =>
          cases List.mem_singleton.mp member
          cases names with
          | callee names =>
            cases names
            exact .inl rfl
          | argument member _ => cases member

theorem boxHeap_hostFree {handle : Handle} {slot : Slot} {code : Expr}
    (reached : boxHeap.Reachable (· = ⟨2, 0⟩) handle) (live : boxHeap.lookup handle = .ok slot)
    (runs : slot.node.code? = some code) : code.HostFree := by
  rcases boxHeap_reaches reached with rfl | rfl
  · have number : boxHeap.lookup ⟨1, 0⟩ = .ok ⟨.unevaluated, .thunk ⟨4, .int 3⟩ []⟩ := rfl
    cases number.symm.trans live
    cases runs
    exact .of_children nofun nofun
  · have box : boxHeap.lookup ⟨2, 0⟩ = .ok ⟨.unevaluated, .thunk boxed []⟩ := rfl
    cases box.symm.trans live
    cases runs
    exact boxed_hostFree

theorem boxCall_ends :
    (∃ after, force failingHost ⟨⟨1⟩, {}, none⟩ 9 ⟨2, 0⟩ boxState = some (.ok ⟨2, 0⟩, after) ∧
      after.world.heap.capacity = 4) ∧
    ∃ after, force failingHost ⟨⟨1⟩, { maxSteps := some 1 }, none⟩ 9 ⟨2, 0⟩ boxState =
        some (.error (.exhausted (.steps 1)), after) ∧ after.world.heap.capacity = 3 := by
  have computed : (force failingHost ⟨⟨1⟩, {}, none⟩ 9 ⟨2, 0⟩ boxState).map (fun (result, after) =>
      (result, after.world.heap.capacity)) = some (.ok ⟨2, 0⟩, 4) := by
    decide +kernel
  have stopped : (force failingHost ⟨⟨1⟩, { maxSteps := some 1 }, none⟩ 9 ⟨2, 0⟩ boxState).map (fun (result, after) =>
      (result, after.world.heap.capacity)) = some (.error (.exhausted (.steps 1)), 3) := by
    decide +kernel
  obtain ⟨⟨result, after⟩, ended, facts⟩ := Option.map_eq_some_iff.mp computed
  obtain ⟨⟨result', after'⟩, ended', facts'⟩ := Option.map_eq_some_iff.mp stopped
  simp only [Prod.mk.injEq] at facts facts'
  obtain ⟨rfl, capacity⟩ := facts
  obtain ⟨rfl, capacity'⟩ := facts'
  exact ⟨⟨after, ended, capacity⟩, after', ended', capacity'⟩

/-- The thunk beside the box is as it was, also after a fault, and the box reaches only what
it reached or what is new. -/
theorem force_touches_reachable_box :
    (∃ after, force failingHost ⟨⟨1⟩, {}, none⟩ 9 ⟨2, 0⟩ boxState = some (.ok ⟨2, 0⟩, after) ∧
      after.world.heap.lookup ⟨0, 0⟩ = .ok ⟨.unevaluated, .thunk ⟨3, .int 5⟩ []⟩ ∧
      ∀ handle, after.world.heap.Reachable (· = ⟨2, 0⟩) handle →
        ¬ boxHeap.Live handle ∨ boxHeap.Reachable (· = ⟨2, 0⟩) handle) ∧
    ∃ after, force failingHost ⟨⟨1⟩, { maxSteps := some 1 }, none⟩ 9 ⟨2, 0⟩ boxState =
        some (.error (.exhausted (.steps 1)), after) ∧
      after.world.heap.lookup ⟨0, 0⟩ = .ok ⟨.unevaluated, .thunk ⟨3, .int 5⟩ []⟩ := by
  have apart : ¬ boxHeap.Reachable (· = ⟨2, 0⟩) ⟨0, 0⟩ := by
    intro reached
    rcases boxHeap_reaches reached with same | same <;> cases same
  have live : boxHeap.Live ⟨0, 0⟩ := ⟨_, rfl⟩
  obtain ⟨⟨after, ended, capacity⟩, after', ended', capacity'⟩ := boxCall_ends
  have fits : after.world.heap.Addressable := by
    rw [Heap.Addressable, capacity]
    decide
  have fits' : after'.world.heap.Addressable := by
    rw [Heap.Addressable, capacity']
    decide
  have kept := force_touches_reachable (failingHost_follows _) boxHeap_sound rfl boxHeap_hostFree ended fits
  have kept' := force_touches_reachable (failingHost_follows _) boxHeap_sound rfl boxHeap_hostFree ended' fits'
  exact ⟨⟨after, ended, kept.1 _ live apart, kept.2.2⟩, after', ended', kept'.1 _ live apart⟩

theorem wrapping_reaches {heap : Heap} {root handle : Handle} (found : heap.lookup root = .ok ⟨.unevaluated, .thunk wrapping []⟩)
    (reached : heap.Reachable (· = root) handle) : handle = root := by
  induction reached with
  | root isRoot _ => exact isRoot
  | step _ edge _ ih =>
    subst ih
    cases edge with
    | held live member =>
      cases found.symm.trans live
      cases member
    | named live runs names =>
      cases found.symm.trans live
      cases runs
      exact ((wrapping_staysIn fun _ => False).names _ names).elim

/-- On a heap with a slot for each word a call overwrites a value that its root does not reach. -/
theorem force_overwrites_unreached :
    ∃ (heap : Heap) (after : State Unit), heap.Brims [.int 0, .thunk wrapping []] ∧ heap.FreeListSound ∧
      (∀ {handle slot code}, heap.Reachable (· = ⟨1, 0⟩) handle → heap.lookup handle = .ok slot →
        slot.node.code? = some code → code.HostFree) ∧
      force failingHost ⟨⟨1⟩, {}, none⟩ 4 ⟨1, 0⟩ (idleOn heap) = some (.ok ⟨1, 0⟩, after) ∧
      ¬ heap.Reachable (· = ⟨1, 0⟩) ⟨0, 0⟩ ∧
      heap.lookup ⟨0, 0⟩ = .ok ⟨.evaluated, .int 0⟩ ∧ after.world.heap.lookup ⟨0, 0⟩ = .ok ⟨.unevaluated, wrapped⟩ := by
  obtain ⟨heap, brims, -⟩ := @Heap.exists_brims (fun _ => True) [.int 0, .thunk wrapping []] trivial fun _ _ _ _ => trivial
  have first : heap.lookup ⟨0, 0⟩ = .ok ⟨.evaluated, .int 0⟩ := brims.lookup 0
  have found : heap.lookup ⟨1, 0⟩ = .ok ⟨.unevaluated, .thunk wrapping []⟩ := brims.lookup 1
  obtain ⟨after, ended, _, lookup⟩ :=
    @force_overwrites Unit failingHost ⟨1⟩ (idleOn heap) ⟨1, 0⟩ _ brims.full first rfl (by decide) found
  refine ⟨heap, after, brims, brims.regular.free, ?_, ended, ?_, first, (lookup _).trans (if_pos rfl)⟩
  · intro handle slot code reached live runs
    cases wrapping_reaches found reached
    cases found.symm.trans live
    cases runs
    exact (wrapping_staysIn fun _ => True).hostFree
  · intro reached
    cases wrapping_reaches found reached

end Machine

end LazyGraph

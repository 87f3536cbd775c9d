import LazyGraph.Proofs.Machine.Assignment
import LazyGraph.Proofs.Machine.Contract
import LazyGraph.Proofs.Sharing.Agreement

/-! New nodes, and the closures they stand for.

Where an expression in a lazy position gets a node, the reading gets a closure for it. If
the graph has no room for the node, that is a limit; if the expression cannot be suspended
at all, neither can it be without sharing. -/

set_option autoImplicit false

namespace LazyGraph

open Unshared

variable {graph : Heap} {known : Handle → Prop} {reading reading' reading'' : Reading} {before middle after heap : Heap}
  {env : Env} {scope : List Closure} {expr : Expr}

/-! ### New nodes -/

structure Grown (graph : Heap) (known : Handle → Prop) (reading : Reading) (before : Heap) (reading' : Reading)
    (after : Heap) : Prop where
  faithful : Faithful graph known reading' after
  wider : reading.Extends reading'
  kept : ∀ {handle slot}, before.lookup handle = .ok slot → after.lookup handle = .ok slot
  fresh : ∀ {handle closure slot}, reading' handle = some closure → after.lookup handle = .ok slot →
    (reading handle = some closure ∧ before.lookup handle = .ok slot) ∨ ∃ node, slot = .ofNode node
  live : ∀ {handle closure}, reading' handle = some closure → reading handle = some closure ∨ after.Live handle

theorem Grown.refl (faithful : Faithful graph known reading heap) : Grown graph known reading heap reading heap :=
  ⟨faithful, .refl reading, id, fun read found => .inl ⟨read, found⟩, .inl⟩

theorem Grown.trans (early : Grown graph known reading before reading' middle)
    (late : Grown graph known reading' middle reading'' after) : Grown graph known reading before reading'' after where
  faithful := late.faithful
  wider := early.wider.trans late.wider
  kept := fun found => late.kept (early.kept found)
  fresh := by
    intro handle closure slot read found
    rcases late.fresh read found with ⟨read', found'⟩ | isNew
    · exact early.fresh read' found'
    · exact .inr isNew
  live := by
    intro handle closure read
    rcases late.live read with read' | live
    · exact (early.live read').imp_right fun ⟨slot, found⟩ => ⟨slot, late.kept found⟩
    · exact .inr live

theorem Faithful.grown {handles : List Handle} {nodes : List Node} (faithful : Faithful graph known reading before)
    (gains : before.Gains after (handles.zip nodes)) (free : after.FreeListSound) (grants : before.Grants after handles)
    (wider : reading.Extends reading')
    (only : ∀ handle closure, reading' handle = some closure →
      reading handle = some closure ∨ ∃ node, (handle, node) ∈ handles.zip nodes ∧
        Depicts graph known reading' after closure (.ofNode node)) :
    Grown graph known reading before reading' after where
  faithful := faithful.gains gains free (fun handle member => faithful.unread (grants.offered handle member)) grants.taken
    grants.mono wider only
  wider := wider
  kept := gains.kept
  fresh := by
    intro handle closure slot read found
    rcases gains.fresh found with found' | ⟨node, _, same⟩
    · rcases only handle closure read with read' | ⟨node, added, _⟩
      · exact .inl ⟨read', found'⟩
      · exact absurd found' (gains.dead added slot)
    · exact .inr ⟨node, same⟩
  live := by
    intro handle closure read
    exact (only handle closure read).imp_right fun ⟨_, added, _⟩ => ⟨_, gains.filled added⟩

theorem alloc_grown {node : Node} {handle : Handle} {closure : Closure} (faithful : Faithful graph known reading before)
    (allocated : Heap.alloc node before = .ok handle after) (fits : after.Addressable)
    (depicts : ∀ heap, Depicts graph known reading heap closure (.ofNode node)) :
    ∃ reading', Grown graph known reading before reading' after ∧ reading' handle = some closure := by
  rcases Heap.alloc_cases node before with ⟨handle', after', ended, enlarges⟩ | ⟨limit, refused⟩
  · cases allocated.symm.trans ended
    obtain ⟨free, gains⟩ := enlarges.result fits faithful.free
    have grants := Heap.alloc_grants faithful.free allocated fits
    have single : ∃ reading', reading.Extends reading' ∧ reading'.Reads [handle] [closure] ∧
        ∀ other closure', reading' other = some closure' →
          reading other = some closure' ∨ (other, closure') ∈ [handle].zip [closure] :=
      Reading.exists_extension rfl (by simp) fun other member => faithful.unread (grants.offered other member)
    obtain ⟨reading', wider, reads, only⟩ := single
    have read : reading' handle = some closure := by simpa [Reading.Reads] using reads
    refine ⟨reading', @Faithful.grown _ _ _ _ _ _ [handle] [node] faithful gains free grants wider ?_, read⟩
    intro other closure' read
    refine (only other closure' read).imp_right fun added => ⟨node, ?_⟩
    cases List.mem_singleton.mp added
    exact ⟨.head _, (depicts after).mono wider fun _ => id⟩
  · cases allocated.symm.trans refused

namespace Machine

variable {σ α α' β β' : Type} {state : State σ}

/-- The computation comes to what is expected, and may add nodes on the way; it fails at a
limit, or where nothing is expected. -/
def Tracks (graph : Heap) (known : Handle → Prop) (reading : Reading) (heap : Heap)
    (related : Reading → State σ → α → β → Prop) : EStateM.Result Fault (State σ) α → Option β → Prop
  | .ok value after, expected => ∃ result, expected = some result ∧ ∃ reading',
      Grown graph known reading heap reading' after.world.heap ∧ related reading' after value result
  | .error fault _, expected => (∃ limit, fault = .exhausted limit) ∨ expected = none

-- The frames stay as they are.
def Still (stack : Stack Frame) (related : Reading → α → β → Prop) (reading : Reading) (after : State σ) (value : α)
    (result : β) : Prop :=
  after.stack = stack ∧ related reading value result

theorem Tracks.bind {related : Reading → State σ → α → β → Prop} {related' : Reading → State σ → α' → β' → Prop}
    {first : MachineM σ α} {next : α → MachineM σ α'} {expected : Option β} {later : β → Option β'}
    (early : (first state).state.world.heap.Addressable → Tracks graph known reading heap related (first state) expected)
    (grows : ∀ value, Moves (Works growing.along) (next value))
    (late : ∀ {reading' value result middle}, Grown graph known reading heap reading' middle.world.heap →
      related reading' middle value result → (next value middle).state.world.heap.Addressable →
      Tracks graph known reading' middle.world.heap related' (next value middle) (later result))
    (fits : ((first >>= next) state).state.world.heap.Addressable) :
    Tracks graph known reading heap related' ((first >>= next) state) (expected.bind later) := by
  cases ended : first state with
  | error fault middle =>
    rw [bind_error ended] at fits ⊢
    rw [ended] at early
    rcases early fits with limit | rfl
    · exact .inl limit
    · exact .inr rfl
  | ok value middle =>
    rw [bind_ok ended] at fits ⊢
    rw [ended] at early
    have fits' : middle.world.heap.Addressable := fits.mono (grows value middle).heap
    obtain ⟨result, rfl, reading', grown, both⟩ := early fits'
    have tracked := late grown both fits
    simp only [Option.bind_some]
    cases ended' : next value middle with
    | error fault after =>
      rw [ended'] at tracked
      exact tracked
    | ok value' after =>
      rw [ended'] at tracked
      obtain ⟨result', same, reading'', grown', both'⟩ := tracked
      exact ⟨result', same, reading'', grown.trans grown', both'⟩

theorem Tracks.settle {related : Reading → State σ → α → β → Prop} {outcome : Except Fault α} {expected : Option β}
    (faithful : Faithful graph known reading state.world.heap) (agrees : Agrees (related reading state) outcome expected) :
    Tracks graph known reading state.world.heap related (settle outcome state) expected := by
  cases outcome with
  | error fault => exact .inr agrees.error
  | ok value =>
    obtain ⟨result, same, both⟩ := agrees.ok
    exact ⟨result, same, reading, .refl faithful, both⟩

theorem still_agrees {related : Reading → α → β → Prop} {outcome : Except Fault α} {expected : Option β}
    (agrees : Agrees (related reading) outcome expected) (state : State σ) :
    Agrees (Still state.stack related reading state) outcome expected :=
  agrees.imp fun _ _ both => ⟨rfl, both⟩

theorem suspend_tracks (faithful : Faithful graph known reading state.world.heap) (reads : reading.Reads env scope)
    (code : expr.StaysIn known) (fits : (suspend env expr state).state.world.heap.Addressable) :
    Tracks graph known reading state.world.heap
      (Still state.stack fun reading' handle closure => reading' handle = some closure) (suspend env expr state)
      (suspend? scope expr) := by
  have agrees : Agrees (Suspension.Stands graph known reading expr scope) (env.suspend expr) (suspend? scope expr) :=
    suspend_agrees reads code faithful.known
  unfold suspend at fits ⊢
  cases suspended : env.suspend expr with
  | error fault =>
    rw [suspended] at agrees
    exact .inr agrees.error
  | ok suspension =>
    rw [suspended] at agrees fits
    obtain ⟨closure, same, stands⟩ := agrees.ok
    cases suspension with
    | existing handle => exact ⟨closure, same, reading, .refl faithful, rfl, stands.1⟩
    | new node =>
      obtain ⟨rfl, stands⟩ := stands
      have settled : ∀ next : Suspension → MachineM σ Handle,
          (settle (.ok (.new node)) >>= next) state = next (.new node) state := fun _ => rfl
      rw [settled] at fits ⊢
      rcases Heap.alloc_cases node state.world.heap with ⟨handle, after, allocated, _⟩ | ⟨limit, refused⟩
      · simp only [onHeap_ok allocated] at fits ⊢
        obtain ⟨reading', grown, read⟩ := alloc_grown faithful allocated fits fun heap =>
          stands heap (.suspended expr scope) (becomes_of_enter rfl)
        exact ⟨_, same, reading', grown, rfl, read⟩
      · simp only [onHeap_error refused]
        exact .inl ⟨_, rfl⟩

theorem suspendAll_tracks {exprs : List Expr} (faithful : Faithful graph known reading state.world.heap)
    (reads : reading.Reads env scope) (code : ∀ expr ∈ exprs, expr.StaysIn known)
    (fits : (suspendAll env exprs state).state.world.heap.Addressable) :
    Tracks graph known reading state.world.heap (Still state.stack Reading.Reads) (suspendAll env exprs state)
      (exprs.mapM (suspend? scope)) := by
  induction exprs generalizing reading state with
  | nil => exact ⟨[], rfl, reading, .refl faithful, rfl, .nil reading⟩
  | cons head tail ih =>
    have unfolds : suspendAll (σ := σ) env (head :: tail) =
        (do let first ← suspend env head; let rest ← suspendAll env tail; return first :: rest) := List.mapM_cons
    rw [unfolds] at fits ⊢
    rw [List.mapM_cons]
    obtain ⟨here, rest⟩ := List.forall_mem_cons.mp code
    refine Tracks.bind (suspend_tracks faithful reads here) (fun _ => ?_) ?_ fits
    · exact (suspendAll_works env tail).bind fun _ => Moves.pure _
    · rintro reading' handle closure middle grown ⟨stack, read⟩ fits
      refine Tracks.bind (ih grown.faithful (reads.mono grown.wider) rest) (fun _ => Moves.pure _) ?_ fits
      rintro reading'' handles closures after more ⟨stack', reads'⟩ _
      exact ⟨_, rfl, _, .refl more.faithful, stack'.trans stack, .cons (more.wider _ _ read) reads'⟩

theorem getElem?_group {bindings : List Expr} {index : Nat} {closure : Closure}
    (present : (group bindings scope)[index]? = some closure) :
    ∃ binding, bindings[index]? = some binding ∧ closure = .bound bindings index scope := by
  simp only [group, List.getElem?_map, Option.map_eq_some_iff, List.getElem?_eq_some_iff] at present
  obtain ⟨place, ⟨bound, here⟩, rfl⟩ := present
  rw [List.getElem_range] at here
  subst here
  exact ⟨_, List.getElem?_eq_getElem (by simpa using bound), rfl⟩

theorem group_depicts {bindings : List Expr} {handles : List Handle} {handle : Handle} {closure : Closure}
    (inner : reading.Reads (env ++ handles) (scope ++ group bindings scope))
    (code : ∀ binding ∈ bindings, binding.StaysIn known)
    (globals : ∀ {handle}, known handle → reading handle = some (.node handle))
    (each : ∀ binding ∈ bindings, ∃ node, (env ++ handles).binding binding = .ok node)
    (added : (handle, closure) ∈ handles.zip (group bindings scope)) (heap : Heap) :
    ∃ node, (handle, node) ∈ handles.zip (bindingNodes env bindings handles) ∧
      Depicts graph known reading heap closure (.ofNode node) := by
  obtain ⟨index, present⟩ := List.mem_iff_getElem?.mp added
  obtain ⟨here, there⟩ := List.getElem?_zip_eq_some.mp present
  obtain ⟨binding, listed, rfl⟩ := getElem?_group there
  have member : binding ∈ bindings := List.mem_of_getElem? listed
  obtain ⟨node, built⟩ := each binding member
  have stands : Stands graph known reading binding (scope ++ group bindings scope) node :=
    binding_stands inner (code binding member) globals built
  refine ⟨node, List.mem_iff_getElem?.mpr ⟨index, List.getElem?_zip_eq_some.mpr ⟨here, ?_⟩⟩, ?_⟩
  · simp [bindingNodes, listed, built, Except.toOption]
  · exact stands heap _ (becomes_of_enter (by simp [enter?, listed]))

/-- The handles of a group stand for its bindings, once these are all built. -/
theorem group_grown {bindings : List Expr} {handles : List Handle} {count : UInt64}
    (faithful : Faithful graph known reading before) (reads : reading.Reads env scope)
    (code : ∀ binding ∈ bindings, binding.StaysIn known)
    (brings : before.Brings after count handles (bindingNodes env bindings handles)) :
    ∃ reading', reading.Extends reading' ∧ reading'.Reads (env ++ handles) (scope ++ group bindings scope) ∧
      ((∀ binding ∈ bindings, ∃ node, (env ++ handles).binding binding = .ok node) →
        Grown graph known reading before reading' after) := by
  have length : handles.length = (group bindings scope).length := by
    have exactly := brings.exactly
    simp only [bindingNodes, List.length_map] at exactly
    simp [group, brings.length, exactly]
  obtain ⟨reading', wider, reads', only⟩ := @Reading.exists_extension reading handles (group bindings scope) length
    brings.distinct fun handle member => faithful.unread (brings.grants.offered handle member)
  have inner := (reads.mono wider).append reads'
  refine ⟨reading', wider, inner, fun each => faithful.grown brings.gains brings.free brings.grants wider ?_⟩
  intro handle closure read
  refine (only handle closure read).imp_right fun added => ?_
  exact group_depicts inner code (fun isKnown => wider _ _ (faithful.known isKnown)) each added after

theorem bindAll_tracks {bindings : List Expr} (faithful : Faithful graph known reading state.world.heap)
    (reads : reading.Reads env scope) (code : ∀ binding ∈ bindings, binding.StaysIn known)
    (fits : (bindAll env bindings state).state.world.heap.Addressable) :
    Tracks graph known reading state.world.heap (Still state.stack Reading.Reads) (bindAll env bindings state)
      (bind? scope bindings) := by
  have unfolds : bindAll env bindings state = (onHeap (Heap.allocGroup (UInt64.ofNat bindings.length) fun handles heap =>
      (bindingNodes env bindings handles, heap)) >>= fun handles => do
        let _ ← settle (bindings.mapM (env ++ handles).binding)
        return env ++ handles : MachineM σ Env) state := rfl
  rw [unfolds] at fits ⊢
  unfold bind?
  by_cases empty : UInt64.ofNat bindings.length = 0
  · have allocated : Heap.allocGroup (UInt64.ofNat bindings.length) (fun handles heap =>
        (bindingNodes env bindings handles, heap)) state.world.heap = .ok [] state.world.heap := by
      simp [Heap.allocGroup, empty]
      rfl
    rw [bind_ok (onHeap_ok allocated)]
    simp only [empty, if_true, true_or, List.append_nil]
    have agrees := bindings_agree graph reads code faithful.known
    cases built : bindings.mapM env.binding with
    | error fault =>
      rw [built] at agrees
      rw [agrees.error]
      exact .inr rfl
    | ok nodes =>
      rw [built] at agrees
      obtain ⟨closures, same, _⟩ := agrees.ok
      rw [same]
      exact ⟨scope, rfl, reading, .refl faithful, rfl, reads⟩
  · simp only [empty, if_false, false_or]
    rcases Heap.allocGroup_cases (UInt64.ofNat bindings.length)
        (fun handles heap => (bindingNodes env bindings handles, heap)) state.world.heap with
      ⟨isEmpty, _⟩ | ⟨limit, refused⟩ |
      ⟨handles, opened, _, _, ⟨after, exactly, allocated, _⟩ | ⟨fault, after, other, refused, _⟩⟩
    · exact absurd isEmpty empty
    · rw [bind_error (onHeap_error refused)]
      exact .inl ⟨_, rfl⟩
    · have counted : bindings.length = (UInt64.ofNat bindings.length).toNat := by simpa [bindingNodes] using exactly
      rw [if_pos counted]
      rw [bind_ok (onHeap_ok allocated)] at fits ⊢
      have works : Moves (Works (σ := σ) growing.along) (do
          let _ ← settle (bindings.mapM (env ++ handles).binding)
          return env ++ handles) := (settle_works _).bind fun _ => Moves.pure _
      have fits' : after.Addressable := fits.mono (works { state with world := { state.world with heap := after } }).heap
      have brings := Heap.allocGroup_brings faithful.free allocated empty fits'
      obtain ⟨reading', wider, inner, grown⟩ := group_grown faithful reads code brings
      have agrees := bindings_agree graph inner code fun isKnown => wider _ _ (faithful.known isKnown)
      cases built : bindings.mapM (env ++ handles).binding with
      | error fault =>
        rw [built] at agrees
        rw [agrees.error]
        exact .inr rfl
      | ok nodes =>
        rw [built] at agrees
        obtain ⟨closures, same, _⟩ := agrees.ok
        rw [same]
        exact ⟨_, rfl, reading', grown fun binding member => ok_of_mapM built member, rfl, inner⟩
    · have miscounted : bindings.length ≠ (UInt64.ofNat bindings.length).toNat := by simpa [bindingNodes] using other
      rw [if_neg miscounted]
      rw [bind_error (onHeap_error refused)]
      exact .inr rfl

end Machine

end LazyGraph

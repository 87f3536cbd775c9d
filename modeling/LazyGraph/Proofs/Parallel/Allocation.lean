import LazyGraph.Proofs.Parallel.Assurance

/-! New nodes, while others use the heap.

A group of nodes is allocated by two actions. Between them its slots are set aside, and the
account says for whom; nobody reads them before they are filled. -/

set_option autoImplicit false

namespace LazyGraph

open Unshared

variable {graph : Heap} {known : Handle → Prop} {before after heap : Heap} {handles : List Handle} {nodes : List Node}

theorem Heap.Grants.settled (grants : before.Grants after handles) : before.settled.Grants after.settled handles where
  offered := fun handle member => offers_settled.mpr (grants.offered handle member)
  taken := fun handle member offers => grants.taken handle member (offers_settled.mp offers)
  mono := fun handle offers => offers_settled.mpr (grants.mono handle (offers_settled.mp offers))

/-- Slots that were set aside are filled, and their handles get closures. -/
theorem Faithful.fills {reading reading' : Reading} (faithful : Faithful graph known reading before)
    (gains : before.Gains after (handles.zip nodes)) (free : after.FreeListSound)
    (unread : ∀ handle ∈ handles, reading handle = none) (taken : ∀ handle ∈ handles, ¬ after.Offers handle)
    (offers : ∀ handle, after.Offers handle → before.Offers handle) (wider : reading.Extends reading')
    (only : ∀ handle closure, reading' handle = some closure →
      reading handle = some closure ∨ ∃ node, (handle, node) ∈ handles.zip nodes ∧
        Depicts graph known reading' after closure (.ofNode node)) :
    Grown graph known reading before reading' after where
  faithful := faithful.gains gains free unread taken offers wider only
  wider := wider
  kept := gains.kept
  fresh := by
    intro handle closure slot read found
    rcases gains.fresh found with found' | ⟨node, _, same⟩
    · rcases only handle closure read with read' | ⟨node, added, _⟩
      · exact .inl ⟨read', found'⟩
      · exact absurd found' (gains.dead added slot)
    · exact .inr ⟨node, same⟩
  live := by
    intro handle closure read
    rcases only handle closure read with read | ⟨node, added, _⟩
    · exact .inl read
    · exact .inr ⟨_, gains.filled added⟩

namespace Parallel

open Machine

variable {σ : Type} {account : Account} {state : State σ} {actor other : Actor} {handle : Handle} {node : Node}
  {reading' : Reading}
  {env : Env} {scope : List Closure} {expr : Expr} {closure : Closure} {bindings : List Expr}

/-! ### One node -/

theorem Sound.alloc (sound : Sound graph known account before) (allocated : Heap.alloc node before = .ok handle after)
    (fits : after.Addressable) (wider : account.reading.Extends reading')
    (only : ∀ other closure, reading' other = some closure → account.reading other = some closure ∨
      other = handle ∧ Depicts graph known reading' after.settled closure (.ofNode node)) :
    Sound graph known ⟨reading', account.pledged⟩ after ∧
      ∀ actor, Minds actor account before ⟨reading', account.pledged⟩ after := by
  rcases Heap.alloc_cases node before with ⟨handle', after', ended, enlarges⟩ | ⟨limit, refused⟩
  · cases allocated.symm.trans ended
    obtain ⟨free, reserved, gains⟩ := enlarges.gains fits sound.free sound.reserved
    have grants := (Heap.alloc_grants sound.free allocated fits).settled
    have grown : Grown graph known account.reading before.settled reading' after.settled := by
      refine @Faithful.grown _ _ _ _ _ _ [handle] [node] sound.faithful gains.settled free.settled grants wider ?_
      intro other closure read
      rcases only other closure read with read | ⟨rfl, depicts⟩
      · exact .inl read
      · exact .inr ⟨node, .head _, depicts⟩
    exact ⟨sound.grows grown gains reserved sound.unread enlarges.waits,
      fun actor => ⟨.grows gains free wider enlarges.waits, rfl⟩⟩
  · cases allocated.symm.trans refused

theorem alloc_filled (free : before.FreeListSound) (allocated : Heap.alloc node before = .ok handle after)
    (fits : after.Addressable) : after.lookup handle = .ok (.ofNode node) := by
  rcases Heap.alloc_cases node before with ⟨handle', after', ended, enlarges⟩ | ⟨limit, refused⟩
  · cases allocated.symm.trans ended
    exact (enlarges.result fits free).2.filled (.head _)
  · cases allocated.symm.trans refused

theorem Sound.alloc_read (sound : Sound graph known account before) (allocated : Heap.alloc node before = .ok handle after)
    (fits : after.Addressable) (depicts : ∀ heap, Depicts graph known account.reading heap closure (.ofNode node)) :
    ∃ account', Sound graph known account' after ∧ (∀ actor, Minds actor account before account' after) ∧
      account'.reading handle = some closure := by
  have grants := (Heap.alloc_grants sound.free allocated fits).settled
  have single : ∃ reading', account.reading.Extends reading' ∧ reading'.Reads [handle] [closure] ∧
      ∀ other closure', reading' other = some closure' →
        account.reading other = some closure' ∨ (other, closure') ∈ [handle].zip [closure] :=
    Reading.exists_extension rfl (by simp) fun other member => sound.faithful.unread (grants.offered other member)
  obtain ⟨reading', wider, reads, only⟩ := single
  obtain ⟨sound', minds⟩ := sound.alloc allocated fits wider fun other closure' read => by
    refine (only other closure' read).imp_right fun added => ?_
    cases List.mem_singleton.mp added
    exact ⟨rfl, (depicts _).mono wider fun _ => id⟩
  exact ⟨_, sound', minds, by simpa [Reading.Reads] using reads⟩

/-- An expression in a lazy position gets a node that stands for it. -/
theorem suspend_sure (sound : Sound graph known account state.world.heap)
    (holds : Holds state.world.heap actor state.stack.items) (reads : account.reading.Reads env scope)
    (code : expr.StaysIn known) (suspended : suspend? scope expr = some closure) :
    Sure graph known actor (fun handle account' state' => Later graph known actor account state account' state' ∧
      account'.reading handle = some closure) (suspend env expr) account state := by
  have agrees : Agrees (Suspension.Stands graph known account.reading expr scope) (env.suspend expr) (suspend? scope expr) :=
    suspend_agrees reads code sound.faithful.known
  cases found : env.suspend expr with
  | error fault =>
    rw [found] at agrees
    cases agrees.error.symm.trans suspended
  | ok suspension =>
    rw [found] at agrees
    obtain ⟨_, same, stands⟩ := agrees.ok
    cases same.symm.trans suspended
    refine Sure.settle found ?_
    cases suspension with
    | existing handle => exact fun account' state' later => ⟨later, later.minds.wider _ _ stands.1⟩
    | new node =>
      obtain ⟨rfl, stands⟩ := stands
      intro account' state' later fits
      rcases Heap.alloc_cases node state'.world.heap with ⟨handle, after, allocated, enlarges⟩ | ⟨limit, refused⟩
      · simp only [onHeap_ok allocated] at fits ⊢
        have depicts : ∀ heap, Depicts graph known account'.reading heap (.suspended expr scope) (.ofNode node) :=
          fun heap => (stands heap (.suspended expr scope) (becomes_of_enter rfl)).mono later.minds.wider fun _ => id
        obtain ⟨account'', sound', minds, read⟩ := later.sound.alloc_read allocated fits depicts
        have here : Later graph known actor account' state' account''
            { state' with world := { state'.world with heap := after } } := ⟨sound', minds actor, rfl⟩
        exact ⟨account'', ⟨sound', fun other _ => minds other, enlarges.registry⟩,
          fun _ _ latest => ⟨(later.trans here).trans latest, latest.minds.wider _ _ read⟩⟩
      · simp only [onHeap_error refused]
        exact ⟨⟨_, rfl⟩, later.holds holds, account', .same later.sound rfl⟩

theorem suspendAll_sure {exprs : List Expr} {closures : List Closure} (sound : Sound graph known account state.world.heap)
    (holds : Holds state.world.heap actor state.stack.items) (reads : account.reading.Reads env scope)
    (code : ∀ expr ∈ exprs, expr.StaysIn known)
    (suspended : exprs.mapM (suspend? scope) = some closures) :
    Sure graph known actor (fun handles account' state' => Later graph known actor account state account' state' ∧
      account'.reading.Reads handles closures) (suspendAll env exprs) account state := by
  induction exprs generalizing account state closures with
  | nil =>
    cases suspended
    exact fun account' state' later => ⟨later, .nil _⟩
  | cons head tail ih =>
    obtain ⟨here, rest⟩ := List.forall_mem_cons.mp code
    rw [List.mapM_cons] at suspended
    obtain ⟨closure, first, suspended⟩ := Option.bind_eq_some_iff.mp suspended
    obtain ⟨others, second, same⟩ := Option.bind_eq_some_iff.mp suspended
    cases same
    have unfolds : suspendAll (σ := σ) env (head :: tail) =
        (do let first ← suspend env head; let rest ← suspendAll env tail; return first :: rest) := List.mapM_cons
    rw [unfolds]
    refine (suspend_sure sound holds reads here first).bind sound ?_
    rintro handle account' state' sound' ⟨later, read⟩
    refine (ih sound' (later.holds holds) (reads.mono later.minds.wider) rest second).bind sound' ?_
    rintro handles account'' state'' _ ⟨later', reads'⟩ account''' state''' latest
    exact ⟨(later.trans later').trans latest,
      (Reading.Reads.cons (later'.minds.wider _ _ read) reads').mono latest.minds.wider⟩

/-! ### A group -/

theorem own_append (handles : List Handle) (reading : Reading) (pledged : List (Actor × Handle)) :
    Account.own ⟨reading, handles.map (actor, ·) ++ pledged⟩ other =
      if actor = other then handles ++ Account.own ⟨reading, pledged⟩ other else Account.own ⟨reading, pledged⟩ other := by
  unfold Account.own
  rw [List.filter_append, List.map_append, List.filter_map]
  split
  · rename_i same
    simp [Function.comp_def, same]
  · rename_i apart
    simp [Function.comp_def, apart]

def Account.others (account : Account) (actor : Actor) : List (Actor × Handle) :=
  account.pledged.filter (·.1 ≠ actor)

theorem Account.own_others (account : Account) (actor : Actor) (reading : Reading) :
    Account.own ⟨reading, account.others actor⟩ other = if other = actor then [] else account.own other := by
  unfold Account.own Account.others
  rw [List.filter_filter]
  split
  · rename_i same
    subst same
    simp
  · rename_i apart
    congr 2
    funext pledge
    by_cases here : pledge.1 = other
    · simp [here, apart]
    · simp [here]

theorem Account.perm_others (account : Account) (actor : Actor) :
    (account.pledged.map Prod.snd).Perm (account.own actor ++ (account.others actor).map Prod.snd) := by
  unfold own others
  rw [← List.map_append]
  refine .map _ ?_
  simpa using (List.filter_append_perm (fun pledge : Actor × Handle => pledge.1 = actor) account.pledged).symm

theorem Sound.opens {count : UInt64} (actor : Actor) (sound : Sound graph known account before)
    (opens : Heap.openGroup count before = .ok handles after) (fits : after.Addressable) :
    let account' : Account := ⟨account.reading, handles.map (actor, ·) ++ account.pledged⟩
    Sound graph known account' after ∧ (∀ other, Heeds other account.reading before account.reading after) ∧
      handles.Nodup ∧ handles.length = count.toNat := by
  intro account'
  rcases Heap.openGroup_cases count before with ⟨handles', after', ended, length, enlarges⟩ | ⟨limit, refused⟩
  · cases opens.symm.trans ended
    obtain ⟨free, reserved, gains⟩ := enlarges.gains fits sound.free sound.reserved
    have grants := Heap.openGroup_grants sound.free opens fits
    have still : before.settled.Grants after.settled [] := ⟨by simp, by simp, grants.settled.mono⟩
    have grown : Grown graph known account.reading before.settled account.reading after.settled :=
      @Faithful.grown _ _ _ _ _ _ [] [] sound.faithful gains.settled free.settled still (.refl _) fun _ _ => .inl
    have names : account'.pledged.map Prod.snd = handles ++ account.pledged.map Prod.snd := by
      simp [account', Function.comp_def]
    refine ⟨sound.grows grown gains (names ▸ reserved) (fun {handle} member => ?_) enlarges.waits,
      fun other => .grows gains free (.refl _) enlarges.waits, ?_, length⟩
    · rw [names] at member
      rcases List.mem_append.mp member with member | member
      · exact sound.faithful.unread (Heap.offers_settled.mpr (grants.offered handle member))
      · exact sound.unread member
    · have both : after.Reserved (handles ++ account.pledged.map Prod.snd) := reserved
      exact (List.nodup_append.mp both.nodup).1
  · cases opens.symm.trans refused

theorem mapM_of_suspended (graph : Heap) {reading : Reading} {closures : List Closure} (reads : reading.Reads env scope)
    (code : ∀ binding ∈ bindings, binding.StaysIn known)
    (globals : ∀ {handle}, known handle → reading handle = some (.node handle))
    (suspended : bindings.mapM (suspend? scope) = some closures) : ∃ nodes, bindings.mapM env.binding = .ok nodes := by
  have agrees := bindings_agree graph reads code globals
  cases built : bindings.mapM env.binding with
  | ok nodes => exact ⟨nodes, rfl⟩
  | error fault =>
    rw [built] at agrees
    cases agrees.error.symm.trans suspended

/-- The slots of the actor's group are filled, and its handles stand for the bindings. -/
theorem Sound.closes {count : UInt64} {closures : List Closure} (sound : Sound graph known account before)
    (own : account.own actor = handles) (length : handles.length = count.toNat) (exactly : bindings.length = count.toNat)
    (reads : account.reading.Reads env scope) (code : ∀ binding ∈ bindings, binding.StaysIn known)
    (suspended : bindings.mapM (suspend? (scope ++ group bindings scope)) = some closures) :
    ∃ after, Heap.closeGroup count handles (bindingNodes env bindings handles) before = .ok () after ∧
      after.nextActor = before.nextActor ∧
      (after.Addressable → ∃ reading', Sound graph known ⟨reading', account.others actor⟩ after ∧
        (∀ other, Heeds other account.reading before reading' after) ∧
        reading'.Reads (env ++ handles) (scope ++ group bindings scope)) := by
  have counted : (bindingNodes env bindings handles).length = count.toNat := by simpa [bindingNodes] using exactly
  rcases Heap.closeGroup_cases length (bindingNodes env bindings handles) before with
    ⟨after, _, closed, enlarges⟩ | ⟨_, other, _⟩
  · refine ⟨after, closed, enlarges.registry, fun fits => ?_⟩
    have reserved : before.Reserved (handles ++ (account.others actor).map Prod.snd) :=
      own ▸ sound.reserved.perm (account.perm_others actor)
    obtain ⟨free, reserved', gains⟩ := enlarges.gains fits sound.free reserved
    have unread : ∀ handle ∈ handles, account.reading handle = none := by
      intro handle member
      refine sound.unread ((account.perm_others actor).mem_iff.mpr ?_)
      exact List.mem_append_left _ (own ▸ member)
    obtain ⟨reading', wider, reads', only⟩ := @Reading.exists_extension account.reading handles (group bindings scope)
      (by simp [group, length, exactly]) (List.nodup_append.mp reserved.nodup).1 unread
    have inner := (reads.mono wider).append reads'
    have globals : ∀ {handle}, known handle → reading' handle = some (.node handle) :=
      fun isKnown => wider _ _ (sound.faithful.known isKnown)
    obtain ⟨nodes, built⟩ := mapM_of_suspended graph inner code globals suspended
    have grown : Grown graph known account.reading before.settled reading' after.settled := by
      refine sound.faithful.fills gains.settled free.settled unread (fun handle member offers => ?_) (fun handle offers => ?_)
        wider fun handle closure read => ?_
      · have taken := Heap.closeGroup_offers closed (Heap.offers_settled.mp offers)
        exact reserved.unoffered (List.mem_append_left _ member) taken
      · exact Heap.offers_settled.mpr (Heap.closeGroup_offers closed (Heap.offers_settled.mp offers))
      · refine (only handle closure read).imp_right fun added => ?_
        exact group_depicts inner code globals (fun _ member => ok_of_mapM built member) added _
    refine ⟨reading', sound.grows grown gains reserved' (fun {handle} member => ?_) enlarges.waits,
      fun other => .grows gains free wider enlarges.waits, inner⟩
    · exact sound.unread ((account.perm_others actor).mem_iff.mpr (List.mem_append_right _ member))
  · exact absurd counted other

theorem bindAll_sure {inner : List Closure} (sound : Sound graph known account state.world.heap)
    (holds : Holds state.world.heap actor state.stack.items) (own : account.own actor = [])
    (reads : account.reading.Reads env scope) (code : ∀ binding ∈ bindings, binding.StaysIn known)
    (bound : bind? scope bindings = some inner) :
    Sure graph known actor (fun env' account' state' => Later graph known actor account state account' state' ∧
      account'.reading.Reads env' inner) (bindAll env bindings) account state := by
  unfold bind? at bound
  unfold bindAll allocGroup
  by_cases empty : UInt64.ofNat bindings.length = 0
  · simp only [empty, if_true, true_or] at bound
    obtain ⟨closures, suspended, same⟩ := Option.map_eq_some_iff.mp bound
    subst same
    obtain ⟨nodes, built⟩ := mapM_of_suspended graph reads code sound.faithful.known suspended
    rw [if_pos empty]
    have built' : bindings.mapM (env ++ []).binding = .ok nodes := by simpa using built
    refine Sure.settle built' ?_
    exact fun account' state' later => ⟨later, by simpa using reads.mono later.minds.wider⟩
  · simp only [empty, if_false, false_or] at bound
    split at bound
    · rename_i exactly
      obtain ⟨closures, suspended, same⟩ := Option.map_eq_some_iff.mp bound
      subst same
      rw [if_neg empty]
      intro account₁ state₁ later₁ fits₁
      rcases Heap.openGroup_cases (UInt64.ofNat bindings.length) state₁.world.heap with
        ⟨handles, opened, opens, length, enlarges⟩ | ⟨limit, refused⟩
      · simp only [onHeap_ok opens] at fits₁ ⊢
        obtain ⟨sound₂, heeds₂, _, _⟩ := later₁.sound.opens actor opens fits₁
        have own₂ : Account.own ⟨account₁.reading, handles.map (actor, ·) ++ account₁.pledged⟩ actor = _ :=
          own_append handles account₁.reading account₁.pledged
        rw [if_pos rfl, show Account.own ⟨account₁.reading, account₁.pledged⟩ actor = [] from later₁.minds.own.trans own,
          List.append_nil] at own₂
        refine ⟨⟨account₁.reading, handles.map (actor, ·) ++ account₁.pledged⟩,
          ⟨sound₂, fun other apart => ⟨heeds₂ other, ?_⟩, enlarges.registry⟩, ?_⟩
        · exact (own_append handles account₁.reading account₁.pledged).trans (if_neg (Ne.symm apart))
        intro account₃ state₃ later₃ fits₃
        have reads₃ := reads.mono (later₁.minds.wider.trans later₃.minds.wider)
        obtain ⟨closed, closes, registry, rest⟩ :=
          later₃.sound.closes (later₃.minds.own.trans own₂) length exactly reads₃ code suspended
        simp only [onHeap_ok closes] at fits₃ ⊢
        obtain ⟨reading', sound₄, heeds₄, inner⟩ := rest fits₃
        have minds₄ : ∀ other, other ≠ actor →
            Minds other account₃ state₃.world.heap ⟨reading', account₃.others actor⟩ closed :=
          fun other apart => ⟨heeds₄ other, (Account.own_others account₃ actor reading').trans (if_neg apart)⟩
        have whole : Minds actor account state.world.heap ⟨reading', account₃.others actor⟩ closed := by
          refine ⟨later₁.minds.toHeeds.trans ((heeds₂ actor).trans (later₃.minds.toHeeds.trans (heeds₄ actor))), ?_⟩
          exact ((Account.own_others account₃ actor reading').trans (if_pos rfl)).trans own.symm
        refine ⟨_, ⟨sound₄, minds₄, registry⟩, ?_⟩
        obtain ⟨nodes, built⟩ := mapM_of_suspended graph inner code sound₄.faithful.known suspended
        refine Sure.settle built fun account₅ state₅ later₅ => ⟨?_, inner.mono later₅.minds.wider⟩
        exact ⟨later₅.sound, whole.trans later₅.minds, later₅.stack.trans (later₃.stack.trans later₁.stack)⟩
      · simp only [onHeap_error refused]
        exact ⟨⟨_, rfl⟩, later₁.holds holds, account₁, .same later₁.sound rfl⟩
    · cases bound

end Parallel

end LazyGraph

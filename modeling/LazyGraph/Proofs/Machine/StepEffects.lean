import LazyGraph.Proofs.Machine.Landing

/-! What a call does from step to step, when host functions leave the heap alone.

Most steps only add to the heap. The others claim a thunk, finish one, or point links at the
value that they lead to. So a value stays where it is, a link that points at a value stays so,
and a link that leads to an unfinished thunk is not touched before the thunk is finished. -/

set_option autoImplicit false

namespace LazyGraph

/-! ### Work that changes no slot -/

namespace Heap

structure Spares (before after : Heap) : Prop where
  kept : ∀ {handle slot}, before.lookup handle = .ok slot → after.lookup handle = .ok slot
  fresh : ∀ {actor handle}, after.HeldBy actor handle → before.HeldBy actor handle

structure Retains (before after : Heap) : Prop where
  grows : before.capacity ≤ after.capacity
  result : after.Addressable → before.FreeListSound → after.FreeListSound ∧ Spares before after

variable {before middle after : Heap}

theorem Spares.of_entries (entries : after.entries = before.entries) : Spares before after where
  kept := fun found => (lookup_congr entries _).trans found
  fresh := by
    intro actor handle held
    rwa [HeldBy, state, lookup_congr entries] at held

theorem Retains.trans (early : Retains before middle) (late : Retains middle after) : Retains before after where
  grows := Nat.le_trans early.grows late.grows
  result := by
    intro fits sound
    obtain ⟨sound', spares⟩ := early.result (fits.mono late.grows) sound
    obtain ⟨sound'', spares'⟩ := late.result fits sound'
    exact ⟨sound'', fun found => spares'.kept (spares.kept found), fun held => spares.fresh (spares'.fresh held)⟩

theorem Retains.of_entries (entries : after.entries = before.entries) (free : after.free = before.free) :
    Retains before after where
  grows := by simp [capacity, entries]
  result := fun _ sound => ⟨sound.of_entries entries free, .of_entries entries⟩

theorem Enlarges.retains {added : List (Handle × Node)} (enlarges : Enlarges [] [] added before after) :
    Retains before after where
  grows := enlarges.grows
  result := by
    intro fits sound
    obtain ⟨sound', gains⟩ := enlarges.result fits sound
    refine ⟨sound', gains.kept, fun {actor handle} held => ?_⟩
    obtain ⟨content, found⟩ := heldBy_iff.mp held
    rcases gains.fresh found with found | ⟨node, _, same⟩
    · exact heldBy_iff.mpr ⟨content, found⟩
    · have state := congrArg Slot.state same
      unfold Slot.ofNode at state
      dsimp only at state
      split at state <;> cases state

instance : Course Retains where
  trans := Retains.trans
  same := Retains.of_entries
  alloc node heap := by
    rcases alloc_cases node heap with ⟨handle, after, granted, enlarges⟩ | ⟨limit, refused⟩
    · rw [granted]
      exact enlarges.retains
    · rw [refused]
      exact .of_entries rfl rfl
  allocGroup count build leaves heap := by
    rcases allocGroup_cases count build heap with ⟨_, none⟩ | ⟨limit, refused⟩ | ⟨handles, opened, _, opens, ended⟩
    · rw [none]
      exact .of_entries rfl rfl
    · rw [refused]
      exact .of_entries rfl rfl
    · rw [leaves] at ended
      rcases ended with ⟨after, _, granted, filled⟩ | ⟨fault, after, _, refused, dropped⟩
      · rw [granted]
        exact (opens.trans filled).retains
      · rw [refused]
        exact (opens.trans dropped).retains

end Heap

namespace Machine

variable {σ : Type} {host : Host σ} {evaluator : Evaluator} {actor : Actor} {control next last : Control}
  {state before after reached : State σ} {start : Heap} {count : Nat}

theorem keepsTo_of_untouched {along : Heap → Heap → Prop} [Pathway along] (untouched : host.KeepsTo Eq) :
    host.KeepsTo along := by
  intro fn operands world
  have same : world.heap = (host.call fn operands world).state.heap := untouched fn operands world
  show along world.heap (host.call fn operands world).state.heap
  rw [← same]
  exact Pathway.refl world.heap

/-! ### What one step does -/

def Quiet : Control → List Frame → Prop
  | .eval .., _ => True
  | .deliver _, frame :: _ => frame.isPlain
  | _, _ => False

inductive Deed (actor : Actor) (before after : State σ) : Control → Control → Prop where
  | works {control next : Control} (quiet : Quiet control before.stack.items) (isFresh : next.IsFresh)
      (spares : before.world.heap.Spares after.world.heap)
      (marks : ∀ node, .update node ∈ after.stack.items ↔ .update node ∈ before.stack.items) :
      Deed actor before after control next
  | claims {root node : Handle} {links : List Handle} {expr : Expr} {env : Env}
      (found : Discovers before.world.heap [] root links node expr env)
      (claims : Claims actor before.world.heap after.world.heap node expr env)
      (stack : after.stack.items = .update node :: redirection links ++ before.stack.items) :
      Deed actor before after (.force root) (.eval expr env)
  | arrives {root target : Handle} {links : List Handle} {value : Node}
      (chain : before.world.heap.followOn [] root = ⟨links, .at target ⟨.evaluated, value⟩⟩) (isWhnf : value.tag.isWhnf)
      (heap : after.world.heap = before.world.heap.pointAll links target) (stack : after.stack.items = before.stack.items) :
      Deed actor before after (.force root) (.deliver (.stored target value))
  | completes {whnf : Whnf} {node : Handle} {rest : List Frame} {expr : Expr} {env : Env}
      (top : before.stack.items = .update node :: rest)
      (rewrites : before.world.heap.Rewrites after.world.heap node ⟨.inProgress actor, .thunk expr env⟩
        ⟨.evaluated, (updatePayload node whnf).1⟩)
      (stack : after.stack.items = rest) :
      Deed actor before after (.deliver whnf) (.deliver (.stored (updatePayload node whnf).2 whnf.node))
  | collapses {target : Handle} {value : Node} {links : List Handle} {rest : List Frame}
      (top : before.stack.items = .redirect links :: rest)
      (leads : ∀ link ∈ links, before.world.heap.Resolves target link)
      (heap : after.world.heap = before.world.heap.pointAll links target) (stack : after.stack.items = rest) :
      Deed actor before after (.deliver (.stored target value)) (.deliver (.stored target value))
  | blocks {root node : Handle} {links : List Handle} {owner : Actor} {content : Node} (other : owner ≠ actor)
      (heap : after.world.heap.entries = before.world.heap.entries) (stack : after.stack.items = before.stack.items)
      (held : after.world.heap.lookup node = .ok ⟨.inProgress owner, content⟩) :
      Deed actor before after (.force root) (.await links node)

theorem Works.marks {along : Heap → Heap → Prop} (works : Works along before after) (node : Handle) :
    .update node ∈ after.stack.items ↔ .update node ∈ before.stack.items := by
  obtain ⟨pushed, plain, items⟩ := works.stack
  rw [items, List.mem_append]
  exact ⟨fun member => member.resolve_left (plain_unmarked plain node), .inr⟩

theorem Demands.deed {root : Handle} (demands : Demands actor before after root next) :
    Deed actor before after (.force root) next := by
  cases demands with
  | claims found claims stack => exact .claims found claims stack
  | arrives chain isWhnf heap stack => exact .arrives chain isWhnf heap stack
  | blocks other heap stack held => exact .blocks other heap stack held

theorem resume_deed (untouched : host.KeepsTo Eq) {whnf : Whnf} {frame : Frame} {rest : Stack Frame} {ready : State σ}
    (poised : Poised start evaluator (.deliver whnf) before) (top : before.stack.items = frame :: rest.items)
    (stack : ready.stack = rest) (heap : ready.world.heap = before.world.heap)
    (ended : resume host evaluator frame whnf ready = .ok next after) (fits : after.world.heap.Addressable) :
    Deed evaluator.actor before after (.deliver whnf) next := by
  have stacked := poised.stacked
  rw [top] at stacked
  cases stacked with
  | level framed =>
    by_cases plain : frame.isPlain
    · have works := resume_plain_works (keepsTo_of_untouched untouched : host.KeepsTo Heap.Retains) evaluator plain whnf ready
      rw [ended] at works
      refine .works ?_ (resume_fresh host evaluator plain whnf _ _ _ ended) ?_ fun node => ?_
      · rw [top]
        exact plain
      · exact heap ▸ (works.heap.result fits (heap ▸ poised.settles.kept.free)).2
      · have unmarked : Frame.update node ≠ frame := by
          rintro rfl
          cases plain
        refine (works.marks node).trans ?_
        rw [top, List.mem_cons, stack]
        exact ⟨.inr, fun member => member.resolve_left unmarked⟩
    · cases frame with
      | update node =>
        obtain ⟨expr, env, held⟩ := framed.thunk (.head _)
        obtain ⟨after', ended', stack', rewrites, _⟩ := @update_held _ _ _ _ ready whnf (heap ▸ held)
        cases ended.symm.trans ended'
        rw [heap] at rewrites
        exact .completes top rewrites (by rw [stack', stack])
      | redirect links => cases framed.laid.plain_top (by simp)
      | _ => exact absurd rfl plain
  | @collapsing target value links _ leads framed =>
    have live : ∀ link ∈ links, ready.world.heap.Live link := by
      intro link member
      rw [heap]
      exact (leads link member).live
    have collapsed : resume host evaluator (.redirect links) (.stored target value) ready = .ok _ _ :=
      bind_ok (redirectAll_points live)
    cases ended.symm.trans collapsed
    refine .collapses top leads ?_ (congrArg Stack.items stack)
    simp only [heap]

theorem iterate_deed (untouched : host.KeepsTo Eq) (regular : start.Regular) (poised : Poised start evaluator control before)
    (active : ∀ links node, control ≠ .await links node)
    (stepped : iterate host evaluator control before = .ok (.continues next) after) (fits : after.world.heap.Addressable) :
    Deed evaluator.actor before after control next := by
  cases control with
  | await links node => exact absurd rfl (active links node)
  | eval expr env =>
    obtain ⟨ready, stack, heap, going⟩ := step_ok stepped
    have works := eval_works (keepsTo_of_untouched untouched : host.KeepsTo Heap.Retains) evaluator expr env ready
    rw [continuing_inv going] at works
    refine .works trivial (eval_fresh host evaluator expr env _ _ _ (continuing_inv going)) ?_ fun node => ?_
    · exact heap ▸ (works.heap.result fits (heap ▸ poised.settles.kept.free)).2
    · refine (works.marks node).trans ?_
      rw [stack]
  | force root =>
    obtain ⟨ready, stack, heap, going⟩ := step_ok stepped
    exact (demandFrom_demands (poised.settles.regular regular) stack heap (continuing_inv going)).deed
  | deliver whnf =>
    obtain ⟨ready, stack, heap, going⟩ := step_ok stepped
    obtain ⟨frame, rest, popped, resumed⟩ := finish_continues going
    have items : before.stack.items = frame :: rest.items := stack ▸ Stack.pop?_eq_some popped
    exact @resume_deed _ _ _ _ _ _ _ untouched _ _ _ { ready with stack := rest } poised items rfl heap resumed fits

/-! ### What becomes of slots -/

namespace Deed

variable {handle : Handle} {slotState : SlotState}

theorem lookup_pointAll_of_solid {heap : Heap} {links : List Handle} {target : Handle} {content : Node}
    (found : heap.lookup handle = .ok ⟨slotState, content⟩) (noLink : content.tag ≠ .indirection) :
    (heap.pointAll links target).lookup handle = .ok ⟨slotState, content⟩ := by
  rw [Heap.lookup_pointAll, found]
  split
  · cases content with
    | indirection next => exact absurd rfl noLink
    | _ => rfl
  · rfl

theorem value (deed : Deed actor before after control next) {content : Node}
    (found : before.world.heap.lookup handle = .ok ⟨slotState, content⟩) (isWhnf : content.tag.isWhnf) :
    after.world.heap.lookup handle = .ok ⟨slotState, content⟩ := by
  have noLink := Tag.ne_indirection_of_whnf isWhnf
  have written : ∀ {node old new expr env}, before.world.heap.Rewrites after.world.heap node old new →
      old.node = .thunk expr env → after.world.heap.lookup handle = .ok ⟨slotState, content⟩ := by
    intro node old new expr env rewrites isThunk
    have apart : handle ≠ node := by
      rintro rfl
      cases found.symm.trans rewrites.found
      exact Tag.ne_thunk_of_whnf isWhnf (congrArg Node.tag isThunk)
    rw [rewrites.lookup, if_neg apart, found]
  cases deed with
  | works _ _ spares _ => exact spares.kept found
  | claims _ claims _ => exact written claims rfl
  | completes _ rewrites _ => exact written rewrites rfl
  | arrives _ _ heap _ | collapses _ _ heap _ =>
    rw [heap]
    exact lookup_pointAll_of_solid found noLink
  | blocks _ heap _ _ => exact (Heap.lookup_congr heap handle).trans found

/-- A link stays as it is, or is pointed at the value that it leads to. -/
theorem link (deed : Deed actor before after control next) (sound : control.Sound before.world.heap) {onto : Handle}
    (found : before.world.heap.lookup handle = .ok ⟨slotState, .indirection onto⟩) :
    after.world.heap.lookup handle = .ok ⟨slotState, .indirection onto⟩ ∨
      ∃ target value, before.world.heap.Resolves target handle ∧
        before.world.heap.lookup target = .ok ⟨.evaluated, value⟩ ∧ value.tag.isWhnf ∧
        after.world.heap.lookup handle = .ok ⟨slotState, .indirection target⟩ := by
  have written : ∀ {node old new expr env}, before.world.heap.Rewrites after.world.heap node old new →
      old.node = .thunk expr env → after.world.heap.lookup handle = .ok ⟨slotState, .indirection onto⟩ := by
    intro node old new expr env rewrites isThunk
    have apart : handle ≠ node := by
      rintro rfl
      cases found.symm.trans rewrites.found
      cases isThunk
    rw [rewrites.lookup, if_neg apart, found]
  have pointed : ∀ {links target value}, after.world.heap = before.world.heap.pointAll links target →
      (handle ∈ links → before.world.heap.Resolves target handle) →
      before.world.heap.lookup target = .ok ⟨.evaluated, value⟩ → value.tag.isWhnf →
      after.world.heap.lookup handle = .ok ⟨slotState, .indirection onto⟩ ∨
        ∃ target value, before.world.heap.Resolves target handle ∧
          before.world.heap.lookup target = .ok ⟨.evaluated, value⟩ ∧ value.tag.isWhnf ∧
          after.world.heap.lookup handle = .ok ⟨slotState, .indirection target⟩ := by
    intro links target value heap leads stored isWhnf
    rw [heap, Heap.lookup_pointAll, found]
    by_cases listed : handle ∈ links
    · rw [if_pos listed]
      exact .inr ⟨target, value, leads listed, stored, isWhnf, rfl⟩
    · rw [if_neg listed]
      exact .inl rfl
  cases deed with
  | works _ _ spares _ => exact .inl (spares.kept found)
  | claims _ claims _ => exact .inl (written claims rfl)
  | completes _ rewrites _ => exact .inl (written rewrites rfl)
  | arrives chain isWhnf heap _ =>
    have stored := (Heap.followOn_at (congrArg Chain.landing chain)).1
    have solid : before.world.heap.Solid _ :=
      ⟨_, stored, Tag.ne_indirection_of_whnf isWhnf⟩
    exact pointed heap (fun listed => (Heap.follow_route chain).resolves_link solid listed) stored isWhnf
  | collapses _ leads heap _ => exact pointed heap (leads handle) (sound.2 _ rfl) sound.1
  | blocks _ heap _ _ => exact .inl ((Heap.lookup_congr heap handle).trans found)

theorem thunk (deed : Deed actor before after control next) (sound : control.Sound before.world.heap)
    (live : before.world.heap.Live handle) {expr : Expr} {env : Env}
    (found : after.world.heap.lookup handle = .ok ⟨slotState, .thunk expr env⟩) :
    ∃ slotState', before.world.heap.lookup handle = .ok ⟨slotState', .thunk expr env⟩ := by
  obtain ⟨⟨slotState', content⟩, old⟩ := live
  by_cases isWhnf : content.tag.isWhnf
  · cases (deed.value old isWhnf).symm.trans found
    cases isWhnf
  · cases content with
    | indirection onto =>
      rcases deed.link sound old with same | ⟨_, _, _, _, _, pointed⟩
      · cases same.symm.trans found
      · cases pointed.symm.trans found
    | thunk expr' env' =>
      have same : ∀ {node : Handle} {old' new : Slot}, before.world.heap.Rewrites after.world.heap node old' new →
          handle ≠ node → expr' = expr ∧ env' = env := by
        intro node old' new rewrites apart
        rw [rewrites.lookup, if_neg apart, old] at found
        cases found
        exact ⟨rfl, rfl⟩
      obtain ⟨rfl, rfl⟩ : expr' = expr ∧ env' = env := by
        cases deed with
        | works _ _ spares _ =>
          cases (spares.kept old).symm.trans found
          exact ⟨rfl, rfl⟩
        | @claims _ node _ _ _ _ claims _ =>
          by_cases here : handle = node
          · subst here
            cases old.symm.trans claims.found
            rw [claims.lookup, if_pos rfl] at found
            cases found
            exact ⟨rfl, rfl⟩
          · exact same claims here
        | @completes whnf node _ _ _ _ rewrites _ =>
          by_cases here : handle = node
          · subst here
            rw [rewrites.lookup, if_pos rfl] at found
            simp only [Except.ok.injEq, Slot.mk.injEq] at found
            have isWhnf := sound.1
            rcases updatePayload_cases handle whnf with ⟨existing, _, _, payload⟩ | payload
            · rw [payload] at found
              cases found.2
            · rw [payload] at found
              exact absurd (congrArg Node.tag found.2) (Tag.ne_thunk_of_whnf isWhnf)
          · exact same rewrites here
        | arrives _ _ heap _ | collapses _ _ heap _ =>
          rw [heap, lookup_pointAll_of_solid old (by simp [Node.tag])] at found
          cases found
          exact ⟨rfl, rfl⟩
        | blocks _ heap _ _ =>
          rw [Heap.lookup_congr heap, old] at found
          cases found
          exact ⟨rfl, rfl⟩
      exact ⟨slotState', old⟩
    | _ => exact absurd rfl isWhnf

theorem live (deed : Deed actor before after control next) (live : before.world.heap.Live handle) :
    after.world.heap.Live handle := by
  have pointed : ∀ {links target}, after.world.heap = before.world.heap.pointAll links target →
      after.world.heap.Live handle := by
    intro links target heap
    obtain ⟨slot, found⟩ := live
    rw [heap, Heap.Live, Heap.lookup_pointAll, found]
    split <;> exact ⟨_, rfl⟩
  cases deed with
  | works _ _ spares _ =>
    obtain ⟨slot, found⟩ := live
    exact ⟨slot, spares.kept found⟩
  | claims _ claims _ => exact (Heap.Rewrites.live_iff claims handle).mpr live
  | completes _ rewrites _ => exact (rewrites.live_iff handle).mpr live
  | arrives _ _ heap _ | collapses _ _ heap _ => exact pointed heap
  | blocks _ heap _ _ =>
    obtain ⟨slot, found⟩ := live
    exact ⟨slot, (Heap.lookup_congr heap handle).trans found⟩

end Deed

/-- Who holds a node held it at the start, or has a frame for it. -/
def Accounted (start : Heap) (actor : Actor) (state : State σ) : Prop :=
  ∀ owner node, state.world.heap.HeldBy owner node →
    start.HeldBy owner node ∨ owner = actor ∧ .update node ∈ state.stack.items

theorem Deed.accounted (deed : Deed actor before after control next) (accounts : Accounted start actor before) :
    Accounted start actor after := by
  intro owner node held
  have pointed : ∀ {links target}, after.world.heap = before.world.heap.pointAll links target →
      before.world.heap.HeldBy owner node := by
    intro links target heap
    obtain ⟨content, found⟩ := Heap.heldBy_iff.mp held
    rw [heap, Heap.lookup_pointAll] at found
    split at found
    · cases old : before.world.heap.lookup node with
      | error fault =>
        rw [old] at found
        cases found
      | ok slot =>
        obtain ⟨slotState, content'⟩ := slot
        rw [old] at found
        obtain rfl : slotState = .inProgress owner := by
          cases content' <;> exact congrArg Slot.state (Except.ok.inj found)
        exact Heap.heldBy_iff.mpr ⟨content', old⟩
    · exact Heap.heldBy_iff.mpr ⟨content, found⟩
  cases deed with
  | works _ _ spares marks =>
    refine (accounts owner node (spares.fresh held)).imp_right fun own => ⟨own.1, (marks node).mpr own.2⟩
  | @claims _ claimed _ _ _ _ claims stack =>
    rw [stack]
    by_cases here : node = claimed
    · subst here
      obtain ⟨content, found⟩ := Heap.heldBy_iff.mp held
      rw [claims.lookup, if_pos rfl] at found
      cases found
      exact .inr ⟨rfl, .head _⟩
    · refine (accounts owner node ?_).imp_right fun own => ⟨own.1, List.mem_append_right _ own.2⟩
      exact (Heap.Rewrites.heldBy claims here).mp held
  | @completes _ completed _ _ _ top rewrites stack =>
    have apart : node ≠ completed := by
      rintro rfl
      obtain ⟨content, found⟩ := Heap.heldBy_iff.mp held
      rw [rewrites.lookup, if_pos rfl] at found
      cases found
    refine (accounts owner node ((rewrites.heldBy apart).mp held)).imp_right fun own => ⟨own.1, ?_⟩
    rw [top, List.mem_cons] at own
    rw [stack]
    exact own.2.resolve_left fun same => apart (Frame.update.inj same)
  | arrives _ _ heap stack =>
    rw [stack]
    exact accounts owner node (pointed heap)
  | collapses top _ heap stack =>
    refine (accounts owner node (pointed heap)).imp_right fun own => ⟨own.1, ?_⟩
    rw [top, List.mem_cons] at own
    rw [stack]
    exact own.2.resolve_left nofun
  | blocks _ heap stack _ =>
    rw [stack]
    exact accounts owner node ((Heap.Spares.of_entries heap).fresh held)

theorem iterations_blocked {links : List Handle} {node : Handle} {owner : Actor} {content : Node}
    (other : owner ≠ evaluator.actor) (held : state.world.heap.lookup node = .ok ⟨.inProgress owner, content⟩)
    (standing : iterations host evaluator (.await links node) state count = some (last, reached)) :
    last = .await links node ∧ reached.world.heap.lookup node = .ok ⟨.inProgress owner, content⟩ := by
  induction count generalizing last reached with
  | zero =>
    cases standing
    exact ⟨rfl, held⟩
  | succ count ih =>
    obtain ⟨middle, between, earlier, stepped⟩ := iterations_succ standing
    obtain ⟨rfl, held'⟩ := ih earlier
    obtain ⟨waits, _, heap⟩ := iterate_blocked other held' stepped
    cases waits
    exact ⟨rfl, heap ▸ held'⟩

end Machine

end LazyGraph

import LazyGraph.Proofs.Machine.Iterations
import LazyGraph.Proofs.Machine.Markers

/-! The correspondence between claims and update frames along a whole call.

Between two transitions the thunks an actor holds are those of its update frames, each
held unchanged since the transition that discovered it. The frame that collapses the
chain to a thunk lies right below the thunk's update frame; once the thunk is finished
it is the top frame, and the next transition takes it off. -/

set_option autoImplicit false

namespace LazyGraph.Machine

variable {σ : Type} {law : SlotLaw}

-- Where the loop stood after each number of transitions.
abbrev History (σ : Type) := Nat → Option (Control × State σ)

/-- An earlier transition walked `links` and discovered the thunk, and the actor has held
it, as it was, ever since. -/
def HeldSince (history : History σ) (evaluator : Evaluator) (now : Nat) (node : Handle)
    (links : List Handle) : Prop :=
  ∃ since control state passed start expr env, since < now ∧ history since = some (control, state) ∧
    Walks evaluator state control passed start ∧
    Discovers state.world.heap passed start links node expr env ∧
    ∀ later control state, since < later → later ≤ now → history later = some (control, state) →
      state.world.heap.lookup node = .ok ⟨.inProgress evaluator.actor, .thunk expr env⟩

/-- The thunk of the last update frame has just been finished, and the frame for the chain
to it is on top. -/
structure Collapsing (history : History σ) (evaluator : Evaluator) (now : Nat) (control : Control)
    (state : State σ) (links : List Handle) : Prop where
  delivers : ∃ whnf, control = .deliver whnf
  finished : ∃ earlier control' before node, now = earlier + 1 ∧ history earlier = some (control', before) ∧
    before.stack.items = .update node :: state.stack.items ∧
    HeldSince history evaluator earlier node links ∧ state.world.heap.state node = .ok .evaluated

-- The invariant of the loop.
inductive Standing (history : History σ) (evaluator : Evaluator) (now : Nat) (control : Control)
    (state : State σ) : Prop where
  | tied (tied : Tied (HeldSince history evaluator now) evaluator.actor state.stack.items state.world.heap)
  | collapsing {links : List Handle} {rest : List Frame} (top : state.stack.items = .redirect links :: rest)
      (collapsing : Collapsing history evaluator now control state links)
      (tied : Tied (HeldSince history evaluator now) evaluator.actor rest state.world.heap)

variable {history : History σ} {evaluator : Evaluator} {now : Nat} {control next : Control}
  {state reached : State σ}

theorem HeldSince.carries (standing : history now = some (control, state))
    (follows : history (now + 1) = some (next, reached)) :
    Carries (HeldSince history evaluator now) (HeldSince history evaluator (now + 1)) evaluator.actor
      state.world.heap reached.world.heap := by
  rintro node links ⟨since, control', state', passed, start, expr, env, before, met, walks, found, held⟩ kept
  refine ⟨since, control', state', passed, start, expr, env, Nat.lt_succ_of_lt before, met, walks, found, ?_⟩
  intro later control'' state'' after bound reaches
  rcases Nat.le_succ_iff.mp bound with bound | rfl
  · exact held later control'' state'' after bound reaches
  · rw [follows] at reaches
    cases reaches
    exact kept expr env (held now control state before (Nat.le_refl now) standing)

theorem HeldSince.claimed {passed links : List Handle} {start node : Handle} {expr : Expr} {env : Env}
    (standing : history now = some (control, state)) (follows : history (now + 1) = some (next, reached))
    (walks : Walks evaluator state control passed start)
    (found : Discovers state.world.heap passed start links node expr env)
    (claims : Claims evaluator.actor state.world.heap reached.world.heap node expr env) :
    HeldSince history evaluator (now + 1) node links := by
  refine ⟨now, control, state, passed, start, expr, env, Nat.lt_succ_self now, standing, walks, found, ?_⟩
  intro later control' state' after bound reaches
  obtain rfl : later = now + 1 := Nat.le_antisymm bound after
  rw [follows] at reaches
  cases reaches
  rw [claims.lookup, if_pos rfl]

/-- Below a frame that is no update frame, stack and heap are tied. -/
theorem Standing.popped {frame : Frame} {below : Stack Frame}
    (stands : Standing history evaluator now control state) (popped : state.stack.pop? = some (frame, below))
    (unclaimed : ∀ node, frame ≠ .update node) :
    Tied (HeldSince history evaluator now) evaluator.actor below.items state.world.heap := by
  have items := Stack.pop?_eq_some popped
  cases stands with
  | tied tied =>
    rw [items] at tied
    exact tied.tail (tied.laid.plain_top unclaimed)
  | collapsing top _ tied =>
    rw [items] at top
    cases top
    exact tied

/-- An update frame on top means that the whole stack is tied. -/
theorem Standing.update_top {node : Handle} {below : Stack Frame}
    (stands : Standing history evaluator now control state)
    (popped : state.stack.pop? = some (.update node, below)) :
    Tied (HeldSince history evaluator now) evaluator.actor (.update node :: below.items) state.world.heap := by
  have items := Stack.pop?_eq_some popped
  cases stands with
  | tied tied => exact items ▸ tied
  | collapsing top _ _ =>
    rw [items] at top
    cases top

/-- Under a law that spares the actor, every transition leads from one standing to the next. -/
theorem Standing.step (spares : law.SparesActor evaluator.actor)
    (standing : history now = some (control, state)) (follows : history (now + 1) = some (next, reached))
    (moved : Transition law.motion evaluator state control (.ok (.continues next) reached))
    (fits : reached.world.heap.Addressable) (stands : Standing history evaluator now control state) :
    Standing history evaluator (now + 1) next reached := by
  have carries : Carries (HeldSince history evaluator now) (HeldSince history evaluator (now + 1))
      evaluator.actor state.world.heap reached.world.heap := HeldSince.carries standing follows
  cases moved with
  | worked undelivered _ works =>
    cases stands with
    | tied tied =>
      obtain ⟨pushed, plain, items⟩ := works.stack
      have kept := Heap.Drift.kept works.heap fits tied.free
      have lasting := (tied.drift spares kept carries).append plain
      exact .tied (items ▸ lasting)
    | collapsing _ collapsing _ =>
      obtain ⟨whnf, delivers⟩ := collapsing.delivers
      exact absurd delivers (undelivered whnf)
  | claimed walks found claims items =>
    cases stands with
    | tied tied =>
      have claimed := HeldSince.claimed standing follows walks found claims
      exact .tied (items ▸ tied.claims claims carries claimed)
    | collapsing _ collapsing _ =>
      obtain ⟨whnf, rfl⟩ := collapsing.delivers
      cases walks
  | finished _ final _ _ => exact absurd rfl (final next reached)
  | resumed popped unclaimed _ works =>
    obtain ⟨pushed, plain, items⟩ := works.stack
    have under := stands.popped popped unclaimed
    have kept := Heap.Drift.kept works.heap fits under.free
    have lasting := (under.drift spares kept carries).append plain
    exact .tied (items ▸ lasting)
  | @completed _ whnf node below old payload _ popped stack rewrites =>
    have items := Stack.pop?_eq_some popped
    obtain ⟨links, rest, split, claimed, lasting⟩ := (stands.update_top popped).completes rewrites carries
    rw [← stack] at split items
    cases links with
    | nil => exact .tied (split ▸ lasting)
    | cons link links =>
      refine .collapsing split ⟨⟨whnf, rfl⟩, now, _, state, node, rfl, standing, items, claimed, ?_⟩ lasting
      simp [Heap.state, rewrites.lookup, Except.map]

theorem Transition.grows {before : State σ} {result : EStateM.Result Fault (State σ) Progress}
    (moved : Transition law.motion evaluator before control result) :
    before.world.heap.capacity ≤ result.state.world.heap.capacity :=
  moved.capacity_le Heap.Drift.grows

/-! ### Whole calls -/

variable {host : Host σ} {root : Handle}

theorem iterations_standing (follows : host.Follows law.motion) (spares : law.SparesActor evaluator.actor)
    (idle : state.stack.items = []) (sound : state.world.heap.FreeListSound)
    (unclaimed : ∀ node, ¬ state.world.heap.HeldBy evaluator.actor node) {count : Nat}
    (standing : iterations host evaluator control state count = some (next, reached))
    (fits : reached.world.heap.Addressable) :
    Standing (iterations host evaluator control state) evaluator count next reached := by
  induction count generalizing next reached with
  | zero =>
    cases standing
    refine .tied ⟨sound, fun node held => absurd held (unclaimed node), ?_, ?_, ?_⟩
    · intro node member
      simp [idle] at member
    · simp [idle, markersOf]
    · exact idle ▸ .nil
  | succ count ih =>
    obtain ⟨control', before, earlier, stepped⟩ := iterations_succ standing
    have moved := stepped ▸ iterate_transition follows evaluator control' before
    exact .step spares earlier standing moved fits (ih earlier (fits.mono moved.grows))

structure Correspondence (history : History σ) (evaluator : Evaluator) (now : Nat) (control : Control)
    (state : State σ) : Prop where
  held : ∀ node, state.world.heap.HeldBy evaluator.actor node ↔ node ∈ updateMarkers state.stack
  once : (updateMarkers state.stack).Nodup
  claimed : ∀ above node below, state.stack.items = above ++ .update node :: below →
    ∃ links rest, HeldSince history evaluator now node links ∧ below = redirection links ++ rest
  redirects : ∀ above links below, state.stack.items = above ++ .redirect links :: below →
    (∃ others node, above = others ++ [.update node] ∧ HeldSince history evaluator now node links) ∨
      (above = [] ∧ Collapsing history evaluator now control state links)

theorem Standing.correspondence (stands : Standing history evaluator now control state) :
    Correspondence history evaluator now control state := by
  cases stands with
  | tied tied =>
    constructor
    · intro node
      rw [mem_updateMarkers]
      exact tied.held node
    · rw [updateMarkers_eq]
      exact List.pairwise_reverse.mpr (tied.once.imp Ne.symm)
    · exact fun above node below => tied.laid.at_update
    · exact fun above links below split => .inl (tied.laid.at_redirect split)
  | @collapsing links rest top collapsing tied =>
    constructor
    · intro node
      rw [mem_updateMarkers, top, tied.held node]
      simp
    · rw [updateMarkers_eq, top]
      exact List.pairwise_reverse.mpr (tied.once.imp Ne.symm)
    · intro above node below split
      rw [top] at split
      cases above with
      | nil => cases split
      | cons _ above => exact tied.laid.at_update (List.cons.inj split).2
    · intro above links' below split
      rw [top] at split
      cases above with
      | nil =>
        cases split
        exact .inr ⟨rfl, collapsing⟩
      | cons frame above =>
        obtain ⟨others, node, same, claimed⟩ := tied.laid.at_redirect (List.cons.inj split).2
        exact .inl ⟨frame :: others, node, by rw [same]; rfl, claimed⟩

/-- A call that has returned a result left no frame and no claim. -/
theorem iterations_finished (follows : host.Follows law.motion) (spares : law.SparesActor evaluator.actor)
    {after : State σ} {result : Handle} (stands : reached.world.heap.Addressable →
      Standing history evaluator now control reached)
    (ended : iterate host evaluator control reached = .ok (.finished result) after)
    (fits : after.world.heap.Addressable) :
    after.stack.items = [] ∧ ∀ node, ¬ after.world.heap.HeldBy evaluator.actor node := by
  have moved := ended ▸ iterate_transition follows evaluator control reached
  cases moved with
  | worked _ unfinished _ => exact absurd rfl (unfinished result after)
  | resumed _ _ unfinished _ => exact absurd rfl (unfinished result after)
  | finished empty _ stack heap =>
    cases stands (fits.mono (Heap.Drift.grows heap)) with
    | collapsing top _ _ =>
      rw [empty] at top
      cases top
    | tied tied =>
      rw [empty] at tied
      have kept := Heap.Drift.kept heap fits tied.free
      refine ⟨(congrArg Stack.items stack).trans empty, fun node held => ?_⟩
      exact nomatch tied.marked node (kept.heldBy spares held)

/-- On a heap where the actor holds nothing, and with host functions that spare it: after
every number of transitions its claims are its update frames, and after a result it has
neither frames nor claims. -/
theorem claims_correspond (lawful : host.Follows (SlotLaw.sparing evaluator.actor).motion) (root : Handle)
    (idle : state.stack.items = []) (sound : state.world.heap.FreeListSound)
    (unclaimed : ∀ node, ¬ state.world.heap.HeldBy evaluator.actor node) :
    (∀ count control reached,
      iterations host evaluator (.force root) (begin evaluator state) count = some (control, reached) →
      reached.world.heap.Addressable →
      Correspondence (iterations host evaluator (.force root) (begin evaluator state)) evaluator count
        control reached) ∧
    (∀ fuel result after, force host evaluator fuel root state = some (.ok result, after) →
      after.world.heap.Addressable →
      after.stack.items = [] ∧ ∀ node, ¬ after.world.heap.HeldBy evaluator.actor node) := by
  have spares := SlotLaw.sparing_spares evaluator.actor
  have stands : ∀ {count control reached},
      iterations host evaluator (.force root) (begin evaluator state) count = some (control, reached) →
      reached.world.heap.Addressable →
      Standing (iterations host evaluator (.force root) (begin evaluator state)) evaluator count control reached := by
    intro count control reached standing fits
    refine iterations_standing lawful spares ?_ ?_ ?_ standing fits
    · exact idle
    · exact sound
    · exact unclaimed
  refine ⟨fun count control reached standing fits => (stands standing fits).correspondence, ?_⟩
  intro fuel result after returned fits
  obtain ⟨count, control, reached, standing, ends⟩ := iterations_of_run (force_eq_ok.mp returned)
  have finished := Progress.outcome?_eq_ok ends
  exact iterations_finished lawful spares (stands standing) finished fits

/-! ### A chain of one link -/

-- A thunk, an indirection to it, and the first evaluator on their heap.
def chainedThunk : Heap :=
  let thunk := Heap.alloc (.thunk ⟨0, .int 5⟩ []) (.ofSettings {})
  (Heap.alloc (.indirection ⟨0, 0⟩) thunk.state).state

def chainedCall : Evaluator × State Unit :=
  start ⟨chainedThunk, 0, [], #[], ()⟩ {} none

-- Every function of this host fails and touches nothing.
def failingHost : Host Unit :=
  ⟨fun fn _ => throw (.failed (.raised fn.name))⟩

theorem failingHost_follows (motion : HeapMotion) : failingHost.Follows motion :=
  fun _ _ _ => motion.refl _

theorem chainedCall_sound : chainedCall.2.world.heap.FreeListSound :=
  ⟨nofun, .nil⟩

theorem chainedCall_unclaimed (node : Handle) : ¬ chainedCall.2.world.heap.HeldBy chainedCall.1.actor node :=
  Heap.unheld_of_entries (by decide +kernel) node

-- The thunk is claimed, evaluated and finished; the chain is still to be collapsed.
theorem chainedCall_third :
    ∃ control reached, iterations failingHost chainedCall.1 (.force ⟨1, 0⟩)
        (begin chainedCall.1 chainedCall.2) 3 = some (control, reached) ∧
      reached.stack.items = [.redirect [⟨1, 0⟩]] ∧ reached.world.heap.capacity = 2 := by
  have computed : (iterations failingHost chainedCall.1 (.force ⟨1, 0⟩)
      (begin chainedCall.1 chainedCall.2) 3).map (fun (_, reached) =>
        (reached.stack.items, reached.world.heap.capacity)) = some ([.redirect [⟨1, 0⟩]], 2) := by
    with_unfolding_all rfl
  obtain ⟨⟨control, reached⟩, standing, facts⟩ := Option.map_eq_some_iff.mp computed
  obtain ⟨items, capacity⟩ := Prod.mk.inj facts
  exact ⟨control, reached, standing, items, capacity⟩

theorem claims_correspond_chained :
    ∃ control reached, iterations failingHost chainedCall.1 (.force ⟨1, 0⟩)
        (begin chainedCall.1 chainedCall.2) 3 = some (control, reached) ∧
      Correspondence (iterations failingHost chainedCall.1 (.force ⟨1, 0⟩)
        (begin chainedCall.1 chainedCall.2)) chainedCall.1 3 control reached := by
  obtain ⟨control, reached, standing, _, capacity⟩ := chainedCall_third
  have fits : reached.world.heap.Addressable := by
    rw [Heap.Addressable, capacity]
    decide
  have corresponds := claims_correspond (failingHost_follows _) ⟨1, 0⟩ rfl chainedCall_sound
    chainedCall_unclaimed
  exact ⟨control, reached, standing, corresponds.1 3 control reached standing fits⟩

/-- The frame for a chain need not have an update frame above it. -/
theorem redirect_on_top :
    (∀ node, ¬ chainedCall.2.world.heap.HeldBy chainedCall.1.actor node) ∧
    ∃ control reached, iterations failingHost chainedCall.1 (.force ⟨1, 0⟩)
        (begin chainedCall.1 chainedCall.2) 3 = some (control, reached) ∧
      Frame.redirect [⟨1, 0⟩] ∈ reached.stack.items ∧
      ∀ above node below, reached.stack.items ≠ above ++ .update node :: .redirect [⟨1, 0⟩] :: below := by
  obtain ⟨control, reached, standing, items, _⟩ := chainedCall_third
  refine ⟨chainedCall_unclaimed, control, reached, standing, by simp [items], ?_⟩
  intro above node below split
  have longer := congrArg List.length (items.symm.trans split)
  simp only [List.length_append, List.length_cons, List.length_nil] at longer
  omega

end LazyGraph.Machine

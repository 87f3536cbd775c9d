import LazyGraph.Proofs.Parallel.Delivery
import LazyGraph.Proofs.Parallel.Waiting

/-! Following a chain while it changes.

The chain is followed one node after the other. Whatever happens to it meanwhile, the node
at hand stands for a closure that the evaluation has come to, or it lies where the value is.
A chain in a circle stands for a closure without an end, so it is never met. -/

set_option autoImplicit false

namespace LazyGraph.Parallel

open Unshared Machine

variable {σ : Type} {evaluator : Evaluator} {graph : Heap} {known : Handle → Prop} {account : Account} {state : State σ}
  {actor : Actor} {holes : List Hole} {shape value : Shape} {before after heap : Heap} {current node : Handle}
  {links : List Handle} {closure : Closure} {content : Node} {expr : Expr} {env : Env} {scope : List Closure}
  {frames : List Frame}

/-! ### Claims -/

theorem claim_sound (sound : Sound graph known account before) (unwaiting : before.waits.lookup actor = none)
    (claims : Claims actor before after node expr env) (waits : after.waits = before.waits) :
    Sound graph known account after ∧ ∀ other, other ≠ actor → Minds other account before account after := by
  have faithful : Faithful graph known account.reading after.settled := by
    refine sound.faithful.rewrites claims.settled (by rw [Slot.node_settled]; rfl) fun closure read => ?_
    have depicts := sound.faithful.live read (Heap.lookup_settled_of_ok claims.found)
    rw [Slot.settled_of_thunk rfl] at depicts ⊢
    cases depicts with
    | thunk _ reads code becomes => exact .thunk (by simp) reads code becomes
  refine ⟨sound.rewrites claims faithful waits (by simp) fun owner held => ?_, fun other apart => ?_⟩
  · cases held
    exact .inr unwaiting
  · refine ⟨.rewrites sound.free claims ⟨fun expr' env' held => ?_, fun held => ?_, id, fun _ => rfl⟩ waits, rfl⟩
    · cases held
    · cases held
      exact absurd rfl apart

/-- The claimed thunk will have its frame, and the links to it theirs. -/
theorem Working.claims {held : Expr} (working : Working graph known actor shape account before frames (.force closure) [] holes)
    (claims : Claims actor before after node held env)
    (read : account.reading node = some closure) (comes : ∀ link ∈ links, Comes graph account.reading (.force closure) link)
    (becomes : Becomes graph closure (.eval expr scope)) :
    Working graph known actor shape account after (.update node :: redirection links ++ frames) (.eval expr scope) []
      holes where
  backs := (working.backs.turns becomes.turns rfl).claims ⟨closure, read, becomes⟩ fun link member =>
    (comes link member).trans becomes.turns
  ends := ends_onward working.ends (becomes holes)
  holds := working.holds.claims claims links
  own := working.own
  only := by
    intro other content found
    rw [claims.lookup] at found
    split at found
    · rename_i here
      exact here ▸ .head _
    · exact List.mem_append_right _ (working.only found)

theorem enter_sure
    (working : Working graph known evaluator.actor shape account state.world.heap
      (.update node :: redirection links ++ state.stack.items) (.eval expr scope) [] holes)
    (unwaiting : state.world.heap.waits.lookup evaluator.actor = none) (reads : account.reading.Reads env scope)
    (code : expr.StaysIn known) :
    Sure graph known evaluator.actor (fun control account' after =>
      Standing graph known evaluator.actor shape account' after (.turn control)) (.once (enter evaluator links node expr env))
      account state := by
  intro account' state' later _
  have minds := later.minds
  have working' := working.later minds
  rw [← later.stack] at working'
  rcases enter_cases evaluator links node expr env state' with
    ⟨_, after, ended, items, world⟩ | ⟨_, after, pushed, ended, items, links', world⟩
  · rw [ended]
    have heap : after.world.heap = state'.world.heap := congrArg World.heap world
    refine ⟨account', .same later.sound heap, fun account'' state'' latest => Standing.later ?_ latest⟩
    exact .of_heap heap items (.eval (reads.mono minds.wider) code) working' (minds.waits.trans unwaiting)
  · rw [ended]
    have heap : after.world.heap = state'.world.heap := congrArg World.heap world
    refine ⟨⟨_, rfl⟩, ?_, account', .same later.sound heap⟩
    rw [heap, items]
    have below : Holds state'.world.heap evaluator.actor state'.stack.items :=
      (working'.holds : Holds _ _ (([.update node] ++ redirection links) ++ state'.stack.items)).right
    exact below.append fun other member => update_notMem_redirection other links (links' _ member)

/-! ### One node of a chain -/

theorem Standing.sure {pace : Pace} (standing : Standing graph known actor shape account state pace) :
    Sure graph known actor (fun pace account' after => Standing graph known actor shape account' after pace) (.ended pace)
      account state :=
  fun _ _ later => standing.later later

theorem lands_sure (sound : Sound graph known account state.world.heap) (denotes : Denotes known account.reading content value)
    (keeps : state.world.heap.settled.Keeps current content)
    (comes : ∀ link ∈ links, Comes graph account.reading (.deliver value) link)
    (working : Working graph known actor shape account state.world.heap state.stack.items (.deliver value) [] holes)
    (unwaiting : state.world.heap.waits.lookup actor = none) :
    Sure graph known actor (fun pace account' after => Standing graph known actor shape account' after pace)
      (do redirectAll links.reverse current; return .turn (.deliver (.stored current content))) account state := by
  have comes' : ∀ link ∈ links.reverse, Comes graph account.reading (.deliver value) link :=
    fun link member => comes link (List.mem_reverse.mp member)
  refine (redirectAll_sure sound denotes keeps comes').bind sound ?_
  intro _ account' state' _ later account'' state'' latest
  refine Standing.later (.turn (.deliver denotes ?_) working unwaiting) (later.trans latest)
  rintro handle ⟨⟩
  exact keeps

/-- A thunk was read. Meanwhile it may have been claimed, completed or released. -/
theorem attempt_sure
    (read : account.reading current = some closure) (comes : ∀ link ∈ links, Comes graph account.reading (.force closure) link)
    (working : Working graph known evaluator.actor shape account state.world.heap state.stack.items (.force closure) [] holes)
    (unwaiting : state.world.heap.waits.lookup evaluator.actor = none) (reads : account.reading.Reads env scope)
    (code : expr.StaysIn known) (becomes : Becomes graph closure (.eval expr scope)) :
    Sure graph known evaluator.actor (fun pace account' after => Standing graph known evaluator.actor shape account' after pace)
      (do
        match ← Plan.once (onHeap (tryClaim current evaluator.actor)) with
        | none => return .turn (← .once (enter evaluator links.reverse current expr env))
        | some (.inProgress owner) =>
          if owner = evaluator.actor then .once (throw (.nonTermination current))
          else return .turn (← startWait evaluator links.reverse current)
        | some _ => return .walk links current) account state := by
  intro account₁ state₁ later _
  have wider := later.minds.wider
  have read₁ := wider _ _ read
  have comes₁ : ∀ link ∈ links, Comes graph account₁.reading (.force closure) link :=
    fun link member => (comes link member).wider wider
  have reversed₁ : ∀ link ∈ links.reverse, Comes graph account₁.reading (.force closure) link :=
    fun link member => comes₁ link (List.mem_reverse.mp member)
  have working₁ := working.later later.minds
  rw [← later.stack] at working₁
  have unwaiting₁ := later.minds.waits.trans unwaiting
  obtain ⟨⟨slotState, content⟩, found⟩ := later.sound.live read₁ working₁.ends
  rcases tryClaim_cases found evaluator.actor with ⟨rfl, claimed⟩ | ⟨taken, refused⟩
  · have thunk := later.sound.pending found
    cases content with
    | thunk expr' env' =>
      have claims : Claims evaluator.actor state₁.world.heap
          (state₁.world.heap.put current.index.toNat ⟨.inProgress evaluator.actor, .thunk expr' env'⟩) current expr' env' :=
        Heap.put_rewrites found rfl rfl
      obtain ⟨sound₂, minds₂⟩ := claim_sound later.sound unwaiting₁ claims rfl
      rw [onHeap_ok claimed]
      refine ⟨account₁, ⟨sound₂, minds₂, rfl⟩, ?_⟩
      show Sure _ _ _ _ (do return Pace.turn (← Plan.once (enter evaluator links.reverse current expr env))) _ _
      have working₂ := working₁.claims claims read₁ reversed₁ becomes
      refine Sure.bind sound₂ (enter_sure working₂ unwaiting₁ (reads.mono wider) code) ?_
      exact fun control account' after _ standing => standing.sure
    | _ => cases thunk
  · rw [onHeap_ok refused]
    refine ⟨account₁, .same later.sound rfl, ?_⟩
    cases slotState with
    | unevaluated => exact absurd rfl taken
    | evaluated => exact fun account' after latest => Standing.later (.onward read₁ comes₁ working₁ unwaiting₁) latest
    | inProgress owner =>
      have apart : owner ≠ evaluator.actor := by
        rintro rfl
        exact working₁.acyclic found read₁ (.refl _ _)
      show Sure _ _ _ _ (if owner = evaluator.actor then .once (throw (.nonTermination current)) else
        do return Pace.turn (← startWait evaluator links.reverse current)) _ _
      rw [if_neg apart]
      refine Sure.bind later.sound (startWait_sure working₁ read₁ reversed₁) ?_
      exact fun control account' after _ standing => standing.sure

theorem walk_sure (standing : Standing graph known evaluator.actor shape account state (.walk links current)) :
    Sure graph known evaluator.actor (fun pace account' after => Standing graph known evaluator.actor shape account' after pace)
      (walk evaluator links current) account state := by
  unfold walk
  refine Sure.read fun account₁ state₁ later => ?_
  have standing₁ := standing.later later
  cases standing₁ with
  | @landed _ _ node _ _ keeps denotes comes working unwaiting =>
    obtain ⟨slotState, found⟩ := (Heap.keeps_settled denotes.whnf).mp keeps
    refine ⟨node, by rw [Heap.node, found]; rfl, ?_⟩
    have lands := lands_sure later.sound denotes keeps comes working unwaiting
    have isWhnf := denotes.whnf
    cases node with
    | thunk | indirection => cases isWhnf
    | _ => exact lands
  | @onward _ _ closure _ read comes working unwaiting =>
    obtain ⟨⟨slotState, content⟩, found⟩ := later.sound.live read working.ends
    refine ⟨content, by rw [Heap.node, found]; rfl, ?_⟩
    have depicts := later.sound.faithful.live read (Heap.lookup_settled_of_ok found)
    by_cases pending : content.tag = .thunk
    · rw [Slot.settled_of_thunk pending] at depicts
      cases depicts with
      | thunk _ reads code becomes => exact attempt_sure read comes working unwaiting reads code becomes
      | value denotes => exact absurd pending (Tag.ne_thunk_of_whnf denotes.whnf)
      | link | shared => cases pending
    · rw [Slot.settled_of_solid pending] at depicts
      have fresh : ∀ {task}, Becomes graph closure task →
          ∀ link ∈ current :: links, Comes graph account₁.reading task link := by
        intro task becomes
        exact List.forall_mem_cons.mpr
          ⟨⟨closure, read, becomes⟩, fun link member => (comes link member).trans becomes.turns⟩
      have unmet : current ∉ links := by
        intro member
        obtain ⟨closure', read', turns⟩ := comes current member
        cases read.symm.trans read'
        exact turns.endless _ ⟨shape, working.ends⟩
      cases depicts with
      | thunk => exact absurd rfl pending
      | value denotes becomes => 
        have lands := lands_sure later.sound denotes ((Heap.keeps_settled denotes.whnf).mpr ⟨_, found⟩)
          (fun link member => fresh becomes link (.tail _ member)) (working.moves becomes .nil) unwaiting
        have isWhnf := denotes.whnf
        cases content with
        | thunk | indirection => cases isWhnf
        | _ => exact lands
      | link read' becomes =>
        simp only [if_neg unmet]
        exact fun account' after latest =>
          Standing.later (.onward read' (fresh becomes) (working.moves becomes .nil) unwaiting) latest
      | shared keeps denotes becomes =>
        simp only [if_neg unmet]
        exact fun account' after latest =>
          Standing.later (.landed keeps denotes (fresh becomes) (working.moves becomes .nil) unwaiting) latest

end LazyGraph.Parallel

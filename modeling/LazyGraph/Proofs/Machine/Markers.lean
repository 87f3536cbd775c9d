import LazyGraph.Proofs.Machine.Transition

/-! Claimed thunks and the frames that answer for them.

A stack and a heap are tied when the thunks an actor holds are those of the update
frames. Drifting, claiming and finishing keep them tied, as long as nobody else meddles
with what the actor holds. -/

set_option autoImplicit false

namespace LazyGraph

/-! ### Host functions that spare an actor -/

-- What an actor may rely on while others work: its thunks stay as they are, and nothing
-- comes to be held in its name.
structure Slot.Spares (actor : Actor) (before after : Slot) : Prop where
  thunk : ∀ expr env, before = ⟨.inProgress actor, .thunk expr env⟩ → after = before
  unclaimed : after.state = .inProgress actor → before.state = .inProgress actor

namespace SlotLaw

def sparing (actor : Actor) : SlotLaw where
  allowed := Slot.Spares actor
  born slot := slot.state ≠ .inProgress actor
  refl slot := ⟨fun _ _ _ => rfl, id⟩
  trans {first second third} early late := by
    refine ⟨fun expr env held => ?_, fun held => early.unclaimed (late.unclaimed held)⟩
    have kept := early.thunk expr env held
    exact (late.thunk expr env (kept.trans held)).trans kept
  retarget state old new := ⟨fun expr env held => by simp at held, id⟩
  born_ofNode node := by
    unfold Slot.ofNode
    cases node <;> simp
  born_allowed isBorn change held := isBorn (change.unclaimed held)

structure SparesActor (law : SlotLaw) (actor : Actor) : Prop where
  allowed : ∀ {before after}, law.allowed before after → Slot.Spares actor before after
  born : ∀ {slot}, law.born slot → slot.state ≠ .inProgress actor

theorem sparing_spares (actor : Actor) : (sparing actor).SparesActor actor :=
  ⟨id, id⟩

end SlotLaw

def Heap.HeldBy (heap : Heap) (actor : Actor) (node : Handle) : Prop :=
  heap.state node = .ok (.inProgress actor)

namespace Heap

variable {law : SlotLaw} {actor : Actor} {before after : Heap} {node handle : Handle}

theorem heldBy_iff : before.HeldBy actor node ↔ ∃ content, before.lookup node = .ok ⟨.inProgress actor, content⟩ := by
  unfold HeldBy state
  constructor
  · intro held
    cases found : before.lookup node with
    | error fault => simp [found, Except.map] at held
    | ok slot =>
      obtain ⟨slotState, content⟩ := slot
      simp only [found, Except.map, Except.ok.injEq] at held
      exact ⟨content, by rw [held]⟩
  · rintro ⟨content, found⟩
    simp [found, Except.map]

/-- Looking at every entry decides that an actor holds nothing. -/
theorem unheld_of_entries (none : before.entries.all fun entry =>
      entry.slot.all fun slot => slot.state ≠ .inProgress actor) (node : Handle) :
    ¬ before.HeldBy actor node := by
  intro held
  obtain ⟨content, found⟩ := heldBy_iff.mp held
  obtain ⟨bound, present⟩ := Array.getElem?_eq_some_iff.mp (lookup_eq_ok.mp found)
  have entry := Array.all_eq_true.mp none node.index.toNat bound
  simp [present] at entry

theorem Kept.heldBy (kept : Kept law before after) (spares : law.SparesActor actor)
    (held : after.HeldBy actor node) : before.HeldBy actor node := by
  obtain ⟨content, found⟩ := heldBy_iff.mp held
  rcases kept.fresh found with ⟨old, foundOld⟩ | isBorn
  · obtain ⟨slot, foundSlot, change⟩ := kept.live foundOld
    obtain rfl := Except.ok.inj (foundSlot.symm.trans found)
    have heldOld := (spares.allowed change).unclaimed rfl
    exact heldBy_iff.mpr ⟨old.node, by rw [foundOld, ← heldOld]⟩
  · exact absurd rfl (spares.born isBorn)

theorem Kept.thunk (kept : Kept law before after) (spares : law.SparesActor actor) {expr : Expr} {env : Env}
    (held : before.lookup node = .ok ⟨.inProgress actor, .thunk expr env⟩) :
    after.lookup node = .ok ⟨.inProgress actor, .thunk expr env⟩ := by
  obtain ⟨slot, found, change⟩ := kept.live held
  rw [found, (spares.allowed change).thunk expr env rfl]

theorem Rewrites.heldBy {old new : Slot} (rewrites : before.Rewrites after node old new)
    (other : handle ≠ node) : after.HeldBy actor handle ↔ before.HeldBy actor handle := by
  rw [heldBy_iff, heldBy_iff, rewrites.lookup handle, if_neg other]

end Heap

namespace Machine

/-! ### Update frames on a stack -/

-- The thunks of the update frames, the top one first.
def markersOf (frames : List Frame) : List Handle :=
  frames.filterMap fun
    | .update node => some node
    | _ => none

theorem updateMarkers_eq (stack : Stack Frame) : updateMarkers stack = (markersOf stack.items).reverse :=
  List.filterMap_reverse

theorem mem_markersOf {node : Handle} {frames : List Frame} :
    node ∈ markersOf frames ↔ Frame.update node ∈ frames := by
  unfold markersOf
  rw [List.mem_filterMap]
  constructor
  · rintro ⟨frame, member, isUpdate⟩
    cases frame with
    | update other =>
      cases isUpdate
      exact member
    | _ => cases isUpdate
  · intro member
    exact ⟨.update node, member, rfl⟩

theorem mem_updateMarkers {node : Handle} {stack : Stack Frame} :
    node ∈ updateMarkers stack ↔ Frame.update node ∈ stack.items := by
  rw [updateMarkers_eq, List.mem_reverse, mem_markersOf]

theorem markersOf_unmarked {frames : List Frame} (unmarked : ∀ node, Frame.update node ∉ frames) :
    markersOf frames = [] := by
  apply List.eq_nil_iff_forall_not_mem.mpr
  intro node member
  exact unmarked node (mem_markersOf.mp member)

theorem plain_unmarked {frames : List Frame} (plain : ∀ frame ∈ frames, frame.isPlain) (node : Handle) :
    Frame.update node ∉ frames := by
  intro member
  cases plain _ member

@[simp] theorem markersOf_append (above below : List Frame) :
    markersOf (above ++ below) = markersOf above ++ markersOf below :=
  List.filterMap_append

@[simp] theorem markersOf_update (node : Handle) (frames : List Frame) :
    markersOf (.update node :: frames) = node :: markersOf frames := rfl

@[simp] theorem markersOf_redirection (links : List Handle) : markersOf (redirection links) = [] :=
  markersOf_unmarked fun node => update_notMem_redirection node links

/-- Frames in the order in which they can lie: the frame that collapses a chain is below
the update frame of the thunk at its end, and `claim` holds of the thunk and the chain. -/
inductive Laid (claim : Handle → List Handle → Prop) : List Frame → Prop where
  | nil : Laid claim []
  | plain {frame : Frame} {frames : List Frame} (plain : frame.isPlain) (below : Laid claim frames) :
      Laid claim (frame :: frames)
  | update {node : Handle} {links : List Handle} {frames : List Frame} (claimed : claim node links)
      (below : Laid claim frames) : Laid claim (.update node :: (redirection links ++ frames))

namespace Laid

variable {claim claim' : Handle → List Handle → Prop} {frames above below : List Frame} {node : Handle}
  {links : List Handle}

theorem append (plain : ∀ frame ∈ above, frame.isPlain) (laid : Laid claim below) :
    Laid claim (above ++ below) := by
  induction above with
  | nil => exact laid
  | cons frame above ih =>
    exact .plain (plain frame (.head _)) (ih fun other member => plain other (.tail _ member))

theorem mono (laid : Laid claim frames)
    (weaker : ∀ node links, Frame.update node ∈ frames → claim node links → claim' node links) :
    Laid claim' frames := by
  induction laid with
  | nil => exact .nil
  | plain isPlain _ ih =>
    exact .plain isPlain (ih fun node links member => weaker node links (.tail _ member))
  | update claimed _ ih =>
    refine .update (weaker _ _ (.head _) claimed) (ih fun node links member => ?_)
    exact weaker node links (.tail _ (List.mem_append_right _ member))

/-- Every update frame has the frame for its chain right below. -/
theorem at_update (laid : Laid claim frames) (split : frames = above ++ .update node :: below) :
    ∃ links rest, claim node links ∧ below = redirection links ++ rest := by
  induction laid generalizing above with
  | nil => simp at split
  | plain isPlain _ ih =>
    cases above with
    | nil =>
      cases split
      cases isPlain
    | cons _ above => exact ih (List.cons.inj split).2
  | @update top links frames claimed _ ih =>
    cases above with
    | nil =>
      obtain ⟨sameFrame, rest⟩ := List.cons.inj split
      cases sameFrame
      exact ⟨links, frames, claimed, rest.symm⟩
    | cons _ above =>
      have rest := (List.cons.inj split).2
      unfold redirection at rest
      split at rest
      · exact ih rest
      · cases above with
        | nil => simp at rest
        | cons _ above => exact ih (List.cons.inj rest).2

/-- Every frame for a chain has the update frame of the thunk at its end right above. -/
theorem at_redirect (laid : Laid claim frames) (split : frames = above ++ .redirect links :: below) :
    ∃ others node, above = others ++ [.update node] ∧ claim node links := by
  induction laid generalizing above with
  | nil => simp at split
  | plain isPlain _ ih =>
    cases above with
    | nil =>
      cases split
      cases isPlain
    | cons top above =>
      obtain ⟨others, node, same, claimed⟩ := ih (List.cons.inj split).2
      exact ⟨top :: others, node, by rw [same]; rfl, claimed⟩
  | @update thunk chain frames claimed _ ih =>
    cases above with
    | nil => simp at split
    | cons top above =>
      obtain ⟨sameTop, rest⟩ := List.cons.inj split
      unfold redirection at rest
      split at rest
      · obtain ⟨others, node, same, claimed⟩ := ih rest
        exact ⟨top :: others, node, by rw [same]; rfl, claimed⟩
      · cases above with
        | nil =>
          obtain ⟨sameLinks, -⟩ := List.cons.inj rest
          cases sameLinks
          exact ⟨[], thunk, by rw [sameTop]; rfl, claimed⟩
        | cons second above =>
          obtain ⟨others, node, same, claimed⟩ := ih (List.cons.inj rest).2
          exact ⟨top :: second :: others, node, by rw [same]; rfl, claimed⟩

theorem plain_top {frame : Frame} (laid : Laid claim (frame :: below))
    (unclaimed : ∀ node, frame ≠ .update node) : frame.isPlain := by
  cases laid with
  | plain isPlain _ => exact isPlain
  | update _ _ => exact absurd rfl (unclaimed _)

end Laid

/-! ### Thunks that frames hold -/

/-- The update frames hold thunks that the actor has claimed, each of them once. -/
structure Holds (heap : Heap) (actor : Actor) (frames : List Frame) : Prop where
  thunk : ∀ {node}, .update node ∈ frames → ∃ expr env, heap.lookup node = .ok ⟨.inProgress actor, .thunk expr env⟩
  once : (markersOf frames).Nodup

def Spared (actor : Actor) (frames : List Frame) (before after : Heap) : Prop :=
  ∀ {node expr env}, .update node ∈ frames → before.lookup node = .ok ⟨.inProgress actor, .thunk expr env⟩ →
    after.lookup node = .ok ⟨.inProgress actor, .thunk expr env⟩

variable {law : SlotLaw} {actor : Actor} {frames above rest : List Frame} {before after heap : Heap} {node : Handle}

theorem spared_of_rewrites {old new : Slot} (rewrites : before.Rewrites after node old new)
    (apart : ∀ other, .update other ∈ frames → other ≠ node) : Spared actor frames before after := by
  intro other expr env member found
  rw [rewrites.lookup, if_neg (apart other member), found]

namespace Holds

theorem nil (heap : Heap) (actor : Actor) : Holds heap actor [] :=
  ⟨nofun, .nil⟩

theorem step (holds : Holds before actor frames) (spared : Spared actor frames before after) :
    Holds after actor frames where
  thunk := by
    intro node member
    obtain ⟨expr, env, found⟩ := holds.thunk member
    exact ⟨expr, env, spared member found⟩
  once := holds.once

theorem append (holds : Holds heap actor frames) (unmarked : ∀ node, .update node ∉ above) :
    Holds heap actor (above ++ frames) where
  thunk := fun member => holds.thunk ((List.mem_append.mp member).resolve_left (unmarked _))
  once := by
    rw [markersOf_append, markersOf_unmarked unmarked]
    exact holds.once

theorem right (holds : Holds heap actor (above ++ rest)) : Holds heap actor rest where
  thunk := fun member => holds.thunk (List.mem_append_right _ member)
  once := by
    have once := holds.once
    rw [markersOf_append] at once
    exact (List.nodup_append.mp once).2.1

theorem tail {frame : Frame} (holds : Holds heap actor (frame :: rest)) : Holds heap actor rest :=
  @right _ [frame] _ _ holds

theorem apart (holds : Holds heap actor (.update node :: rest)) {other : Handle} (member : .update other ∈ rest) :
    other ≠ node := by
  rintro rfl
  have once := holds.once
  rw [markersOf_update, List.nodup_cons] at once
  exact once.1 (mem_markersOf.mpr member)

variable {expr : Expr} {env : Env}

theorem unclaimed (holds : Holds before actor frames) (claims : Claims actor before after node expr env)
    (other : Handle) (member : .update other ∈ frames) : other ≠ node := by
  rintro rfl
  obtain ⟨_, _, held⟩ := holds.thunk member
  cases claims.found.symm.trans held

theorem claims (holds : Holds before actor frames) (claims : Claims actor before after node expr env)
    (links : List Handle) : Holds after actor (.update node :: redirection links ++ frames) := by
  have lasting := holds.step (spared_of_rewrites claims (holds.unclaimed claims))
  constructor
  · intro other member
    rcases List.mem_cons.mp member with same | member
    · cases same
      exact ⟨expr, env, by rw [claims.lookup, if_pos rfl]⟩
    · rcases List.mem_append.mp member with member | member
      · exact absurd member (update_notMem_redirection other links)
      · exact lasting.thunk member
  · rw [List.cons_append, markersOf_update, markersOf_append, markersOf_redirection, List.nil_append,
      List.nodup_cons]
    exact ⟨fun member => holds.unclaimed claims node (mem_markersOf.mp member) rfl, lasting.once⟩

end Holds

/-! ### Frames tied to a heap -/

variable {claim claim' : Handle → List Handle → Prop}

-- The update frames are those of the thunks that the actor holds.
structure Tied (claim : Handle → List Handle → Prop) (actor : Actor) (frames : List Frame) (heap : Heap) :
    Prop where
  free : heap.FreeListSound
  marked : ∀ node, heap.HeldBy actor node → .update node ∈ frames
  thunk : ∀ node, .update node ∈ frames →
    ∃ expr env, heap.lookup node = .ok ⟨.inProgress actor, .thunk expr env⟩
  once : (markersOf frames).Nodup
  laid : Laid claim frames

-- What is known of a claim before is known after, if the claimed thunk is left alone.
def Carries (claim claim' : Handle → List Handle → Prop) (actor : Actor) (before after : Heap) : Prop :=
  ∀ node links, claim node links →
    (∀ expr env, before.lookup node = .ok ⟨.inProgress actor, .thunk expr env⟩ →
      after.lookup node = .ok ⟨.inProgress actor, .thunk expr env⟩) →
    claim' node links

namespace Tied

theorem held (tied : Tied claim actor frames before) (node : Handle) :
    before.HeldBy actor node ↔ .update node ∈ frames := by
  refine ⟨tied.marked node, fun member => ?_⟩
  obtain ⟨expr, env, found⟩ := tied.thunk node member
  exact Heap.heldBy_iff.mpr ⟨_, found⟩

theorem drift (tied : Tied claim actor frames before) (spares : law.SparesActor actor)
    (kept : Heap.Kept law before after) (carries : Carries claim claim' actor before after) :
    Tied claim' actor frames after where
  free := kept.free
  marked := fun node held => tied.marked node (kept.heldBy spares held)
  thunk := by
    intro node member
    obtain ⟨expr, env, found⟩ := tied.thunk node member
    exact ⟨expr, env, kept.thunk spares found⟩
  once := tied.once
  laid := tied.laid.mono fun node links _ claimed =>
    carries node links claimed fun _ _ found => kept.thunk spares found

theorem append (tied : Tied claim actor frames before)
    (plain : ∀ frame ∈ above, frame.isPlain) : Tied claim actor (above ++ frames) before where
  free := tied.free
  marked := fun node held => List.mem_append_right _ (tied.marked node held)
  thunk := by
    intro node member
    rcases List.mem_append.mp member with member | member
    · exact absurd member (plain_unmarked plain node)
    · exact tied.thunk node member
  once := by
    rw [markersOf_append, markersOf_unmarked (plain_unmarked plain)]
    exact tied.once
  laid := tied.laid.append plain

theorem tail {frame : Frame} (tied : Tied claim actor (frame :: rest) before) (plain : frame.isPlain) :
    Tied claim actor rest before where
  free := tied.free
  marked := by
    intro node held
    rcases List.mem_cons.mp (tied.marked node held) with same | member
    · subst same
      cases plain
    · exact member
  thunk := fun node member => tied.thunk node (.tail _ member)
  once := by
    have once := tied.once
    cases frame with
    | update node => cases plain
    | _ => exact once
  laid := by
    cases tied.laid with
    | plain _ below => exact below
    | update _ _ => cases plain

theorem claims {links : List Handle} {expr : Expr} {env : Env}
    (tied : Tied claim actor frames before) (claims : Claims actor before after node expr env)
    (carries : Carries claim claim' actor before after) (claimed : claim' node links) :
    Tied claim' actor (.update node :: (redirection links ++ frames)) after := by
  have unheld : Frame.update node ∉ frames := by
    intro member
    obtain ⟨_, _, found⟩ := tied.thunk node member
    rw [claims.found] at found
    cases found
  have others : ∀ other, Frame.update other ∈ frames → other ≠ node := by
    rintro other member rfl
    exact unheld member
  constructor
  · exact tied.free.rewrites claims
  · intro other held
    by_cases same : other = node
    · exact same ▸ .head _
    · have member := tied.marked other ((claims.heldBy same).mp held)
      exact .tail _ (List.mem_append_right _ member)
  · intro other member
    rw [claims.lookup]
    by_cases same : other = node
    · exact ⟨expr, env, if_pos same⟩
    · rw [if_neg same]
      rcases List.mem_cons.mp member with sameFrame | member
      · exact absurd (Frame.update.inj sameFrame) same
      · rcases List.mem_append.mp member with member | member
        · exact absurd member (update_notMem_redirection other links)
        · exact tied.thunk other member
  · rw [markersOf_update, markersOf_append, markersOf_redirection, List.nil_append, List.nodup_cons]
    exact ⟨fun member => unheld (mem_markersOf.mp member), tied.once⟩
  · refine .update claimed (tied.laid.mono fun other links member known => ?_)
    refine carries other links known fun expr env found => ?_
    rw [claims.lookup, if_neg (others other member), found]

/-- A finished thunk leaves the frame for its chain, if it has one, on top. -/
theorem completes {old payload : Node} (tied : Tied claim actor (.update node :: rest) before)
    (rewrites : before.Rewrites after node ⟨.inProgress actor, old⟩ ⟨.evaluated, payload⟩)
    (carries : Carries claim claim' actor before after) :
    ∃ links below, rest = redirection links ++ below ∧ claim node links ∧ Tied claim' actor below after := by
  have once := tied.once
  cases tied.laid with
  | plain isPlain _ => cases isPlain
  | @update _ links below claimed laid =>
    refine ⟨links, below, rfl, claimed, ?_⟩
    rw [markersOf_update, markersOf_append, markersOf_redirection, List.nil_append,
      List.nodup_cons] at once
    have others : ∀ other, Frame.update other ∈ below → other ≠ node := by
      rintro other member rfl
      exact once.1 (mem_markersOf.mpr member)
    constructor
    · exact tied.free.rewrites rewrites
    · intro other held
      by_cases same : other = node
      · obtain ⟨content, found⟩ := Heap.heldBy_iff.mp held
        rw [rewrites.lookup, if_pos same] at found
        cases found
      · rcases List.mem_cons.mp (tied.marked other ((rewrites.heldBy same).mp held)) with sameFrame | member
        · exact absurd (Frame.update.inj sameFrame) same
        · rcases List.mem_append.mp member with member | member
          · exact absurd member (update_notMem_redirection other links)
          · exact member
    · intro other member
      rw [rewrites.lookup, if_neg (others other member)]
      exact tied.thunk other (.tail _ (List.mem_append_right _ member))
    · exact once.2
    · refine laid.mono fun other links member known => ?_
      refine carries other links known fun expr env found => ?_
      rw [rewrites.lookup, if_neg (others other member), found]

end Tied

end Machine

end LazyGraph

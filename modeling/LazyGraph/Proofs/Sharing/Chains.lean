import LazyGraph.Proofs.Machine.Transition
import LazyGraph.Proofs.Sharing.Reading

/-! Chains of indirections, and the closures along them.

To follow a chain is to force one closure after the other. Where the chain lands on a
thunk, all closures on it come to that of the thunk; where it lands on a value, they all
come to that value, so that the links may be pointed straight at it. A chain that is broken
or runs in a circle stands for a closure that has no value. -/

set_option autoImplicit false

namespace LazyGraph

open Unshared

variable {graph : Heap} {known : Handle → Prop} {reading : Reading} {heap before middle after : Heap}
  {handle link target : Handle} {closure : Closure} {node : Node} {shape : Shape} {task : Task}

inductive LandsOn (known : Handle → Prop) (reading : Reading) : Landing → Task → Prop where
  | thunk {handle : Handle} {closure : Closure} {state : SlotState} {expr : Expr} {env : Env}
      (read : reading handle = some closure) :
      LandsOn known reading (.at handle ⟨state, .thunk expr env⟩) (.force closure)
  | value {handle : Handle} {node : Node} {shape : Shape} (denotes : Denotes known reading node shape) :
      LandsOn known reading (.at handle ⟨.evaluated, node⟩) (.deliver shape)

-- The closure of the handle comes to the task.
def Comes (graph : Heap) (reading : Reading) (task : Task) (handle : Handle) : Prop :=
  ∃ closure, reading handle = some closure ∧ Becomes graph closure task

inductive Walked (graph : Heap) (known : Handle → Prop) (reading : Reading) (closure : Closure) (chain : Chain) : Prop where
  | lands {task : Task} (lands : LandsOn known reading chain.landing task)
      (turns : Turns graph 0 (.force closure) [] task []) (links : ∀ link ∈ chain.links, Comes graph reading task link)
  | lost (elsewhere : ∀ handle slot, chain.landing ≠ .at handle slot)
      (endless : ∀ rest, ¬ ∃ shape, Ends graph (.force closure, rest) shape)

theorem Comes.trans {least : Nat} {task' : Task} (comes : Comes graph reading task handle)
    (turns : Turns graph least task [] task' []) : Comes graph reading task' handle := by
  obtain ⟨closure, read, becomes⟩ := comes
  exact ⟨closure, read, becomes.trans turns⟩

theorem Walked.earlier {first next : Closure} {chain : Chain} (walked : Walked graph known reading next chain)
    (becomes : Becomes graph first (.force next)) : Walked graph known reading first chain := by
  cases walked with
  | lands lands turns links => exact .lands lands (becomes.trans turns).turns links
  | lost elsewhere endless => exact .lost elsewhere fun rest => (becomes rest).unfinished (endless rest)

theorem Faithful.unfinished (faithful : Faithful graph known reading heap) (read : reading handle = some closure)
    (dead : ¬ heap.Live handle) (rest : List Hole) : ¬ ∃ shape, Ends graph (.force closure, rest) shape := by
  refine unfinished_of_stuck ?_ nofun
  rw [step, faithful.dead read dead]
  rfl

theorem Faithful.followFrom (faithful : Faithful graph known reading heap) {marks : Marks} {links : List Handle}
    (read : reading handle = some closure) (passed : ∀ link ∈ links, Comes graph reading (.force closure) link)
    (marked : ∀ index, marks.contains index → ∃ link ∈ links, link.index.toNat = index) :
    Walked graph known reading closure (heap.followFrom marks links handle) := by
  fun_induction Heap.followFrom heap marks links handle generalizing closure with
  | case1 marks links current fault missing =>
    refine .lost (fun _ _ landed => by cases landed) (faithful.unfinished read ?_)
    rintro ⟨slot, found⟩
    cases missing.symm.trans found
  | case2 marks links current slot found target isLink met =>
    -- the link was passed before, so its closure comes back to itself
    obtain ⟨link, member, index⟩ := marked _ met
    obtain ⟨other, read', becomes⟩ := passed link member
    obtain ⟨slot', found'⟩ := faithful.live_of_becomes read' becomes
    obtain rfl := Heap.eq_of_lookup found' found index
    cases read.symm.trans read'
    exact .lost (fun _ _ landed => by cases landed) becomes.endless
  | case3 marks links current slot found target isLink unmet ih =>
    have depicts := faithful.live read found
    obtain ⟨state, content⟩ := slot
    simp only at isLink
    subst isLink
    cases depicts with
    | value denotes becomes => cases denotes.whnf
    | @link _ next read' becomes =>
      have passed' : ∀ link ∈ current :: links, Comes graph reading (.force next) link := by
        refine List.forall_mem_cons.mpr ⟨⟨closure, read, becomes⟩, fun link member => ?_⟩
        exact (passed link member).trans becomes.turns
      refine (ih read' passed' fun index met => ?_).earlier becomes
      rw [Marks.contains_insert, Bool.or_eq_true, beq_iff_eq] at met
      rcases met with rfl | met
      · exact ⟨current, .head _, rfl⟩
      · obtain ⟨link, member, index⟩ := marked index met
        exact ⟨link, .tail _ member, index⟩
    | @shared _ node shape keeps denotes becomes =>
      have isWhnf := denotes.whnf
      have landed : heap.followFrom (marks.insert current.index.toNat) (current :: links) target =
          ⟨(current :: links).reverse, .at target ⟨.evaluated, node⟩⟩ := by
        rw [Heap.followFrom_eq, keeps]
        cases node with
        | indirection | thunk => cases isWhnf
        | _ => rfl
      rw [landed]
      refine .lands (.value denotes) becomes.turns fun link member => ?_
      rcases List.mem_cons.mp (List.mem_reverse.mp member) with rfl | member
      · exact ⟨closure, read, becomes⟩
      · exact (passed link member).trans becomes.turns
  | case4 marks links current slot found noLink =>
    have depicts := faithful.live read found
    have reversed : ∀ {task : Task}, Turns graph 0 (.force closure) [] task [] →
        ∀ link ∈ links.reverse, Comes graph reading task link :=
      fun turns link member => (passed link (List.mem_reverse.mp member)).trans turns
    cases depicts with
    | thunk => exact .lands (.thunk read) (.refl _ _) (reversed (.refl _ _))
    | value denotes becomes => exact .lands (.value denotes) becomes.turns (reversed becomes.turns)
    | link | shared => exact absurd rfl (noLink _)

theorem Faithful.follow (faithful : Faithful graph known reading heap) (read : reading handle = some closure) :
    Walked graph known reading closure (heap.followOn [] handle) :=
  faithful.followFrom read (by simp) (by simp)

/-! ### Links pointed at values -/

def Heap.Tidies (before after : Heap) : Prop :=
  ∀ handle slot, slot.node.tag ≠ .indirection → (after.lookup handle = .ok slot ↔ before.lookup handle = .ok slot)

theorem Heap.Tidies.refl (heap : Heap) : heap.Tidies heap :=
  fun _ _ _ => .rfl

theorem Heap.Tidies.trans (early : before.Tidies middle) (late : middle.Tidies after) : before.Tidies after :=
  fun handle slot noLink => (late handle slot noLink).trans (early handle slot noLink)

theorem Heap.Tidies.keeps (tidies : before.Tidies after) (keeps : before.Keeps handle node) (isWhnf : node.tag.isWhnf) :
    after.Keeps handle node :=
  (tidies handle _ (Tag.ne_indirection_of_whnf isWhnf)).mpr keeps

/-- A link whose closure comes to a value may be pointed at it. -/
theorem redirect_faithful (faithful : Faithful graph known reading before) (denotes : Denotes known reading node shape)
    (keeps : before.Keeps target node) (comes : Comes graph reading (.deliver shape) link) :
    ∃ done after, Heap.redirect link target before = .ok done after ∧ Faithful graph known reading after ∧
      before.Tidies after := by
  obtain ⟨closure, read, becomes⟩ := comes
  obtain ⟨⟨state, content⟩, found⟩ := faithful.live_of_becomes read becomes
  cases content with
  | indirection old =>
    have evaluated : state = .evaluated := by
      cases faithful.live read found <;> rfl
    subst evaluated
    have rewrites : before.Rewrites (before.put link.index.toNat ⟨.evaluated, .indirection target⟩) link
        ⟨.evaluated, .indirection old⟩ ⟨.evaluated, .indirection target⟩ := Heap.put_rewrites found rfl rfl
    have redirected : Heap.redirect link target before =
        .ok true (before.put link.index.toNat ⟨.evaluated, .indirection target⟩) := by
      simp [Heap.redirect, Heap.transition, found, Slot.redirect]
    refine ⟨true, _, redirected, ?_, ?_⟩
    · refine faithful.rewrites rewrites rfl fun other read' => ?_
      cases read.symm.trans read'
      exact .shared keeps denotes becomes
    · intro handle slot noLink
      rw [rewrites.lookup]
      split
      · rename_i here
        subst here
        rw [found]
        constructor <;> rintro ⟨⟩ <;> exact absurd rfl noLink
      · exact .rfl
  | _ => exact ⟨false, before, by simp [Heap.redirect, Heap.transition, found, Slot.redirect], faithful, .refl before⟩

namespace Machine

variable {σ : Type} {state : State σ} {links : List Handle}

theorem redirectAll_faithful (faithful : Faithful graph known reading state.world.heap)
    (denotes : Denotes known reading node shape) (keeps : state.world.heap.Keeps target node)
    (comes : ∀ link ∈ links, Comes graph reading (.deliver shape) link) :
    ∃ after, redirectAll links target state = .ok () after ∧ after.stack = state.stack ∧
      Faithful graph known reading after.world.heap ∧ state.world.heap.Tidies after.world.heap := by
  induction links generalizing state with
  | nil => exact ⟨state, rfl, rfl, faithful, .refl _⟩
  | cons link links ih =>
    obtain ⟨done, heap, redirected, faithful', tidies⟩ := redirect_faithful faithful denotes keeps (comes link (.head _))
    obtain ⟨after, ended, stack, faithful'', tidies'⟩ := @ih { state with world := { state.world with heap := heap } }
      faithful' (tidies.keeps keeps denotes.whnf) fun other member => comes other (.tail _ member)
    refine ⟨after, ?_, stack, faithful'', tidies.trans tidies'⟩
    have first : (do let _ ← onHeap (Heap.redirect link target)) state =
        .ok () { state with world := { state.world with heap := heap } } := bind_ok (onHeap_ok redirected)
    exact (bind_ok first).trans ended

end Machine

end LazyGraph

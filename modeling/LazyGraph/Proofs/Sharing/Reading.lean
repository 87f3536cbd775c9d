import LazyGraph.Proofs.Code.Parts
import LazyGraph.Proofs.Heap.Grants
import LazyGraph.Proofs.Heap.WellFormed
import LazyGraph.Proofs.Sharing.Unshared

/-! What the handles of a heap stand for.

A reading gives closures to handles. A heap is faithful to it when every slot shows of the
closure what evaluation without sharing would come to: a thunk is on the way to the value,
a value is where that way ends, and an indirection leads on along it, or straight to the
end. New handles get closures of their own; a slot that is overwritten has to show the
same closure as before. -/

set_option autoImplicit false

namespace LazyGraph

open Unshared

abbrev Reading := Handle → Option Closure

namespace Reading

variable {reading reading' reading'' : Reading} {env handles : List Handle} {scope closures : List Closure}
  {handle : Handle} {closure : Closure}

def Reads (reading : Reading) (env : List Handle) (scope : List Closure) : Prop :=
  env.map reading = scope.map some

def Extends (reading reading' : Reading) : Prop :=
  ∀ handle closure, reading handle = some closure → reading' handle = some closure

theorem Extends.refl (reading : Reading) : reading.Extends reading :=
  fun _ _ => id

theorem Extends.trans (early : reading.Extends reading') (late : reading'.Extends reading'') :
    reading.Extends reading'' :=
  fun handle closure read => late handle closure (early handle closure read)

namespace Reads

theorem nil (reading : Reading) : reading.Reads [] [] := rfl

theorem cons (read : reading handle = some closure) (reads : reading.Reads env scope) :
    reading.Reads (handle :: env) (closure :: scope) := by
  simp [Reads, read, show env.map reading = scope.map some from reads]

theorem append (reads : reading.Reads env scope) (more : reading.Reads handles closures) :
    reading.Reads (env ++ handles) (scope ++ closures) := by
  unfold Reads at reads more ⊢
  rw [List.map_append, List.map_append, reads, more]

theorem take (reads : reading.Reads env scope) (count : Nat) : reading.Reads (env.take count) (scope.take count) := by
  unfold Reads at reads ⊢
  rw [List.map_take, List.map_take, reads]

theorem drop (reads : reading.Reads env scope) (count : Nat) : reading.Reads (env.drop count) (scope.drop count) := by
  unfold Reads at reads ⊢
  rw [List.map_drop, List.map_drop, reads]

theorem length (reads : reading.Reads env scope) : env.length = scope.length := by
  simpa using congrArg List.length reads

theorem getElem? (reads : reading.Reads env scope) (index : Nat) :
    (∃ handle closure, env[index]? = some handle ∧ scope[index]? = some closure ∧ reading handle = some closure) ∨
      env[index]? = none ∧ scope[index]? = none := by
  have same := congrArg (fun items : List (Option Closure) => items[index]?) reads
  simp only [List.getElem?_map] at same
  cases present : env[index]? with
  | none =>
    rw [present] at same
    exact .inr ⟨rfl, Option.map_eq_none_iff.mp same.symm⟩
  | some handle =>
    rw [present] at same
    obtain ⟨closure, present', read⟩ := Option.map_eq_some_iff.mp same.symm
    exact .inl ⟨handle, closure, rfl, present', read.symm⟩

theorem mono (reads : reading.Reads env scope) (wider : reading.Extends reading') : reading'.Reads env scope := by
  induction env generalizing scope with
  | nil =>
    cases scope with
    | nil => exact nil reading'
    | cons closure scope => cases reads
  | cons handle env ih =>
    cases scope with
    | nil => cases reads
    | cons closure scope =>
      obtain ⟨read, rest⟩ := List.cons.inj reads
      exact cons (wider _ _ read) (ih rest)

end Reads

theorem exists_extension (same : handles.length = closures.length) (distinct : handles.Nodup)
    (unread : ∀ handle ∈ handles, reading handle = none) :
    ∃ reading', reading.Extends reading' ∧ reading'.Reads handles closures ∧
      ∀ handle closure, reading' handle = some closure →
        reading handle = some closure ∨ (handle, closure) ∈ handles.zip closures := by
  induction handles generalizing closures with
  | nil =>
    cases closures with
    | nil => exact ⟨reading, .refl reading, .nil reading, fun _ _ => .inl⟩
    | cons closure closures => cases same
  | cons first rest ih =>
    cases closures with
    | nil => cases same
    | cons closure closures =>
      obtain ⟨apart, distinct⟩ := List.nodup_cons.mp distinct
      obtain ⟨free, unread⟩ := List.forall_mem_cons.mp unread
      obtain ⟨wide, wider, reads, only⟩ := ih (Nat.succ.inj same) distinct unread
      refine ⟨fun handle => if handle = first then some closure else wide handle, ?_, ?_, ?_⟩
      · intro handle other read
        have elsewhere : handle ≠ first := by
          rintro rfl
          cases free.symm.trans read
        exact (if_neg elsewhere).trans (wider _ _ read)
      · refine .cons (if_pos rfl) ?_
        unfold Reads at reads ⊢
        rw [← reads]
        refine List.map_congr_left fun handle member => if_neg ?_
        rintro rfl
        exact apart member
      · intro handle other read
        simp only at read
        split at read
        · rename_i here
          cases read
          cases here
          exact .inr (.head _)
        · exact (only handle other read).imp_right (.tail _)

end Reading

/-! ### Slots and heaps that agree with a reading -/

variable {graph : Heap} {known : Handle → Prop} {reading reading' : Reading} {before after heap : Heap}
  {node : Node} {shape : Shape} {closure : Closure} {handle : Handle}

structure Denotes (known : Handle → Prop) (reading : Reading) (node : Node) (shape : Shape) : Prop where
  whnf : node.tag.isWhnf
  bare : shape.node = node.bare
  parts : reading.Reads node.references shape.parts
  code : ∀ code, node.code? = some code → code.StaysIn known

def Heap.Keeps (heap : Heap) (handle : Handle) (node : Node) : Prop :=
  heap.lookup handle = .ok ⟨.evaluated, node⟩

theorem Slot.ofNode_of_whnf (isWhnf : node.tag.isWhnf) : Slot.ofNode node = ⟨.evaluated, node⟩ := by
  cases node with
  | thunk | indirection => cases isWhnf
  | _ => rfl

inductive Depicts (graph : Heap) (known : Handle → Prop) (reading : Reading) (heap : Heap) (closure : Closure) :
    Slot → Prop where
  | thunk {state : SlotState} {expr : Expr} {env : Env} {scope : List Closure} (pending : state ≠ .evaluated)
      (reads : reading.Reads env scope) (code : expr.StaysIn known) (becomes : Becomes graph closure (.eval expr scope)) :
      Depicts graph known reading heap closure ⟨state, .thunk expr env⟩
  | link {target : Handle} {next : Closure} (read : reading target = some next)
      (becomes : Becomes graph closure (.force next)) :
      Depicts graph known reading heap closure ⟨.evaluated, .indirection target⟩
  -- a link that was pointed straight at the value
  | shared {target : Handle} {node : Node} {shape : Shape} (keeps : heap.Keeps target node)
      (denotes : Denotes known reading node shape)
      (becomes : Becomes graph closure (.deliver shape)) :
      Depicts graph known reading heap closure ⟨.evaluated, .indirection target⟩
  | value {node : Node} {shape : Shape} (denotes : Denotes known reading node shape)
      (becomes : Becomes graph closure (.deliver shape)) : Depicts graph known reading heap closure ⟨.evaluated, node⟩

structure Faithful (graph : Heap) (known : Handle → Prop) (reading : Reading) (heap : Heap) : Prop where
  free : heap.FreeListSound
  live : ∀ {handle closure slot}, reading handle = some closure → heap.lookup handle = .ok slot →
    Depicts graph known reading heap closure slot
  dead : ∀ {handle closure}, reading handle = some closure → ¬ heap.Live handle → enter? graph closure = none
  granted : ∀ {handle closure}, reading handle = some closure → ¬ heap.Offers handle
  known : ∀ {handle}, known handle → reading handle = some (.node handle)

theorem Denotes.mono (denotes : Denotes known reading node shape) (wider : reading.Extends reading') :
    Denotes known reading' node shape :=
  { denotes with parts := denotes.parts.mono wider }

theorem Depicts.mono {slot : Slot} (depicts : Depicts graph known reading before closure slot)
    (wider : reading.Extends reading')
    (keeps : ∀ {handle node}, node.tag.isWhnf → before.Keeps handle node → after.Keeps handle node) :
    Depicts graph known reading' after closure slot := by
  cases depicts with
  | thunk pending reads code becomes => exact .thunk pending (reads.mono wider) code becomes
  | link read becomes => exact .link (wider _ _ read) becomes
  | shared kept denotes becomes => exact .shared (keeps denotes.whnf kept) (denotes.mono wider) becomes
  | value denotes becomes => exact .value (denotes.mono wider) becomes

namespace Faithful

theorem live_of_becomes (faithful : Faithful graph known reading heap) (read : reading handle = some closure)
    {task : Task} (becomes : Becomes graph closure task) : heap.Live handle := by
  apply Classical.byContradiction
  intro dead
  obtain ⟨move, entered⟩ := becomes.entered
  cases (faithful.dead read dead).symm.trans entered

theorem unread (faithful : Faithful graph known reading heap) (offers : heap.Offers handle) : reading handle = none := by
  cases read : reading handle with
  | none => rfl
  | some closure => exact absurd offers (faithful.granted read)

theorem gains {handles : List Handle} {nodes : List Node}
    (faithful : Faithful graph known reading before) (gains : before.Gains after (handles.zip nodes))
    (free : after.FreeListSound) (unread : ∀ handle ∈ handles, reading handle = none)
    (taken : ∀ handle ∈ handles, ¬ after.Offers handle) (offers : ∀ handle, after.Offers handle → before.Offers handle)
    (wider : reading.Extends reading')
    (only : ∀ handle closure, reading' handle = some closure →
      reading handle = some closure ∨ ∃ node, (handle, node) ∈ handles.zip nodes ∧
        Depicts graph known reading' after closure (.ofNode node)) :
    Faithful graph known reading' after where
  free := free
  live := by
    intro handle closure slot read found
    rcases only handle closure read with read' | ⟨node, added, depicts⟩
    · rcases gains.fresh found with found | ⟨node, added, _⟩
      · exact (faithful.live read' found).mono wider fun _ kept => gains.kept kept
      · cases (unread handle (List.of_mem_zip added).1).symm.trans read'
    · cases found.symm.trans (gains.filled added)
      exact depicts
  dead := by
    intro handle closure read dead
    rcases only handle closure read with read' | ⟨node, added, _⟩
    · exact faithful.dead read' fun live => dead (gains.widens handle live)
    · exact absurd ⟨_, gains.filled added⟩ dead
  granted := by
    intro handle closure read offered
    rcases only handle closure read with read' | ⟨node, added, _⟩
    · exact faithful.granted read' (offers handle offered)
    · exact taken handle (List.of_mem_zip added).1 offered
  known := fun isKnown => wider _ _ (faithful.known isKnown)

/-- Values are never overwritten, so a write concerns one slot alone. -/
theorem rewrites {place : Handle} {old new : Slot} (faithful : Faithful graph known reading before)
    (rewrites : before.Rewrites after place old new) (noValue : old.node.tag.isWhnf = false)
    (depicts : ∀ closure, reading place = some closure → Depicts graph known reading before closure new) :
    Faithful graph known reading after := by
  have keeps : ∀ {handle node}, node.tag.isWhnf → before.Keeps handle node → after.Keeps handle node := by
    intro handle node isWhnf kept
    have apart : handle ≠ place := by
      rintro rfl
      cases rewrites.found.symm.trans kept
      cases noValue.symm.trans isWhnf
    rw [Heap.Keeps, rewrites.lookup, if_neg apart]
    exact kept
  refine ⟨faithful.free.rewrites rewrites, ?_, ?_, ?_, faithful.known⟩
  · intro handle closure slot read found
    rw [rewrites.lookup] at found
    split at found
    · rename_i here
      cases found
      cases here
      exact (depicts closure read).mono (.refl reading) keeps
    · exact (faithful.live read found).mono (.refl reading) keeps
  · exact fun read dead => faithful.dead read fun live => dead ((rewrites.live_iff _).mpr live)
  · exact fun read offers => faithful.granted read (rewrites.offers offers)

end Faithful

end LazyGraph

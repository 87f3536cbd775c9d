import LazyGraph.Proofs.Heap.Reachability
import LazyGraph.Proofs.Moves

/-! What a collection keeps and what it frees.

Marking sets the bits of the slots that can be reached, and these alone decide what the
sweep does; neither the order of the root table nor the order of the walk shows in the
result. The sweep clears every bit, so that the next collection finds none set. -/

set_option autoImplicit false

namespace LazyGraph.Heap

variable {heap : Heap}

/-! ### Counted roots -/

inductive RootChange where
  | add (handle : Handle)
  | remove (handle : Handle)

def changeRoot (heap : Heap) : RootChange → Heap
  | .add handle => heap.addRoot handle
  | .remove handle => (heap.removeRoot handle).2

-- How often a root counts after a change. A root that does not count is not removed.
def RootChange.count (handle : Handle) (count : Nat) : RootChange → Nat
  | .add root => if root = handle then count + 1 else count
  | .remove root => if root = handle then count - 1 else count

def netCount (handle : Handle) (history : List RootChange) : Nat :=
  history.foldl (RootChange.count handle) 0

-- How often the table counts a root.
def timesIn (handle : Handle) : List (Handle × Nat) → Nat
  | [] => 0
  | (root, times) :: rest => (if root = handle then times else 0) + timesIn handle rest

structure Tallies (table : List (Handle × Nat)) (count : Handle → Nat) : Prop where
  positive : ∀ entry ∈ table, 0 < entry.2
  times : ∀ handle, timesIn handle table = count handle

namespace Tallies

variable {table : List (Handle × Nat)} {count : Handle → Nat}

theorem mem_iff (tallies : Tallies table count) (handle : Handle) :
    handle ∈ table.map Prod.fst ↔ 0 < count handle := by
  have positive := tallies.positive
  rw [← tallies.times handle]
  clear tallies
  induction table with
  | nil => simp [timesIn]
  | cons entry table ih =>
    obtain ⟨root, times⟩ := entry
    have rest : handle ∈ table.map Prod.fst ↔ 0 < timesIn handle table :=
      ih fun other member => positive other (.tail _ member)
    have here : 0 < times := positive (root, times) (.head _)
    rw [List.map_cons, List.mem_cons, rest, timesIn]
    by_cases same : root = handle
    · simp only [same, if_true, true_or, true_iff]
      omega
    · simp [same, Ne.symm same]

theorem insert (tallies : Tallies table count) (root : Handle) :
    Tallies (insertRoot root table) fun handle => (RootChange.add root).count handle (count handle) := by
  constructor
  · have positive := tallies.positive
    clear tallies
    induction table with
    | nil => simp [insertRoot]
    | cons entry table ih =>
      obtain ⟨other, times⟩ := entry
      rw [insertRoot]
      split
      · intro entry member
        rcases List.mem_cons.mp member with rfl | member
        · exact Nat.succ_pos times
        · exact positive entry (.tail _ member)
      · intro entry member
        rcases List.mem_cons.mp member with rfl | member
        · exact positive _ (.head _)
        · exact ih (fun entry member => positive entry (.tail _ member)) entry member
  · intro handle
    simp only [RootChange.count, ← tallies.times handle]
    clear tallies
    induction table with
    | nil => by_cases same : root = handle <;> simp [insertRoot, timesIn, same]
    | cons entry table ih =>
      obtain ⟨other, times⟩ := entry
      by_cases found : other = root
      · by_cases same : root = handle <;> simp [insertRoot, timesIn, found, same]
        omega
      · simp only [insertRoot, found, if_false, timesIn, ih]
        split <;> split <;> omega

theorem erase (tallies : Tallies table count) (root : Handle) :
    Tallies (eraseRoot root table) fun handle => (RootChange.remove root).count handle (count handle) := by
  have positive := tallies.positive
  constructor
  · clear tallies
    induction table with
    | nil => simp [eraseRoot]
    | cons entry table ih =>
      obtain ⟨other, times⟩ := entry
      have rest : ∀ entry ∈ table, 0 < entry.2 := fun entry member => positive entry (.tail _ member)
      rw [eraseRoot]
      split
      · split
        · intro entry member
          rcases List.mem_cons.mp member with rfl | member
          · simp only
            omega
          · exact rest entry member
        · exact rest
      · intro entry member
        rcases List.mem_cons.mp member with rfl | member
        · exact positive _ (.head _)
        · exact ih rest entry member
  · intro handle
    simp only [RootChange.count, ← tallies.times handle]
    clear tallies
    induction table with
    | nil => simp [eraseRoot, timesIn]
    | cons entry table ih =>
      obtain ⟨other, times⟩ := entry
      have here : 0 < times := positive (other, times) (.head _)
      have rest := ih fun entry member => positive entry (.tail _ member)
      by_cases found : other = root
      · by_cases many : 1 < times
        · by_cases same : root = handle <;> simp [eraseRoot, timesIn, found, many, same]
          omega
        · by_cases same : root = handle <;> simp [eraseRoot, timesIn, found, many, same]
          omega
      · simp only [eraseRoot, found, if_false, timesIn, rest]
        by_cases same : root = handle
        · subst same
          simp [found]
        · simp [same]

end Tallies

/-- The root table lists the handles that were added more often than removed. -/
theorem roots_mem_iff (unrooted : heap.roots = []) (history : List RootChange) (handle : Handle) :
    handle ∈ (history.foldl changeRoot heap).roots.map Prod.fst ↔ 0 < netCount handle history := by
  have tallies : ∀ (history : List RootChange) (heap : Heap) (count : Handle → Nat), Tallies heap.roots count →
      Tallies (history.foldl changeRoot heap).roots fun handle =>
        history.foldl (RootChange.count handle) (count handle) := by
    intro history
    induction history with
    | nil => exact fun _ _ tallies => tallies
    | cons change history ih =>
      intro heap count tallies
      cases change with
      | add root => exact ih (heap.addRoot root) _ (tallies.insert root)
      | remove root => exact ih (heap.removeRoot root).2 _ (tallies.erase root)
  have initial : Tallies heap.roots fun _ => 0 := by
    rw [unrooted]
    exact ⟨by simp, fun _ => rfl⟩
  exact (tallies history heap _ initial).mem_iff handle

/-! ### Marking in rounds -/

-- What the loop carries from one round to the next.
structure Round where
  arena : Arena
  labels : Labels
  work : Stack Handle
  peak : Nat

-- Takes the top handle; none when there is none.
def Round.next? (round : Round) : Option Round :=
  match round.work.pop? with
  | none => none
  | some (handle, work) =>
    match round.arena.find? handle with
    | none => some { round with work := work }
    | some content =>
      if content.marked then some { round with work := work }
      else
        let named := content.slot.node.codeReferences round.labels
        let grown := (work.pushAll content.slot.node.references).pushAll named.1
        some ⟨round.arena.mark handle.index.toNat, named.2, grown, max round.peak grown.depth⟩

inductive TracesIn : Nat → Round → Arena × Nat → Prop where
  | done {round : Round} (stops : round.next? = none) : TracesIn 0 round (round.arena, round.peak)
  | round {rounds : Nat} {round next : Round} {traced : Arena × Nat} (goes : round.next? = some next)
      (later : TracesIn rounds next traced) : TracesIn (rounds + 1) round traced

theorem trace_rounds (arena : Arena) (labels : Labels) (work : Stack Handle) (peak : Nat) :
    ∃ rounds, TracesIn rounds ⟨arena, labels, work, peak⟩ (arena.trace labels work peak) := by
  fun_induction Arena.trace arena labels work peak with
  | case1 arena labels work peak popped => exact ⟨0, .done (by simp [Round.next?, popped])⟩
  | case2 arena labels work peak handle rest popped found ih =>
    obtain ⟨rounds, later⟩ := ih
    exact ⟨rounds + 1, .round (by simp [Round.next?, popped, found]) later⟩
  | case3 arena labels work peak handle rest popped content found met ih =>
    obtain ⟨rounds, later⟩ := ih
    exact ⟨rounds + 1, .round (by simp [Round.next?, popped, found, met]) later⟩
  | case4 arena labels work peak handle rest popped content found unmet named grown ih =>
    obtain ⟨rounds, later⟩ := ih
    exact ⟨rounds + 1, .round (by simp [Round.next?, popped, found, unmet, named, grown]) later⟩

theorem trace_nil (heap : Heap) : heap.trace [] = (.ofEntries heap.entries, 0) :=
  Arena.trace_eq _ ∅ .empty 0

/-- A single root that leads nowhere is all that is marked. -/
theorem trace_leaf {root : Handle} {slot : Slot} (live : heap.lookup root = .ok slot) (leaf : slot.node.edges = []) :
    heap.trace [root] = ((Arena.ofEntries heap.entries).mark root.index.toNat, 1) := by
  obtain ⟨held, named⟩ := List.append_eq_nil_iff.mp leaf
  have content : (Arena.ofEntries heap.entries).find? root = some ⟨slot, false⟩ := by
    simp [Arena.find?, Arena.ofEntries, lookup_eq_ok.mp live, Entry.cell]
  have single : (Stack.ofList [root]).pop? = some (root, .empty) := rfl
  rw [trace, Arena.trace_eq, single]
  simp only [content, held, named, Bool.false_eq_true, if_false]
  exact Arena.trace_eq _ _ .empty 1

/-! ### Collecting -/

def KeepsSlot (heap : Heap) (isRoot : Handle → Prop) (index : Nat) : Prop :=
  ∃ handle : Handle, handle.index.toNat = index ∧ heap.Reachable isRoot handle

structure Swept (isRoot : Handle → Prop) (before after : Heap) : Prop where
  size : after.entries.size = before.entries.size
  kept : ∀ (index : Nat) generation slot, before.entries[index]? = some ⟨generation, some slot⟩ →
    before.KeepsSlot isRoot index → after.entries[index]? = some ⟨generation, some slot⟩
  freed : ∀ (index : Nat) generation slot, before.entries[index]? = some ⟨generation, some slot⟩ →
    ¬ before.KeepsSlot isRoot index → after.entries[index]? = some ⟨generation + 1, none⟩
  empty : ∀ (index : Nat) generation, before.entries[index]? = some ⟨generation, none⟩ →
    after.entries[index]? = some ⟨generation, none⟩
  free : ∃ freed : List Nat, freed.Pairwise (· < ·) ∧
    (∀ index, index ∈ freed ↔ (∃ slot, before.slotAt? index = some slot) ∧ ¬ before.KeepsSlot isRoot index) ∧
    after.free = (freed.map UInt32.ofNat).reverse ++ before.free

/-- The bits that are set when marking ends: those of the live slots that can be reached. -/
theorem traced_cells (oneLabel : heap.OneLabel) (roots : List Handle) {index : Nat} {generation : UInt32} {slot : Slot}
    (present : heap.entries[index]? = some ⟨generation, some slot⟩) (kept : heap.KeepsSlot (· ∈ roots) index) :
    (heap.trace roots).1.cells[index]? = some ⟨generation, some ⟨slot, true⟩⟩ := by
  have marked := (mark_contains_iff oneLabel roots index).mpr kept
  rw [(heap.trace_shows roots).1.cells, present, marked]
  rfl

theorem collect_swept (oneLabel : heap.OneLabel) (extra : List Handle) :
    Swept (· ∈ heap.roots.map Prod.fst ++ extra) heap (heap.collect extra).2 := by
  let roots := heap.roots.map Prod.fst ++ extra
  have marked := mark_contains_iff oneLabel roots
  have increasing := heap.garbage_increasing (heap.mark roots).marks
  have distinct : (heap.garbage (heap.mark roots).marks).Nodup := increasing.imp Nat.ne_of_lt
  have entries := fun place => heap.entries_freeSlots distinct place
  have freed : ∀ index, index ∈ heap.garbage (heap.mark roots).marks ↔
      (∃ slot, heap.slotAt? index = some slot) ∧ ¬ heap.KeepsSlot (· ∈ roots) index := by
    intro index
    rw [mem_garbage, KeepsSlot, ← marked index]
    simp
  rw [collect_eq]
  constructor
  case size => exact heap.size_freeSlots _
  case kept =>
    intro index generation slot present kept
    have notFreed : index ∉ heap.garbage (heap.mark roots).marks := fun member => ((freed index).mp member).2 kept
    exact (entries index).trans (by rw [if_neg notFreed, present])
  case freed =>
    intro index generation slot present unreached
    have live : heap.slotAt? index = some slot := by simp [slotAt?, present]
    have member := (freed index).mpr ⟨⟨slot, live⟩, unreached⟩
    exact (entries index).trans (by rw [if_pos member, present]; rfl)
  case empty =>
    intro index generation present
    have notFreed : index ∉ heap.garbage (heap.mark roots).marks := by
      intro member
      obtain ⟨⟨slot, live⟩, -⟩ := (freed index).mp member
      simp [slotAt?, present] at live
    exact (entries index).trans (by rw [if_neg notFreed, present])
  case free => exact ⟨_, increasing, freed, heap.free_freeSlots _⟩

/-- Whatever the order of the root table: a collection keeps exactly the slots that can be
reached from handles added as roots more often than removed and from the extra roots. Marking
ends after finitely many rounds with the bits of these slots set, and the sweep leaves them as
they were with their bits cleared; no bit is set where the next collection begins. -/
theorem collect_keeps_reachable (oneLabel : heap.OneLabel) (history : List RootChange)
    (listed : heap.roots.Perm (history.foldl changeRoot (.ofSettings {})).roots) (extra : List Handle) :
    let isRoot := fun handle => 0 < netCount handle history ∨ handle ∈ extra
    let roots := heap.roots.map Prod.fst ++ extra
    Swept isRoot heap (heap.collect extra).2 ∧
      ∃ rounds arena peak,
        TracesIn rounds ⟨.ofEntries heap.entries, ∅, .ofList roots, roots.length⟩ (arena, peak) ∧
        (∀ (index : Nat) generation slot, heap.entries[index]? = some ⟨generation, some slot⟩ →
          heap.KeepsSlot isRoot index →
            arena.cells[index]? = some ⟨generation, some ⟨slot, true⟩⟩ ∧
            arena.sweep.cells[index]? = some ⟨generation, some ⟨slot, false⟩⟩) ∧
        arena.sweep.Clear ∧ Arena.ofEntries (heap.collect extra).2.entries = arena.sweep := by
  intro isRoot roots
  have same : isRoot = (· ∈ roots) := by
    funext handle
    rw [List.mem_append, (listed.map Prod.fst).mem_iff, roots_mem_iff rfl]
  rw [same]
  obtain ⟨rounds, traces⟩ := trace_rounds (.ofEntries heap.entries) ∅ (.ofList roots) roots.length
  refine ⟨collect_swept oneLabel extra, rounds, _, _, traces, ?kept, Arena.sweep_clear _, ?next⟩
  case kept =>
    intro index generation slot present kept
    have marked := traced_cells oneLabel roots present kept
    refine ⟨marked, ?_⟩
    rw [Arena.sweep, Array.getElem?_map, show (Arena.trace _ _ _ _).1.cells[index]? = _ from marked]
    rfl
  case next => exact Arena.ofEntries_entries (Arena.sweep_clear _)

/-! ### A cycle through code -/

theorem HoldsCode.of_entries {among : Expr → Prop}
    (nodes : ∀ entry ∈ heap.entries, ∀ code, entry.slot.bind (fun slot => slot.node.code?) = some code → among code)
    (children : ∀ e child, among e → child ∈ e.children → among child) {e : Expr} (held : heap.HoldsCode e) :
    among e := by
  induction held with
  | @node handle slot code live runs =>
    have present := Array.mem_of_getElem? (lookup_eq_ok.mp live)
    exact nodes _ present code runs
  | child _ member ih => exact children _ _ ih member

def cycleBody : Expr := ⟨2, .global ⟨1, 0⟩⟩

def cycleCode : Expr := ⟨1, .lambda ⟨"f", 0, 1, cycleBody⟩ []⟩

def cycleRoots : List RootChange := [.add ⟨0, 0⟩, .add ⟨0, 0⟩, .remove ⟨0, 0⟩]

-- The thunk's code names the indirection that leads back to it, in the body of a function;
-- its environment dangles, and nothing leads to the last node.
def namedCycle : Heap :=
  let thunk := Heap.alloc (.thunk cycleCode [⟨9, 0⟩]) (.ofSettings {})
  let back := Heap.alloc (.indirection ⟨0, 0⟩) thunk.state
  let stray := Heap.alloc (.int 7) back.state
  cycleRoots.foldl changeRoot stray.state

theorem namedCycle_oneLabel : namedCycle.OneLabel := by
  have among : ∀ {e}, namedCycle.HoldsCode e → e = cycleCode ∨ e = cycleBody := by
    intro e held
    apply HoldsCode.of_entries ?_ ?_ held
    · have entries : namedCycle.entries = #[⟨0, some ⟨.unevaluated, .thunk cycleCode [⟨9, 0⟩]⟩⟩,
          ⟨0, some ⟨.evaluated, .indirection ⟨0, 0⟩⟩⟩, ⟨0, some ⟨.evaluated, .int 7⟩⟩] := rfl
      rw [entries]
      simp [Node.code?, eq_comm]
    · rintro e child (rfl | rfl) member
      · exact .inr (List.mem_singleton.mp member)
      · cases member
  intro e e' held held' same
  rcases among held with rfl | rfl <;> rcases among held' with rfl | rfl
  · rfl
  · cases same
  · cases same
  · rfl

theorem collect_keeps_reachable_cycle :
    Swept (fun handle => 0 < netCount handle cycleRoots ∨ handle ∈ []) namedCycle (namedCycle.collect []).2 :=
  (collect_keeps_reachable namedCycle_oneLabel cycleRoots (.of_eq rfl) []).1

end LazyGraph.Heap

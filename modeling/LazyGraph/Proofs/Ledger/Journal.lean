import LazyGraph.Proofs.Heap.Wraparound
import LazyGraph.Proofs.Ledger.Accounts

/-! The counters and the telemetry of a heap over its whole history.

The steps of the ledger are posted again, with the proviso that only allocations and
collections write the books: the number of allocations, the telemetry and the number of
collections. Then the books agree with the handles that were granted, and one cycle begins
with what the cycle before it left and what was allocated in between. -/

set_option autoImplicit false

namespace LazyGraph

/-! ### Sums of the telemetry -/

namespace Tally

theorem total_eq_sum (tally : Tally) : tally.total = tally.sum := by
  simp only [total, sum, Tag.all, List.foldl_cons, List.foldl_nil, List.map_cons, List.map_nil, List.sum_cons,
    List.sum_nil]
  omega

theorem total_bump (tally : Tally) (tag : Tag) : (tally.bump tag).total = tally.total + 1 := by
  rw [total_eq_sum, total_eq_sum, sum_bump]

end Tally

namespace Telemetry

def collected (telemetry : Telemetry) : Nat :=
  (telemetry.cycles.toList.map Cycle.collected).sum

/-- Nodes left by each collection, summed over all of them. -/
def spared (telemetry : Telemetry) : Nat :=
  (telemetry.cycles.toList.map Cycle.liveAfter).sum

theorem recordSurvivals (tags : List Tag) (telemetry : Telemetry) :
    (tags.foldl recordSurvival telemetry).allocated = telemetry.allocated ∧
      (tags.foldl recordSurvival telemetry).cycles = telemetry.cycles ∧
      (tags.foldl recordSurvival telemetry).survived.total = telemetry.survived.total + tags.length := by
  induction tags generalizing telemetry with
  | nil => exact ⟨rfl, rfl, rfl⟩
  | cons tag tags ih =>
    obtain ⟨allocated, cycles, survived⟩ := ih (telemetry.recordSurvival tag)
    refine ⟨allocated, cycles, ?_⟩
    rw [List.foldl_cons, survived, recordSurvival, Tally.total_bump, List.length_cons]
    omega

end Telemetry

/-! ### What the operations write into the books -/

namespace Heap

variable {heap after : Heap} {handles : List Handle} {nodes : List Node} {count : UInt64}

/-- The number of allocations, the telemetry and the number of collections. -/
def books (heap : Heap) : UInt64 × Telemetry × Nat :=
  (heap.total, heap.telemetry, heap.collections)

theorem books_takeSlots (taken : Nat) (reversed : List Handle) (heap : Heap) :
    (takeSlots taken reversed heap).2.books = heap.books := by
  induction taken generalizing reversed heap with
  | zero => rfl
  | succ taken ih =>
    have first : heap.takeSlot.2.books = heap.books := by
      unfold takeSlot
      split <;> rfl
    exact (ih _ heap.takeSlot.2).trans first

theorem books_openGroup (opened : openGroup count heap = .ok handles after) :
    after.books = (heap.total + count, heap.telemetry, heap.collections) := by
  cases granted : reserve count heap with
  | ok _ counted =>
    have ended : openGroup count heap =
        .ok (takeSlots count.toNat [] counted).1 (takeSlots count.toNat [] counted).2 := bind_ok granted
    cases opened.symm.trans ended
    rw [books_takeSlots]
    unfold reserve at granted
    split at granted
    · split at granted
      · cases granted
      · cases granted
        rfl
    · cases granted
      rfl
  | error fault refused =>
    have ended : openGroup count heap = .error fault refused := bind_error granted
    cases opened.symm.trans ended

theorem books_fillAll (pairs : List (Handle × Node)) (heap : Heap) :
    let filled := pairs.foldl (fun heap (handle, node) => heap.fill handle node) heap
    filled.total = heap.total ∧ filled.collections = heap.collections ∧
      filled.telemetry.cycles = heap.telemetry.cycles ∧ filled.telemetry.survived = heap.telemetry.survived ∧
      filled.telemetry.allocated.total = heap.telemetry.allocated.total + pairs.length := by
  induction pairs generalizing heap with
  | nil => exact ⟨rfl, rfl, rfl, rfl, rfl⟩
  | cons pair pairs ih =>
    obtain ⟨total, collections, cycles, survived, allocated⟩ := ih (heap.fill pair.1 pair.2)
    refine ⟨total, collections, cycles, survived, allocated.trans ?_⟩
    have one : (heap.fill pair.1 pair.2).telemetry.allocated.total = heap.telemetry.allocated.total + 1 :=
      Tally.total_bump _ _
    rw [one, List.length_cons]
    omega

theorem books_alloc {node : Node} {handle : Handle} (allocated : alloc node heap = .ok handle after) :
    after.telemetry.cycles = heap.telemetry.cycles ∧
      after.telemetry.allocated.total = heap.telemetry.allocated.total + 1 := by
  obtain ⟨opened, opens, closes⟩ := alloc_eq_group allocated
  obtain ⟨_, rfl⟩ := closeGroup_eq_ok closes
  obtain ⟨_, _, cycles, _, allocated⟩ := books_fillAll ([handle].zip [node]) opened
  have same := books_openGroup opens
  simp only [books, Prod.mk.injEq] at same
  rw [same.2.1] at cycles allocated
  exact ⟨cycles, allocated⟩

theorem books_abandonAll (handles : List Handle) (heap : Heap) : (handles.foldl abandon heap).books = heap.books := by
  induction handles generalizing heap with
  | nil => rfl
  | cons handle handles ih => exact ih _

theorem books_freeSlots (indices : List Nat) (heap : Heap) : (heap.freeSlots indices).books = heap.books := by
  induction indices generalizing heap with
  | nil => rfl
  | cons index indices ih => exact ih _

theorem books_transition {handle : Handle} {change : Slot → Option Slot} {written : Bool}
    (ended : transition handle change heap = .ok written after) : after.books = heap.books := by
  unfold transition at ended
  split at ended
  · cases ended
  · split at ended <;> cases ended <;> rfl

theorem length_survivors (heap : Heap) (marks : Marks) :
    (heap.survivors marks).length + (heap.garbage marks).length = heap.liveSlots := by
  have one : ∀ index,
      (if marks.contains index then (heap.slotAt? index).map fun slot => slot.node.tag else none).isSome =
        ((heap.slotAt? index).isSome && marks.contains index) := by
    intro index
    cases heap.slotAt? index <;> cases marks.contains index <;> rfl
  rw [← length_occupied, survivors, garbage, occupied, List.length_filterMap_eq_countP]
  simp only [← List.countP_eq_length_filter, one]
  induction List.range heap.capacity with
  | nil => rfl
  | cons index indices ih =>
    simp only [List.countP_cons]
    have here : heap.isGarbage marks index = ((heap.slotAt? index).isSome && !marks.contains index) := rfl
    rw [here]
    cases (heap.slotAt? index).isSome <;> cases marks.contains index <;> simp <;> omega

theorem books_collect (heap : Heap) (roots : List Handle) :
    let cycle := (heap.collect roots).1
    let after := (heap.collect roots).2
    after.total = heap.total ∧ after.collections = heap.collections + 1 ∧
      after.telemetry.allocated = heap.telemetry.allocated ∧
      after.telemetry.cycles = heap.telemetry.cycles.push cycle ∧
      after.telemetry.survived.total = heap.telemetry.survived.total + cycle.liveAfter ∧
      cycle.number = heap.collections ∧ cycle.liveBefore = heap.liveSlots ∧
      cycle.liveBefore = cycle.liveAfter + cycle.collected ∧ cycle.collected = (heap.freed roots).length := by
  rw [collect_eq]
  have same := books_freeSlots (heap.freed roots) heap
  simp only [books, Prod.mk.injEq] at same
  obtain ⟨total, telemetry, collections⟩ := same
  have parts := heap.length_survivors (heap.mark (heap.roots.map Prod.fst ++ roots)).marks
  obtain ⟨allocated, cycles, survived⟩ := Telemetry.recordSurvivals
    (heap.survivors (heap.mark (heap.roots.map Prod.fst ++ roots)).marks) (heap.freeSlots (heap.freed roots)).telemetry
  rw [telemetry] at allocated cycles survived
  have kept : heap.liveSlots - (heap.freed roots).length =
      (heap.survivors (heap.mark (heap.roots.map Prod.fst ++ roots)).marks).length := by
    rw [← parts]
    exact Nat.add_sub_cancel _ _
  refine ⟨total, congrArg (· + 1) collections, ?_, ?_, ?_, rfl, rfl, ?_, rfl⟩
  · rw [← allocated, ← telemetry]
    rfl
  · rw [← cycles, ← telemetry]
    rfl
  · have after := survived.trans (congrArg (heap.telemetry.survived.total + ·) kept.symm)
    rw [← telemetry] at after ⊢
    exact after
  · exact (Nat.sub_add_cancel (heap.length_freed_le roots)).symm

/-- At the first collection the nodes that stay and those that go were live before. -/
theorem live_first_collect (none : heap.telemetry.cycles = #[]) (roots : List Handle) :
    (heap.collect roots).2.live.toNat + (heap.collect roots).2.telemetry.collected ≤ heap.liveSlots := by
  obtain ⟨_, _, _, cycles, _, _, _, _, freed⟩ := heap.books_collect roots
  have collected : (heap.collect roots).2.telemetry.collected = (heap.freed roots).length := by
    rw [Telemetry.collected, cycles, none]
    simp [freed]
  rw [collected, heap.live_collect, UInt64.toNat_ofNat']
  calc _ ≤ heap.liveSlots - (heap.freed roots).length + (heap.freed roots).length :=
        Nat.add_le_add_right (Nat.mod_le _ _) _
    _ = heap.liveSlots := Nat.sub_add_cancel (heap.length_freed_le roots)

end Heap

/-! ### Histories -/

namespace Ledger

/-- A collection. -/
def collect (ledger : Ledger) (roots : List Handle) : Ledger :=
  { ledger with
    heap := (ledger.heap.collect roots).2
    reclaimed := ledger.granted.filter (fun handle =>
      ledger.heap.contains handle && !(ledger.heap.collect roots).2.contains handle) ++ ledger.reclaimed
    recycled := ledger.heap.freed roots ++ ledger.recycled }

/-- One operation of the heap, of which only allocations and collections write the books.
`within` says under which groups a collection may run. -/
inductive Posts (within : List Group → Prop) : Ledger → Ledger → Prop where
  | openGroup {ledger : Ledger} {count : UInt64} {handles : List Handle} {after : Heap}
      (opened : Heap.openGroup count ledger.heap = .ok handles after) :
      Posts within ledger { ledger with
        heap := after
        groups := ⟨count, handles⟩ :: ledger.groups
        issued := handles ++ ledger.issued }
  | fillGroup {ledger : Ledger} {group : Group} {rest : List Group} {nodes : List Node} {after : Heap}
      (innermost : ledger.groups = group :: rest)
      (filled : Heap.closeGroup group.count group.handles nodes ledger.heap = .ok () after) :
      Posts within ledger { ledger with
        heap := after
        groups := rest
        granted := group.handles ++ ledger.granted }
  | dropGroup {ledger : Ledger} {group : Group} {rest : List Group} {nodes : List Node} {fault : Fault} {after : Heap}
      (innermost : ledger.groups = group :: rest)
      (refused : Heap.closeGroup group.count group.handles nodes ledger.heap = .error fault after) :
      Posts within ledger { ledger with
        heap := after
        groups := rest
        recycled := group.handles.map (·.index.toNat) ++ ledger.recycled }
  | write {ledger : Ledger} {handle : Handle} {change : Slot → Option Slot} {after : Heap}
      (written : Heap.transition handle change ledger.heap = .ok true after) :
      Posts within ledger { ledger with heap := after }
  | aside {ledger : Ledger} {after : Heap} (entries : after.entries = ledger.heap.entries)
      (free : after.free = ledger.heap.free) (live : after.live = ledger.heap.live)
      (books : after.books = ledger.heap.books) :
      Posts within ledger { ledger with heap := after }
  | collect {ledger : Ledger} (allowed : within ledger.groups) (roots : List Handle) :
      Posts within ledger (ledger.collect roots)

/-- What a heap that began empty has become, with the number of allocations that had
succeeded at each of its collections, the oldest first. -/
inductive History (settings : HeapSettings) : List Nat → Ledger → Prop where
  | start : History settings [] (start settings)
  | post {grants : List Nat} {ledger later : Ledger} (earlier : History settings grants ledger)
      (posts : Posts (fun _ => False) ledger later) : History settings grants later
  | collect {grants : List Nat} {ledger : Ledger} (earlier : History settings grants ledger)
      (idle : ledger.groups = []) (roots : List Handle) :
      History settings (grants ++ [ledger.granted.length]) (ledger.collect roots)

variable {within : List Group → Prop} {ledger later : Ledger} {settings : HeapSettings} {grants : List Nat}

theorem Posts.step (posts : Posts within ledger later) : Step within ledger later := by
  cases posts with
  | openGroup opened => exact .openGroup opened
  | fillGroup innermost filled => exact .fillGroup innermost filled
  | dropGroup innermost refused => exact .dropGroup innermost refused
  | write written => exact .write written
  | aside entries free live _ => exact .books entries free live
  | collect allowed roots => exact .collect allowed roots

instance : Handling (Posts within) where
  openGroup := .openGroup
  fillGroup := .fillGroup
  dropGroup := .dropGroup
  write := .write
  noted _ _ _ := .aside rfl rfl rfl rfl

theorem Posts.idle (posts : Posts (fun _ => False) ledger later) : Posts (· = []) ledger later := by
  cases posts with
  | openGroup opened => exact .openGroup opened
  | fillGroup innermost filled => exact .fillGroup innermost filled
  | dropGroup innermost refused => exact .dropGroup innermost refused
  | write written => exact .write written
  | aside entries free live books => exact .aside entries free live books
  | collect allowed roots => exact allowed.elim

theorem History.reached (history : History settings grants ledger) : Reached (· = []) settings ledger := by
  induction history with
  | start => exact .refl
  | post _ posts ih => exact ih.tail posts.idle.step
  | collect _ idle roots ih => exact ih.tail (.collect idle roots)

theorem History.onward (history : History settings grants ledger)
    (run : Relation.ReflTransGen (Posts (· = [])) ledger later) :
    ∃ more, History settings (grants ++ more) later := by
  induction run with
  | refl => exact ⟨[], by simpa using history⟩
  | tail _ posts ih =>
    obtain ⟨more, history⟩ := ih
    cases posts with
    | openGroup opened => exact ⟨more, history.post (.openGroup opened)⟩
    | fillGroup innermost filled => exact ⟨more, history.post (.fillGroup innermost filled)⟩
    | dropGroup innermost refused => exact ⟨more, history.post (.dropGroup innermost refused)⟩
    | write written => exact ⟨more, history.post (.write written)⟩
    | aside entries free live books => exact ⟨more, history.post (.aside entries free live books)⟩
    | collect idle roots => exact ⟨_, List.append_assoc .. ▸ history.collect idle roots⟩

/-! ### The books agree with the history -/

/-- One cycle of the telemetry: it is numbered by its position, it splits what was live, and
all that had been allocated by then was live or had been collected before. -/
structure Recorded (grants : List Nat) (cycles : List Cycle) (position : Nat) (cycle : Cycle) : Prop where
  number : cycle.number = position
  parts : cycle.liveBefore = cycle.liveAfter + cycle.collected
  granted : grants[position]? = some (cycle.liveBefore + ((cycles.take position).map Cycle.collected).sum)

theorem Recorded.append {cycles : List Cycle} {position : Nat} {cycle : Cycle}
    (recorded : Recorded grants cycles position cycle) (more : List Nat) (next : List Cycle)
    (counted : position < grants.length) (within : position ≤ cycles.length) :
    Recorded (grants ++ more) (cycles ++ next) position cycle where
  number := recorded.number
  parts := recorded.parts
  granted := by
    rw [List.getElem?_append_left counted, List.take_append_of_le_length within]
    exact recorded.granted

def counted (ledger : Ledger) : Nat :=
  ledger.granted.length + ledger.reserved.length

structure Posted (grants : List Nat) (ledger : Ledger) : Prop where
  total : ledger.heap.total = UInt64.ofNat ledger.counted
  allocated : ledger.heap.telemetry.allocated.total = ledger.granted.length
  live : ledger.heap.live.toNat + ledger.heap.telemetry.collected = ledger.counted
  collections : ledger.heap.collections = ledger.heap.telemetry.cycles.size
  survived : ledger.heap.telemetry.survived.total = ledger.heap.telemetry.spared
  sized : grants.length = ledger.heap.telemetry.cycles.size
  cycles : ∀ position cycle, ledger.heap.telemetry.cycles.toList[position]? = some cycle →
    Recorded grants ledger.heap.telemetry.cycles.toList position cycle

theorem Posted.start (settings : HeapSettings) : Posted [] (Ledger.start settings) :=
  ⟨rfl, rfl, rfl, rfl, rfl, rfl, nofun⟩

theorem Posted.still (posted : Posted grants ledger) (total : later.heap.total = UInt64.ofNat later.counted)
    (allocated : later.heap.telemetry.allocated.total = later.granted.length)
    (live : later.heap.live.toNat + ledger.heap.telemetry.collected = later.counted)
    (collections : later.heap.collections = ledger.heap.collections)
    (cycles : later.heap.telemetry.cycles = ledger.heap.telemetry.cycles)
    (survived : later.heap.telemetry.survived = ledger.heap.telemetry.survived) : Posted grants later where
  total := total
  allocated := allocated
  live := by rw [Telemetry.collected, cycles]; exact live
  collections := by rw [collections, cycles]; exact posted.collections
  survived := by rw [survived, Telemetry.spared, cycles]; exact posted.survived
  sized := by rw [cycles]; exact posted.sized
  cycles := by rw [cycles]; exact posted.cycles

theorem Posted.apart (posted : Posted grants ledger) {after : Heap} (live : after.live = ledger.heap.live)
    (books : after.books = ledger.heap.books) : Posted grants { ledger with heap := after } := by
  simp only [Heap.books, Prod.mk.injEq] at books
  obtain ⟨total, telemetry, collections⟩ := books
  refine posted.still (total.trans posted.total) ?_ ?_ collections (congrArg _ telemetry) (congrArg _ telemetry)
  · rw [telemetry]
    exact posted.allocated
  · rw [live]
    exact posted.live

/-- The counter of live nodes moves by as much as the slots that are not free do. -/
theorem live_between (before : ledger.Balanced) (after : later.Balanced) :
    later.heap.live.toNat + (ledger.heap.capacity + later.heap.free.length) =
      ledger.heap.live.toNat + (later.heap.capacity + ledger.heap.free.length) := by
  unfold Balanced at before after
  omega

theorem Posted.openGroup {count : UInt64} {handles : List Handle} {after : Heap} (posted : Posted grants ledger)
    (opened : Heap.openGroup count ledger.heap = .ok handles after) (balanced : ledger.Balanced)
    (balanced' : after.live.toNat + after.free.length = after.capacity) :
    Posted grants { ledger with
      heap := after
      groups := ⟨count, handles⟩ :: ledger.groups
      issued := handles ++ ledger.issued } := by
  obtain ⟨reserved, entries, free, _, taken⟩ := Heap.openGroup_eq_ok opened
  have slots := Heap.capacity_takeSlots_free count.toNat [] reserved
  have length := Heap.length_takeSlots count.toNat [] reserved
  simp only [taken, free, Heap.capacity, entries, List.length_nil] at slots length
  have books := Heap.books_openGroup opened
  simp only [Heap.books, Prod.mk.injEq] at books
  obtain ⟨total, telemetry, collections⟩ := books
  have counted : Ledger.counted { ledger with
      heap := after
      groups := ⟨count, handles⟩ :: ledger.groups
      issued := handles ++ ledger.issued } = ledger.counted + count.toNat := by
    simp only [Ledger.counted, Ledger.reserved, List.flatMap_cons, List.length_append]
    omega
  refine posted.still ?_ ?_ ?_ collections (congrArg _ telemetry) (congrArg _ telemetry)
  · rw [counted, total, posted.total, UInt64.ofNat_add, UInt64.ofNat_toNat]
  · rw [telemetry]
    exact posted.allocated
  · have live := posted.live
    unfold Balanced Heap.capacity at balanced
    unfold Heap.capacity at balanced'
    rw [counted]
    show after.live.toNat + _ = _
    omega

theorem Posted.fillGroup {group : Group} {rest : List Group} {nodes : List Node} {after : Heap}
    (posted : Posted grants ledger) (innermost : ledger.groups = group :: rest)
    (sized : group.handles.length = group.count.toNat)
    (filled : Heap.closeGroup group.count group.handles nodes ledger.heap = .ok () after) :
    Posted grants { ledger with heap := after, groups := rest, granted := group.handles ++ ledger.granted } := by
  obtain ⟨exactly, rfl⟩ := Heap.closeGroup_eq_ok filled
  obtain ⟨total, collections, cycles, survived, allocated⟩ :=
    Heap.books_fillAll (group.handles.zip nodes) ledger.heap
  have counted : (group.handles ++ ledger.granted).length + (rest.flatMap Group.handles).length = ledger.counted := by
    rw [Ledger.counted, reserved_cons innermost]
    simp only [List.length_append]
    omega
  refine posted.still ?_ ?_ ?_ collections cycles survived
  · exact total.trans (posted.total.trans (congrArg _ counted.symm))
  · simp only [allocated, posted.allocated, List.length_zip, List.length_append]
    omega
  · rw [Heap.live_fillAll]
    exact posted.live.trans counted.symm

theorem Posted.dropGroup {group : Group} {rest : List Group} {nodes : List Node} {fault : Fault} {after : Heap}
    (posted : Posted grants ledger) (innermost : ledger.groups = group :: rest)
    (sized : group.handles.length = group.count.toNat)
    (refused : Heap.closeGroup group.count group.handles nodes ledger.heap = .error fault after)
    (balanced : ledger.Balanced) (balanced' : after.live.toNat + after.free.length = after.capacity) :
    Posted grants { ledger with
      heap := after
      groups := rest
      recycled := group.handles.map (·.index.toNat) ++ ledger.recycled } := by
  cases Heap.closeGroup_eq_error refused
  have books := Heap.books_abandonAll group.handles ledger.heap
  simp only [Heap.books, Prod.mk.injEq] at books
  obtain ⟨total, telemetry, collections⟩ := books
  have free := congrArg List.length (Heap.free_abandonAll group.handles ledger.heap)
  have capacity := Heap.capacity_abandonAll group.handles ledger.heap
  have counted : ledger.counted = ledger.granted.length + (rest.flatMap Group.handles).length + group.count.toNat := by
    rw [Ledger.counted, reserved_cons innermost, List.length_append]
    omega
  refine posted.still ?_ ?_ ?_ collections (congrArg _ telemetry) (congrArg _ telemetry)
  · show (group.handles.foldl Heap.abandon ledger.heap).total - group.count = UInt64.ofNat (_ + _)
    rw [total, posted.total, counted, UInt64.ofNat_add _ group.count.toNat, UInt64.ofNat_toNat]
    exact UInt64.add_sub_cancel _ _
  · simp only [Heap.unreserve, telemetry]
    exact posted.allocated
  · have live := posted.live
    simp only [Heap.unreserve, Heap.capacity, List.length_append, List.length_reverse, List.length_map, free]
      at balanced' capacity ⊢
    unfold Balanced Heap.capacity at balanced
    simp only [Ledger.counted, Ledger.reserved] at live counted ⊢
    omega

theorem Posted.post (posted : Posted grants ledger) (posts : Posts (fun _ => False) ledger later)
    (sound : ledger.Sound) (balanced : ledger.Balanced) (balanced' : later.Balanced) : Posted grants later := by
  cases posts with
  | openGroup opened => exact posted.openGroup opened balanced balanced'
  | @fillGroup group _ _ _ innermost filled =>
    exact posted.fillGroup innermost (sound.sized group (by simp [innermost])) filled
  | @dropGroup group _ _ _ _ innermost refused =>
    exact posted.dropGroup innermost (sound.sized group (by simp [innermost])) refused balanced balanced'
  | write written =>
    obtain ⟨_, _, _, live⟩ := Heap.transition_rewrites written
    exact posted.apart live (Heap.books_transition written)
  | aside _ _ live books => exact posted.apart live books
  | collect allowed roots => exact allowed.elim

/-- A collection adds a cycle, before which all that was allocated is live or was collected. -/
theorem Posted.collect (posted : Posted grants ledger) (idle : ledger.groups = []) (sound : ledger.Sound)
    (roots : List Handle) (balanced : ledger.Balanced) (balanced' : (ledger.collect roots).Balanced) :
    Posted (grants ++ [ledger.granted.length]) (ledger.collect roots) := by
  obtain ⟨total, collections, allocated, cycles, survived, number, before, parts, freed⟩ :=
    ledger.heap.books_collect roots
  have none : ledger.reserved = [] := by simp [reserved, idle]
  have capacity := sound.parted.capacity_eq
  have counted : ledger.counted = ledger.granted.length := by simp [Ledger.counted, none]
  have live := posted.live
  rw [none, List.length_nil] at capacity
  have listed : (ledger.collect roots).heap.telemetry.cycles.toList =
      ledger.heap.telemetry.cycles.toList ++ [(ledger.heap.collect roots).1] := by
    simp only [Ledger.collect, cycles, Array.toList_push]
  have sum : (ledger.collect roots).heap.telemetry.collected =
      ledger.heap.telemetry.collected + (ledger.heap.collect roots).1.collected := by
    simp [Telemetry.collected, listed]
  constructor
  case total => exact total.trans posted.total
  case allocated => exact (congrArg Tally.total allocated).trans posted.allocated
  case live =>
    have same := (Heap.collect_sweeps ledger.heap roots).capacity
    have free := congrArg List.length (Heap.free_collect ledger.heap roots)
    simp only [List.length_append, List.length_reverse, List.length_map] at free
    have moved := live_between balanced balanced'
    have kept : (ledger.collect roots).counted = ledger.counted := rfl
    rw [sum, kept, freed]
    simp only [Ledger.collect] at moved ⊢
    omega
  case collections => simp [Ledger.collect, collections, cycles, posted.collections]
  case survived => simp [Ledger.collect, survived, posted.survived, Telemetry.spared, cycles]
  case sized => simp [Ledger.collect, cycles, posted.sized]
  case cycles =>
    intro position cycle found
    rw [listed] at found ⊢
    have sized : ledger.heap.telemetry.cycles.toList.length = ledger.heap.telemetry.cycles.size := Array.length_toList
    rcases Nat.lt_or_ge position ledger.heap.telemetry.cycles.size with earlier | last
    · rw [List.getElem?_append_left (sized ▸ earlier)] at found
      exact (posted.cycles position cycle found).append _ _ (posted.sized ▸ earlier) (sized ▸ Nat.le_of_lt earlier)
    · rw [List.getElem?_append_right (sized ▸ last), List.getElem?_singleton] at found
      split at found
      · rename_i here
        obtain rfl : position = ledger.heap.telemetry.cycles.size := by omega
        cases found
        refine ⟨number.trans posted.collections, parts, ?_⟩
        rw [← posted.sized, List.getElem?_concat_length, posted.sized, ← sized, List.take_left, before]
        unfold Balanced at balanced
        unfold Telemetry.collected at live
        exact congrArg some (by omega)
      · cases found

theorem History.posted (history : History settings grants ledger) (fits : ledger.heap.Addressable) :
    Posted grants ledger := by
  induction history with
  | start => exact .start settings
  | @post grants ledger later earlier posts ih =>
    have fits' := fits.mono posts.idle.step.grows
    have reached := earlier.reached
    exact (ih fits').post posts (Run.sound reached (.start settings) fits') (reached.balanced fits')
      ((earlier.post posts).reached.balanced fits)
  | @collect grants ledger earlier idle roots ih =>
    have step : Step (· = []) ledger (ledger.collect roots) := .collect idle roots
    have fits' := fits.mono step.grows
    have reached := earlier.reached
    exact (ih fits').collect idle (Run.sound reached (.start settings) fits') roots (reached.balanced fits')
      ((earlier.collect idle roots).reached.balanced fits)

theorem Posts.granted_le (posts : Posts within ledger later) : ledger.granted.length ≤ later.granted.length := by
  cases posts with
  | fillGroup =>
    simp only [List.length_append]
    omega
  | _ => exact Nat.le_refl _

theorem History.increasing (history : History settings grants ledger) :
    (grants ++ [ledger.granted.length]).Pairwise (· ≤ ·) := by
  induction history with
  | start => exact List.pairwise_singleton _ _
  | post _ posts ih =>
    rw [List.pairwise_append] at ih ⊢
    refine ⟨ih.1, List.pairwise_singleton _ _, fun earlier member last here => ?_⟩
    cases List.mem_singleton.mp here
    exact Nat.le_trans (ih.2.2 earlier member _ (List.mem_singleton_self _)) posts.granted_le
  | @collect grants ledger earlier idle roots ih =>
    refine List.pairwise_append.mpr ⟨ih, List.pairwise_singleton _ _, fun before member last here => ?_⟩
    cases List.mem_singleton.mp here
    rcases List.mem_append.mp member with member | member
    · exact (List.pairwise_append.mp ih).2.2 before member _ (List.mem_singleton_self _)
    · cases List.mem_singleton.mp member
      exact Nat.le_refl _

/-- What the counters and the telemetry say of each other and of the history. -/
structure Conserved (grants : List Nat) (ledger : Ledger) : Prop where
  total : ledger.heap.total.toNat = ledger.granted.length
  allocated : ledger.heap.total.toNat = ledger.heap.telemetry.allocated.total
  live : ledger.heap.total.toNat = ledger.heap.live.toNat + ledger.heap.telemetry.collected
  survived : ledger.heap.telemetry.survived.total = ledger.heap.telemetry.spared
  collections : ledger.heap.collections = ledger.heap.telemetry.cycles.size
  cycle : ∀ (position : Nat) (cycle : Cycle), ledger.heap.telemetry.cycles[position]? = some cycle →
    cycle.number = position ∧ cycle.liveBefore = cycle.liveAfter + cycle.collected
  first : ∀ cycle : Cycle, ledger.heap.telemetry.cycles[0]? = some cycle → grants[0]? = some cycle.liveBefore
  next : ∀ (position : Nat) (previous cycle : Cycle), ledger.heap.telemetry.cycles[position]? = some previous →
    ledger.heap.telemetry.cycles[position + 1]? = some cycle →
    ∃ earlier between, grants[position]? = some earlier ∧ grants[position + 1]? = some (earlier + between) ∧
      cycle.liveBefore = previous.liveAfter + between

theorem History.conserved (history : History settings grants ledger) (fits : ledger.heap.Addressable)
    (idle : ledger.groups = []) (below : ledger.heap.telemetry.allocated.total < UInt64.size) :
    Conserved grants ledger := by
  have posted := history.posted fits
  have counted : ledger.counted = ledger.granted.length := by simp [Ledger.counted, reserved, idle]
  have total : ledger.heap.total.toNat = ledger.granted.length := by
    rw [posted.total, counted, UInt64.toNat_ofNat_of_lt' (posted.allocated ▸ below)]
  refine ⟨total, total.trans posted.allocated.symm, ?_, posted.survived, posted.collections, ?_, ?_, ?_⟩
  · rw [posted.live, counted, total]
  · intro position cycle found
    rw [← Array.getElem?_toList] at found
    have recorded := posted.cycles position cycle found
    exact ⟨recorded.number, recorded.parts⟩
  · intro cycle found
    rw [← Array.getElem?_toList] at found
    exact (posted.cycles 0 cycle found).granted
  · intro position previous cycle here there
    rw [← Array.getElem?_toList] at here there
    have before := posted.cycles position previous here
    have after := posted.cycles (position + 1) cycle there
    have sum : ((ledger.heap.telemetry.cycles.toList.take (position + 1)).map Cycle.collected).sum =
        ((ledger.heap.telemetry.cycles.toList.take position).map Cycle.collected).sum + previous.collected := by
      rw [List.take_add_one, here]
      simp
    have parts := before.parts
    obtain ⟨below, same⟩ := List.getElem?_eq_some_iff.mp before.granted
    obtain ⟨below', same'⟩ := List.getElem?_eq_some_iff.mp after.granted
    have grows := List.pairwise_iff_getElem.mp (List.pairwise_append.mp history.increasing).1 position (position + 1)
      below below' (Nat.lt_succ_self _)
    rw [same, same'] at grows
    refine ⟨_, cycle.liveBefore - previous.liveAfter, before.granted, after.granted.trans (congrArg some ?_), ?_⟩
    all_goals omega

/-- Take any state of a heap that began empty and was only collected while no group was being
built. Outside the builders of groups its counters and its telemetry agree with each other and
with the allocations that succeeded, over its whole history. And the states are all there are:
an allocation of a node or of a group, whatever the builder does and returns, and a call,
whatever the functions of its host do, lead from one of them to another, as does a collection. -/
theorem telemetry_conserved (history : History settings grants ledger) :
    (ledger.heap.Addressable → ledger.groups = [] → ledger.heap.telemetry.allocated.total < UInt64.size →
      Conserved grants ledger) ∧
    (∀ node, ∃ later more, History settings (grants ++ more) later ∧ later.groups = ledger.groups ∧
      later.heap = (Heap.alloc node ledger.heap).state) ∧
    (∀ (count : UInt64) (build : List Handle → Heap → List Node × Heap),
      (∀ handles heap,
        Heap.Leads (Posts (· = [])) (⟨count, handles⟩ :: ledger.groups) heap (build handles heap).2) →
      ∃ later more, History settings (grants ++ more) later ∧ later.groups = ledger.groups ∧
        later.heap = (Heap.allocGroup count build ledger.heap).state) ∧
    (∀ {σ : Type} (host : Host σ) (evaluator : Evaluator) (fuel : Nat) (root : Handle) (state after : State σ)
      (result : Except Fault Handle), host.KeepsTo (Heap.Leads (Posts (· = [])) ledger.groups) →
      state.world.heap = ledger.heap → Machine.force host evaluator fuel root state = some (result, after) →
      ∃ later more, History settings (grants ++ more) later ∧ later.groups = ledger.groups ∧
        later.heap = after.world.heap) ∧
    (ledger.groups = [] → ∀ roots, History settings (grants ++ [ledger.granted.length]) (ledger.collect roots)) := by
  have onward : ∀ {heap : Heap}, Heap.Leads (Posts (· = [])) ledger.groups ledger.heap heap →
      ∃ later more, History settings (grants ++ more) later ∧ later.groups = ledger.groups ∧ later.heap = heap := by
    intro heap leads
    obtain ⟨later, run, same, under⟩ := leads ledger rfl rfl
    obtain ⟨more, history⟩ := history.onward run
    exact ⟨later, more, history, under, same⟩
  refine ⟨history.conserved, ?_, ?_, ?_, fun idle roots => history.collect idle roots⟩
  · exact fun node => onward (Heap.Leads.alloc node ledger.heap)
  · exact fun count build inside => onward (Heap.Leads.allocGroup count inside ledger.heap)
  · intro σ host evaluator fuel root state after result keeps same ended
    exact onward (same ▸ Machine.force_upheld keeps ended)

/-! ### Two collections -/

-- A node, and a group of two that is given up; a collection; two more nodes, of which the
-- next collection frees one.
def nodeOpened : Ledger :=
  { start {} with
    heap := (Heap.openGroup 1 (start {}).heap).state
    groups := [⟨1, [⟨0, 0⟩]⟩]
    issued := [⟨0, 0⟩] }

def nodeFilled : Ledger :=
  { nodeOpened with
    heap := (Heap.closeGroup 1 [⟨0, 0⟩] [.int 7] nodeOpened.heap).state
    groups := []
    granted := [⟨0, 0⟩] }

def pairOpened : Ledger :=
  { nodeFilled with
    heap := (Heap.openGroup 2 nodeFilled.heap).state
    groups := [⟨2, [⟨1, 0⟩, ⟨2, 0⟩]⟩]
    issued := [⟨1, 0⟩, ⟨2, 0⟩, ⟨0, 0⟩] }

def pairDropped : Ledger :=
  { pairOpened with
    heap := (Heap.closeGroup 2 [⟨1, 0⟩, ⟨2, 0⟩] [] pairOpened.heap).state
    groups := []
    recycled := [1, 2] }

def nodeSwept : Ledger := pairDropped.collect []

def twoOpened : Ledger :=
  { nodeSwept with
    heap := (Heap.openGroup 2 nodeSwept.heap).state
    groups := [⟨2, [⟨0, 1⟩, ⟨2, 1⟩]⟩]
    issued := [⟨0, 1⟩, ⟨2, 1⟩] ++ nodeSwept.issued }

def twoFilled : Ledger :=
  { twoOpened with
    heap := (Heap.closeGroup 2 [⟨0, 1⟩, ⟨2, 1⟩] [.int 8, .int 9] twoOpened.heap).state
    groups := []
    granted := [⟨0, 1⟩, ⟨2, 1⟩] ++ nodeSwept.granted }

theorem pairDropped_unmarked :
    pairDropped.heap.trace (pairDropped.heap.roots.map Prod.fst ++ []) = (.ofEntries pairDropped.heap.entries, 0) :=
  pairDropped.heap.trace_nil

theorem twoFilled_history : History {} [1] twoFilled := by
  have first : History {} [] nodeOpened := History.start.post (@Posts.openGroup _ _ 1 [⟨0, 0⟩] _ rfl)
  have second : History {} [] nodeFilled := first.post (@Posts.fillGroup _ _ ⟨1, [⟨0, 0⟩]⟩ _ [.int 7] _ rfl rfl)
  have third : History {} [] pairOpened := second.post (@Posts.openGroup _ _ 2 [⟨1, 0⟩, ⟨2, 0⟩] _ rfl)
  have fourth : History {} [] pairDropped :=
    third.post (@Posts.dropGroup _ _ ⟨2, [⟨1, 0⟩, ⟨2, 0⟩]⟩ _ [] (.malformed (.groupSize 0 2)) _ rfl rfl)
  have fifth : History {} [1] nodeSwept := fourth.collect rfl []
  have opened : Heap.openGroup 2 nodeSwept.heap = .ok [⟨0, 1⟩, ⟨2, 1⟩] twoOpened.heap := by
    simp only [twoOpened, nodeSwept, Ledger.collect, Heap.collect, pairDropped_unmarked]
    with_unfolding_all rfl
  have sixth : History {} [1] twoOpened := fifth.post (.openGroup opened)
  have filled : Heap.closeGroup 2 [⟨0, 1⟩, ⟨2, 1⟩] [.int 8, .int 9] twoOpened.heap = .ok () twoFilled.heap := by
    simp only [twoFilled, twoOpened, nodeSwept, Ledger.collect, Heap.collect, pairDropped_unmarked]
    with_unfolding_all rfl
  exact sixth.post (@Posts.fillGroup _ _ ⟨2, [⟨0, 1⟩, ⟨2, 1⟩]⟩ _ [.int 8, .int 9] _ rfl filled)

theorem twoFilled_marked :
    twoFilled.heap.trace (twoFilled.heap.roots.map Prod.fst ++ [⟨2, 1⟩]) =
      ((Arena.ofEntries twoFilled.heap.entries).mark 2, 1) := by
  have live : twoFilled.heap.int? ⟨2, 1⟩ = some 9 ∧ twoFilled.heap.roots = [] := by
    simp only [twoFilled, twoOpened, nodeSwept, Ledger.collect, Heap.collect, pairDropped_unmarked]
    decide +kernel
  rw [live.2]
  exact Heap.trace_leaf (Heap.int?_eq_some.mp live.1) rfl

theorem telemetry_conserved_twice :
    History {} [1, 3] (twoFilled.collect [⟨2, 1⟩]) ∧ Conserved [1, 3] (twoFilled.collect [⟨2, 1⟩]) ∧
      (twoFilled.collect [⟨2, 1⟩]).heap.total = 3 ∧ (twoFilled.collect [⟨2, 1⟩]).heap.live = 1 ∧
      (twoFilled.collect [⟨2, 1⟩]).heap.telemetry.cycles.toList.map Cycle.liveBefore = [1, 2] := by
  have history : History {} [1, 3] (twoFilled.collect [⟨2, 1⟩]) := twoFilled_history.collect rfl [⟨2, 1⟩]
  have written : (twoFilled.collect [⟨2, 1⟩]).heap.capacity = 3 ∧
      (twoFilled.collect [⟨2, 1⟩]).heap.telemetry.allocated.total = 3 ∧
      (twoFilled.collect [⟨2, 1⟩]).heap.total = 3 ∧ (twoFilled.collect [⟨2, 1⟩]).heap.live = 1 ∧
      (twoFilled.collect [⟨2, 1⟩]).heap.telemetry.cycles.toList.map Cycle.liveBefore = [1, 2] := by
    rw [Ledger.collect, Heap.collect, twoFilled_marked]
    simp only [twoFilled, twoOpened, nodeSwept, Ledger.collect, Heap.collect, pairDropped_unmarked]
    decide +kernel
  obtain ⟨capacity, allocated, written⟩ := written
  have fits : (twoFilled.collect [⟨2, 1⟩]).heap.Addressable := by
    rw [Heap.Addressable, capacity]
    decide
  have below : (twoFilled.collect [⟨2, 1⟩]).heap.telemetry.allocated.total < UInt64.size := by
    rw [allocated]
    decide
  exact ⟨history, (telemetry_conserved history).1 fits rfl below, written⟩

theorem History.alloc (history : History settings grants ledger) (node : Node) :
    ∃ later more, History settings (grants ++ more) later ∧ later.groups = ledger.groups ∧
      later.heap = (Heap.alloc node ledger.heap).state := by
  have leads : Heap.Leads (Posts (· = [])) ledger.groups ledger.heap (Heap.alloc node ledger.heap).state :=
    .alloc node ledger.heap
  obtain ⟨later, run, same, under⟩ := leads ledger rfl rfl
  obtain ⟨more, history⟩ := history.onward run
  exact ⟨later, more, history, under, same⟩

/-- With a slot for each word, one more node is counted and takes the place of the first one. What a
collection then finds is one node less than were allocated. -/
theorem telemetry_loses_node :
    ∃ (grants : List Nat) (ledger : Ledger), History {} grants ledger ∧ ledger.groups = [] ∧
      ledger.heap.telemetry.allocated.total = UInt32.size + 1 ∧
      ledger.heap.live.toNat + ledger.heap.telemetry.collected ≤ UInt32.size ∧ ¬ Conserved grants ledger := by
  obtain ⟨_, brims, ⟨grants, ledger, history, idle, rfl⟩, cycles, allocated⟩ := @Heap.exists_brims
    (fun heap => (∃ grants ledger, History {} grants ledger ∧ ledger.groups = [] ∧ ledger.heap = heap) ∧
      heap.telemetry.cycles = #[] ∧ heap.telemetry.allocated.total = heap.capacity)
    [] ⟨⟨[], start {}, .start, rfl, rfl⟩, rfl, rfl⟩ fun node heap grown held => by
      obtain ⟨⟨grants, ledger, history, idle, rfl⟩, cycles, allocated⟩ := held
      obtain ⟨later, more, history', under, same⟩ := history.alloc node
      refine ⟨⟨_, later, history', under.trans idle, same⟩, ?_⟩
      rcases Heap.alloc_cases node ledger.heap with ⟨handle, after, ended, _⟩ | ⟨limit, refused⟩
      · obtain ⟨cycles', allocated'⟩ := Heap.books_alloc ended
        rw [ended] at grown ⊢
        exact ⟨cycles'.trans cycles, allocated'.trans ((congrArg (· + 1) allocated).trans grown.symm)⟩
      · rw [refused]
        exact ⟨cycles, allocated⟩
  obtain ⟨after, ended, few, _⟩ := brims.full.alloc (brims.lookup 0) (.int 7)
  obtain ⟨later, more, history', under, same⟩ := history.alloc (.int 7)
  rw [ended] at same
  replace same : later.heap = after := same
  obtain ⟨cycles', allocated'⟩ := Heap.books_alloc ended
  have swept : (later.collect []).heap.telemetry.allocated = later.heap.telemetry.allocated :=
    (later.heap.books_collect []).2.2.1
  have total : (later.collect []).heap.telemetry.allocated.total = UInt32.size + 1 := by
    rw [swept, same, allocated', allocated, brims.capacity]
  have none : later.heap.telemetry.cycles = #[] := same ▸ cycles'.trans cycles
  have sum : (later.collect []).heap.live.toNat + (later.collect []).heap.telemetry.collected ≤ UInt32.size :=
    Nat.le_trans (Heap.live_first_collect none []) (same ▸ few)
  refine ⟨_, later.collect [], history'.collect (under.trans idle) [], under.trans idle, total, sum, fun conserved => ?_⟩
  have counts := conserved.allocated.symm.trans conserved.live
  omega

end Ledger

end LazyGraph

import LazyGraph.Proofs.Heap.Wraparound
import LazyGraph.Proofs.Ledger.Issue
import LazyGraph.Proofs.Ledger.NodeLimit

/-! Groups that are given up.

While a group is being built, its builder may allocate nodes and build groups of its own. If it
returns the wrong number of nodes, what it allocated stays, and of its own group nothing does:
the counters and the telemetry are those of its allocations alone, and the handles it was given
never come to name a node. -/

set_option autoImplicit false

namespace LazyGraph

namespace Heap

variable {heap after : Heap} {count : UInt64} {handles : List Handle}

/-- The heap without its slots and its counter of live nodes, and with so many more nodes counted. -/
def counting (heap : Heap) (more : Nat) : Heap :=
  { heap with
    entries := #[]
    free := []
    live := 0
    recent := heap.recent + .ofNat more
    total := heap.total + .ofNat more }

def recording (heap : Heap) (nodes : List Node) : Heap :=
  { heap with telemetry := (nodes.map Node.tag).foldl Telemetry.recordAllocation heap.telemetry }

theorem counting_counting (heap : Heap) (more further : Nat) :
    (heap.counting more).counting further = heap.counting (more + further) := by
  simp only [counting, UInt64.ofNat_add, UInt64.add_assoc]

theorem counting_recording (heap : Heap) (nodes : List Node) (more : Nat) :
    (heap.recording nodes).counting more = (heap.counting more).recording nodes := rfl

theorem recording_recording (heap : Heap) (early late : List Node) :
    (heap.recording early).recording late = heap.recording (early ++ late) := by
  simp only [recording, List.map_append, List.foldl_append]

theorem counting_cancel {left right : Heap} {more further : Nat} {nodes : List Node} (shared : Nat)
    (same : left.counting (more + shared) = (right.counting (further + shared)).recording nodes) :
    left.counting more = (right.counting further).recording nodes := by
  rw [← counting_counting, ← counting_counting] at same
  simp only [counting, recording, Heap.mk.injEq, UInt64.add_left_inj] at same ⊢
  exact same

theorem counting_takeSlots (taken : Nat) (reversed : List Handle) (heap : Heap) (more : Nat) :
    (takeSlots taken reversed heap).2.counting more = heap.counting more := by
  induction taken generalizing reversed heap with
  | zero => rfl
  | succ taken ih =>
    have first : heap.takeSlot.2.counting more = heap.counting more := by
      unfold takeSlot
      split <;> rfl
    exact (ih _ heap.takeSlot.2).trans first

theorem counting_openGroup (opened : openGroup count heap = .ok handles after) (more : Nat) :
    after.counting more = heap.counting (count.toNat + more) := by
  obtain ⟨counted, reserved, rfl⟩ := openGroup_reserves opened
  rw [counting_takeSlots]
  unfold reserve at reserved
  split at reserved
  · split at reserved <;> cases reserved
    simp [counting, UInt64.add_assoc]
  · cases reserved
    simp [counting, UInt64.add_assoc]

theorem counting_fillAll (pairs : List (Handle × Node)) (heap : Heap) (more : Nat) :
    (pairs.foldl (fun heap (handle, node) => heap.fill handle node) heap).counting more =
      (heap.counting more).recording (pairs.map Prod.snd) := by
  induction pairs generalizing heap with
  | nil => rfl
  | cons pair pairs ih => exact ih _

theorem counting_abandonAll (handles : List Handle) (heap : Heap) (more : Nat) :
    (handles.foldl abandon heap).counting more = heap.counting more := by
  induction handles generalizing heap with
  | nil => rfl
  | cons handle handles ih => exact ih _

theorem counting_unreserve (heap : Heap) (count : UInt64) :
    (heap.unreserve count).counting count.toNat = heap.counting 0 := by
  simp [counting, unreserve]

theorem reserve_fits (fits : ∀ limit, heap.maxNodes = some limit → heap.live.toNat + count.toNat ≤ limit.toNat) :
    ∃ counted, reserve count heap = .ok () counted := by
  cases limited : heap.maxNodes with
  | none =>
    simp only [reserve, limited]
    exact ⟨_, rfl⟩
  | some limit =>
    have fits := fits limit limited
    exact reserve_admits limited (Nat.le_of_add_right_le fits) (.inl fits)

theorem alloc_counts {node : Node} {handle : Handle} (allocated : alloc node heap = .ok handle after) (more : Nat) :
    after.live = heap.live + 1 ∧ after.counting more = (heap.counting (1 + more)).recording [node] := by
  obtain ⟨opened, opens, fills⟩ := alloc_eq_group allocated
  obtain ⟨_, rfl⟩ := closeGroup_eq_ok fills
  rw [live_fillAll, counting_fillAll, counting_openGroup opens]
  obtain ⟨counted, _, _, live, taken⟩ := openGroup_eq_ok opens
  have same := live_takeSlots (UInt64.toNat 1) [] counted
  rw [taken] at same
  exact ⟨same.trans live, rfl⟩

theorem closeGroup_refuses {nodes : List Node} (wrong : nodes.length ≠ count.toNat) (handles : List Handle) (heap : Heap) :
    closeGroup count handles nodes heap =
      .error (.malformed (.groupSize nodes.length count)) ((handles.foldl abandon heap).unreserve count) :=
  if_neg wrong

theorem allocGroup_refuses {build : List Handle → Heap → List Node × Heap} {opened : Heap} (positive : count ≠ 0)
    (opens : openGroup count heap = .ok handles opened) (wrong : (build handles opened).1.length ≠ count.toNat) :
    allocGroup count build heap = .error (.malformed (.groupSize (build handles opened).1.length count))
      ((handles.foldl abandon (build handles opened).2).unreserve count) := by
  have built : (modifyGet (build handles) : HeapM (List Node)) opened =
      .ok (build handles opened).1 (build handles opened).2 := rfl
  rw [allocGroup, if_neg positive, bind_ok opens, bind_ok built, bind_error (closeGroup_refuses wrong _ _)]

/-- Nodes that are allocated one after the other, within the limit. -/
theorem mapM_alloc (nodes : List Node) (heap : Heap)
    (fits : ∀ limit, heap.maxNodes = some limit → heap.live.toNat + nodes.length ≤ limit.toNat) :
    ∃ names alone, nodes.mapM alloc heap = .ok names alone ∧ alone.live = heap.live + .ofNat nodes.length ∧
      alone.counting 0 = (heap.counting nodes.length).recording nodes := by
  induction nodes generalizing heap with
  | nil => exact ⟨[], heap, rfl, (UInt64.add_zero _).symm, rfl⟩
  | cons node nodes ih =>
    simp only [List.length_cons] at fits
    obtain ⟨counted, granted⟩ : ∃ counted, reserve 1 heap = .ok () counted :=
      reserve_fits fun limit limited => Nat.le_trans (by simp) (fits limit limited)
    obtain ⟨handle, next, allocated⟩ : ∃ handle next, alloc node heap = .ok handle next := ⟨_, _, bind_ok granted⟩
    obtain ⟨live, counts⟩ := alloc_counts allocated nodes.length
    have fits' : ∀ limit, next.maxNodes = some limit → next.live.toNat + nodes.length ≤ limit.toNat := by
      intro limit limited
      have same : next.maxNodes = heap.maxNodes := (congrArg Heap.maxNodes counts :)
      have fits := fits limit (same.symm.trans limited)
      rw [live, UInt64.toNat_add]
      have wrapped := Nat.mod_le (heap.live.toNat + UInt64.toNat 1) (2 ^ 64)
      simp only [UInt64.toNat_one] at wrapped ⊢
      omega
    obtain ⟨names, alone, allocates, live', same⟩ := ih next fits'
    refine ⟨handle :: names, alone, ?_, ?_, ?_⟩
    · rw [List.mapM_cons, bind_ok allocated, bind_ok allocates]
      rfl
    · rw [live', live, UInt64.add_assoc, List.length_cons, Nat.add_comm, UInt64.ofNat_add]
      rfl
    · rw [same, counts, recording_recording, List.length_cons, Nat.add_comm]
      rfl

end Heap

/-- Whatever is asked of the handle is refused as malformed. -/
def Heap.Unreadable (heap : Heap) (handle : Handle) : Prop :=
  heap.contains handle = false ∧ heap.Rejects handle

theorem Heap.unreadable_dead {heap : Heap} {handle : Handle} (dead : ¬ heap.Live handle) : heap.Unreadable handle := by
  refine ⟨?_, rejects_dead dead⟩
  rw [← Bool.not_eq_true, contains_iff_live]
  exact dead

namespace Ledger

variable {ledger middle later : Ledger} {outer : List Group} {early brought : List (Handle × Node)}

/-! ### Builders -/

/-- The builder of a group has been given its handles. -/
def entered (ledger : Ledger) (count : UInt64) (handles : List Handle) (opened : Heap) : Ledger :=
  { ledger with
    heap := opened
    groups := ⟨count, handles⟩ :: ledger.groups
    issued := handles ++ ledger.issued }

/-- One step of a builder: it opens a group inside of its own, or closes one. The nodes are
those that it brings to life. -/
inductive Brings (outer : List Group) : Ledger → List (Handle × Node) → Ledger → Prop where
  | openGroup {ledger : Ledger} {count : UInt64} {handles : List Handle} {after : Heap}
      (opened : Heap.openGroup count ledger.heap = .ok handles after) :
      Brings outer ledger [] (ledger.entered count handles after)
  | fillGroup {ledger : Ledger} {group : Group} {rest : List Group} {nodes : List Node} {after : Heap}
      (innermost : ledger.groups = group :: rest) (inside : outer <:+ rest)
      (filled : Heap.closeGroup group.count group.handles nodes ledger.heap = .ok () after) :
      Brings outer ledger (group.handles.zip nodes) { ledger with
        heap := after
        groups := rest
        granted := group.handles ++ ledger.granted }
  | dropGroup {ledger : Ledger} {group : Group} {rest : List Group} {nodes : List Node} {fault : Fault} {after : Heap}
      (innermost : ledger.groups = group :: rest) (inside : outer <:+ rest)
      (refused : Heap.closeGroup group.count group.handles nodes ledger.heap = .error fault after) :
      Brings outer ledger [] { ledger with
        heap := after
        groups := rest
        recycled := Heap.places group.handles ++ ledger.recycled }

/-- What a builder does, with all that it brings to life; `outer` are its own group and those
around it. -/
inductive Builds (outer : List Group) (ledger : Ledger) : List (Handle × Node) → Ledger → Prop where
  | nothing : Builds outer ledger [] ledger
  | next {early late : List (Handle × Node)} {middle later : Ledger} (earlier : Builds outer ledger early middle)
      (brings : Brings outer middle late later) : Builds outer ledger (early ++ late) later

theorem Builds.alloc {node : Node} {handle : Handle} {after : Heap} (earlier : Builds outer ledger early middle)
    (inside : outer <:+ middle.groups) (allocated : Heap.alloc node middle.heap = .ok handle after) :
    Builds outer ledger (early ++ [(handle, node)]) { middle with
      heap := after
      issued := handle :: middle.issued
      granted := handle :: middle.granted } := by
  obtain ⟨opened, opens, fills⟩ := Heap.alloc_eq_group allocated
  have taken : Builds outer ledger early (middle.entered 1 [handle] opened) :=
    List.append_nil early ▸ earlier.next (.openGroup opens)
  exact taken.next (@Brings.fillGroup outer (middle.entered 1 [handle] opened) ⟨1, [handle]⟩ middle.groups [node] _ rfl
    inside fills)

theorem Brings.step (brings : Brings outer ledger brought later) : Step (· = []) ledger later := by
  cases brings with
  | openGroup opened => exact .openGroup opened
  | fillGroup innermost _ filled => exact .fillGroup innermost filled
  | dropGroup innermost _ refused => exact .dropGroup innermost refused

theorem Brings.inside (brings : Brings outer ledger brought later) (inside : outer <:+ ledger.groups) :
    outer <:+ later.groups := by
  cases brings with
  | openGroup _ => exact inside.trans (List.suffix_cons _ _)
  | fillGroup _ inside _ => exact inside
  | dropGroup _ inside _ => exact inside

theorem Builds.run (builds : Builds outer ledger brought later) : Run (· = []) ledger later := by
  induction builds with
  | nothing => exact .refl
  | next _ brings ih => exact ih.tail brings.step

theorem Builds.inside (builds : Builds outer ledger brought later) (inside : outer <:+ ledger.groups) :
    outer <:+ later.groups := by
  induction builds with
  | nothing => exact inside
  | next _ brings ih => exact brings.inside ih

/-! ### What is counted -/

/-- These nodes have come to life, and beside them nothing is counted but what is reserved. -/
structure Charges (before after : Ledger) (brought : List (Handle × Node)) : Prop where
  gains : Heap.Gains before.heap after.heap brought
  live : after.heap.live.toNat + before.reserved.length =
    before.heap.live.toNat + brought.length + after.reserved.length
  counts : after.heap.counting before.reserved.length =
    (before.heap.counting (brought.length + after.reserved.length)).recording (brought.map Prod.snd)

theorem Charges.refl (ledger : Ledger) : Charges ledger ledger [] :=
  ⟨.of_same fun _ _ => Iff.rfl, rfl, by simp [Heap.recording]⟩

theorem Charges.trans {late : List (Handle × Node)} (first : Charges ledger middle early)
    (second : Charges middle later late) : Charges ledger later (early ++ late) where
  gains := first.gains.trans second.gains
  live := by
    have live := first.live
    have live' := second.live
    rw [List.length_append]
    omega
  counts := by
    rw [List.length_append, List.map_append]
    refine Heap.counting_cancel middle.reserved.length ?_
    calc later.heap.counting (ledger.reserved.length + middle.reserved.length)
        = ((middle.heap.counting (late.length + later.reserved.length)).recording (late.map Prod.snd)).counting
            ledger.reserved.length := by rw [Nat.add_comm, ← Heap.counting_counting, second.counts]
      _ = ((middle.heap.counting ledger.reserved.length).counting (late.length + later.reserved.length)).recording
            (late.map Prod.snd) := by
          rw [Heap.counting_recording, Heap.counting_counting, Heap.counting_counting, Nat.add_comm]
      _ = _ := by
          rw [first.counts, Heap.counting_recording, Heap.counting_counting, Heap.recording_recording]
          congr 2
          omega

theorem Charges.openGroup {count : UInt64} {handles : List Handle} {after : Heap} (sound : ledger.Sound)
    (balanced : ledger.Balanced) (opened : Heap.openGroup count ledger.heap = .ok handles after)
    (fits : after.Addressable) : Charges ledger (ledger.entered count handles after) [] := by
  have balanced' : after.live.toNat + after.free.length = after.capacity :=
    balanced_openGroup opened fits balanced
  rcases Heap.openGroup_cases count ledger.heap with ⟨_, _, opened', length, enlarges⟩ | ⟨_, refused⟩
  · cases opened.symm.trans opened'
    obtain ⟨_, _, gains⟩ := enlarges.gains fits sound.parted.free (.nil _)
    have reserved : (ledger.entered count handles after).reserved.length = count.toNat + ledger.reserved.length := by
      simp [reserved, entered, length]
    refine ⟨gains, ?_, ?_⟩
    · obtain ⟨counted, entries, free, _, taken⟩ := Heap.openGroup_eq_ok opened
      have shared := Heap.capacity_takeSlots_free count.toNat [] counted
      have same : counted.capacity = ledger.heap.capacity := congrArg Array.size entries
      unfold Balanced at balanced
      rw [taken, free, same] at shared
      rw [reserved]
      simp only [entered, List.length_nil] at shared ⊢
      omega
    · rw [reserved, List.length_nil, Nat.zero_add]
      exact Heap.counting_openGroup opened _
  · cases opened.symm.trans refused

theorem Brings.charges (brings : Brings outer ledger brought later) (sound : ledger.Sound) (balanced : ledger.Balanced)
    (fits : later.heap.Addressable) : Charges ledger later brought := by
  have balanced' : later.Balanced := brings.step.balanced sound fits balanced
  cases brings with
  | openGroup opened => exact .openGroup sound balanced opened fits
  | @fillGroup group rest nodes after innermost _ filled =>
    have parted := sound.parted
    rw [reserved_cons innermost] at parted
    have sized := sound.sized group (by simp [innermost])
    obtain ⟨exactly, rfl⟩ := Heap.closeGroup_eq_ok filled
    have lengths : group.handles.length = nodes.length := sized.trans exactly.symm
    obtain ⟨_, gains, _⟩ := Heap.fillAll_gains parted.free parted.reserved lengths
    refine ⟨gains, ?_, ?_⟩
    · simp only [Heap.live_fillAll, reserved_cons innermost, List.length_append, List.length_zip, lengths]
      simp only [reserved]
      omega
    · rw [Heap.counting_fillAll, reserved_cons innermost, List.length_append, List.length_zip, lengths, Nat.min_self]
      rfl
  | @dropGroup group rest nodes fault after innermost _ refused =>
    have parted := sound.parted
    rw [reserved_cons innermost] at parted
    have sized := sound.sized group (by simp [innermost])
    cases Heap.closeGroup_eq_error refused
    obtain ⟨_, _, same⟩ := Heap.abandonAll_apart parted.free parted.reserved
    refine ⟨.of_same same, ?_, ?_⟩
    · have free := congrArg List.length (Heap.free_abandonAll group.handles ledger.heap)
      have capacity := Heap.capacity_abandonAll group.handles ledger.heap
      simp only [Balanced, Heap.unreserve] at balanced balanced'
      simp only [List.length_append, List.length_reverse, List.length_map] at free
      simp only [reserved_cons innermost, List.length_append, List.length_nil]
      simp only [reserved, Heap.unreserve, Heap.capacity] at *
      omega
    · rw [reserved_cons innermost, List.length_append, sized, List.length_nil, Nat.zero_add, ← Heap.counting_counting,
        Heap.counting_unreserve, Heap.counting_counting, Nat.zero_add, Heap.counting_abandonAll]
      rfl

theorem Builds.charges (builds : Builds outer ledger brought later) (sound : ledger.Sound) (balanced : ledger.Balanced)
    (fits : later.heap.Addressable) : Charges ledger later brought := by
  induction builds with
  | nothing => exact .refl ledger
  | @next _ _ middle later earlier brings ih =>
    have fits' := fits.mono brings.step.grows
    have sound' : middle.Sound := Run.sound earlier.run sound fits'
    have balanced' : middle.Balanced := Run.balanced earlier.run sound balanced fits'
    exact (ih fits').trans (brings.charges sound' balanced' fits)

/-! ### Giving up -/

/-- The builder of the innermost group has returned the wrong number of nodes. -/
def dropped (ledger : Ledger) (handles : List Handle) (rest : List Group) (after : Heap) : Ledger :=
  { ledger with
    heap := after
    groups := rest
    recycled := Heap.places handles ++ ledger.recycled }

theorem Builds.within_limit {limit : UInt64} (builds : Builds outer ledger brought later) (sound : ledger.Sound)
    (balanced : ledger.Balanced) (fits : later.heap.Addressable) (limited : ledger.heap.maxNodes = some limit)
    (below : ledger.heap.live.toNat ≤ limit.toNat) : later.heap.live.toNat ≤ limit.toNat := by
  induction builds with
  | nothing => exact below
  | @next _ _ middle later earlier brings ih =>
    have fits' := fits.mono brings.step.grows
    have same : middle.heap.maxNodes = ledger.heap.maxNodes :=
      (congrArg Heap.maxNodes (earlier.charges sound balanced fits').counts :)
    have sound' : middle.Sound := Run.sound earlier.run sound fits'
    have balanced' : middle.Balanced := Run.balanced earlier.run sound balanced fits'
    exact brings.step.within_limit (same.trans limited) (ih fits') balanced'
      (brings.step.balanced sound' fits balanced')

theorem Sound.reserved_dead {handle : Handle} (sound : ledger.Sound) (held : handle ∈ ledger.reserved) :
    ¬ ledger.heap.Live handle := by
  rintro ⟨slot, found⟩
  rw [Heap.lookup_eq_ok, sound.parted.reserved.vacant handle held] at found
  simp at found

/-- A slot that went back is past the generation under which it was reserved. -/
theorem Dated.dropped_dead {within : List Group → Prop} {handles : List Handle} {rest : List Group} {after : Heap}
    {handle : Handle} (sound : ledger.Sound) (dated : ledger.Dated) (held : handle ∈ ledger.reserved)
    (member : handle ∈ handles) (run : Run within (ledger.dropped handles rest after) later) (dated' : later.Dated) :
    ¬ later.heap.Live handle := by
  rintro ⟨slot, found⟩
  have reserved : handle.generation.toNat = ledger.turns handle.index.toNat :=
    dated.generation (sound.parted.reserved.vacant handle held)
  have now : handle.generation.toNat = later.turns handle.index.toNat :=
    dated'.generation (Heap.lookup_eq_ok.mp found)
  have once : ledger.turns handle.index.toNat < (ledger.dropped handles rest after).turns handle.index.toNat := by
    have returned : 0 < (Heap.places handles).count handle.index.toNat :=
      List.count_pos_iff.mpr (List.mem_map_of_mem member)
    simp only [turns, dropped, List.count_append]
    omega
  have since : (ledger.dropped handles rest after).turns handle.index.toNat ≤ later.turns handle.index.toNat :=
    run.lasting.1.sublist.count_le _
  omega

/-- Where nothing more is reserved than before, the counters are those of a heap on which the
nodes were allocated one after the other. -/
theorem Charges.alone (charges : Charges ledger later brought) (reserved : later.reserved = ledger.reserved)
    (below : ∀ limit, ledger.heap.maxNodes = some limit → later.heap.live.toNat ≤ limit.toNat) :
    ∃ names alone, (brought.map Prod.snd).mapM Heap.alloc ledger.heap = .ok names alone ∧
      later.heap.live = alone.live ∧ later.heap.recent = alone.recent ∧ later.heap.total = alone.total ∧
      later.heap.telemetry = alone.telemetry ∧ later.heap.shouldCollect = alone.shouldCollect := by
  have live : later.heap.live.toNat = ledger.heap.live.toNat + brought.length :=
    Nat.add_right_cancel (reserved ▸ charges.live)
  have fits : ∀ limit, ledger.heap.maxNodes = some limit →
      ledger.heap.live.toNat + (brought.map Prod.snd).length ≤ limit.toNat := by
    intro limit limited
    rw [List.length_map, ← live]
    exact below limit limited
  obtain ⟨names, alone, allocates, live', counts⟩ := Heap.mapM_alloc _ ledger.heap fits
  have same : later.heap.counting 0 = alone.counting 0 := by
    rw [counts, List.length_map]
    refine Heap.counting_cancel ledger.reserved.length ?_
    rw [Nat.zero_add, charges.counts, reserved]
  simp only [Heap.counting, Heap.mk.injEq, UInt64.add_left_inj] at same
  obtain ⟨-, -, -, -, recent, total, -, threshold, enabled, -, -, -, -, telemetry⟩ := same
  refine ⟨names, alone, allocates, ?_, recent, total, telemetry, ?_⟩
  · rw [live', List.length_map, ← UInt64.toNat_inj, UInt64.toNat_add, UInt64.toNat_ofNat']
    have word := later.heap.live.toNat_lt
    omega
  · rw [Heap.shouldCollect, Heap.shouldCollect, enabled, threshold, recent]

/-- Take any heap that began empty, and a group that is within the node limit. It is opened, and
its builder may then allocate whatever it likes, groups that fail among it. If it returns the
wrong number of nodes, the group is refused: what can be read is what could be read before and
what the builder has allocated; the counters and the telemetry are those of a heap on which
these nodes alone were allocated; and no handle of the group can be read, neither during the
builder, nor after it, nor ever after, before a slot has gone through all generations. -/
theorem dropped_group_leaves_no_trace {settings : HeapSettings} (reached : Reached (· = []) settings ledger)
    {count : UInt64} (positive : count ≠ 0)
    (within : ∀ limit, ledger.heap.maxNodes = some limit → ledger.heap.live.toNat + count.toNat ≤ limit.toNat) :
    ∃ handles opened, Heap.openGroup count ledger.heap = .ok handles opened ∧ handles.length = count.toNat ∧
      ∀ (build : List Handle → Heap → List Node × Heap) (brought : List (Handle × Node)) (built : Ledger),
        Builds (⟨count, handles⟩ :: ledger.groups) (ledger.entered count handles opened) brought built →
        built.groups = ⟨count, handles⟩ :: ledger.groups → built.heap.Addressable →
        (build handles opened).2 = built.heap → (build handles opened).1.length ≠ count.toNat →
        ∃ after, Heap.allocGroup count build ledger.heap =
            .error (.malformed (.groupSize (build handles opened).1.length count)) after ∧
          (∀ handle slot, after.lookup handle = .ok slot ↔
            ledger.heap.lookup handle = .ok slot ∨ ∃ node, (handle, node) ∈ brought ∧ slot = .ofNode node) ∧
          (∃ names alone, (brought.map Prod.snd).mapM Heap.alloc ledger.heap = .ok names alone ∧
            after.live = alone.live ∧ after.recent = alone.recent ∧ after.total = alone.total ∧
            after.telemetry = alone.telemetry ∧ after.shouldCollect = alone.shouldCollect) ∧
          ∀ handle ∈ handles,
            (∀ early late moment,
              Builds (⟨count, handles⟩ :: ledger.groups) (ledger.entered count handles opened) early moment →
              Builds (⟨count, handles⟩ :: ledger.groups) moment late built → moment.heap.Unreadable handle) ∧
            after.Unreadable handle ∧
            ∀ later, Run (fun _ => True) (built.dropped handles ledger.groups after) later →
              later.heap.Addressable → later.Spared → later.heap.Unreadable handle := by
  obtain ⟨counted, granted⟩ := Heap.reserve_fits within
  have opens : Heap.openGroup count ledger.heap =
      .ok (Heap.takeSlots count.toNat [] counted).1 (Heap.takeSlots count.toNat [] counted).2 := bind_ok granted
  have length := Heap.length_takeSlots count.toNat [] counted
  generalize (Heap.takeSlots count.toNat [] counted).1 = handles,
    (Heap.takeSlots count.toNat [] counted).2 = opened at opens length
  refine ⟨handles, opened, opens, by simpa using length, fun build brought built builds under fits same wrong => ?_⟩
  have entering : Step (· = []) ledger (ledger.entered count handles opened) := .openGroup opens
  have enteredFits : opened.Addressable := fits.mono builds.run.grows
  have ledgerFits : ledger.heap.Addressable := enteredFits.mono entering.grows
  have sound : ledger.Sound := Run.sound reached (.start settings) ledgerFits
  have balanced : ledger.Balanced := reached.balanced ledgerFits
  have sound' : (ledger.entered count handles opened).Sound := entering.sound sound enteredFits
  have balanced' : (ledger.entered count handles opened).Balanced := entering.balanced sound enteredFits balanced
  have builtSound : built.Sound := Run.sound builds.run sound' fits
  have builtBalanced : built.Balanced := Run.balanced builds.run sound' balanced' fits
  have closes := Heap.closeGroup_refuses wrong handles built.heap
  have refuses := Heap.allocGroup_refuses positive opens wrong
  rw [same] at refuses
  have capacity : ((handles.foldl Heap.abandon built.heap).unreserve count).capacity = built.heap.capacity :=
    Heap.capacity_abandonAll handles built.heap
  generalize ((handles.foldl Heap.abandon built.heap).unreserve count) = after at closes refuses capacity
  have drops : Brings ledger.groups built [] (built.dropped handles ledger.groups after) :=
    .dropGroup under (List.suffix_refl _) closes
  have droppedFits : after.Addressable := fits.mono (Nat.le_of_eq capacity)
  have charges : Charges ledger (built.dropped handles ledger.groups after) brought := by
    have building := (Charges.openGroup sound balanced opens enteredFits).trans (builds.charges sound' balanced' fits)
    simpa using building.trans (drops.charges builtSound builtBalanced droppedFits)
  have held : ∀ early moment,
      Builds (⟨count, handles⟩ :: ledger.groups) (ledger.entered count handles opened) early moment →
      ∀ handle ∈ handles, handle ∈ moment.reserved := by
    intro early moment builds handle member
    have inside := builds.inside (List.suffix_refl _)
    exact List.mem_flatMap.mpr ⟨_, inside.subset (.head _), member⟩
  refine ⟨after, refuses, fun handle slot => ?_, ?_, fun handle member => ⟨?_, ?_, ?_⟩⟩
  · refine ⟨charges.gains.fresh, ?_⟩
    rintro (found | ⟨node, added, rfl⟩)
    · exact charges.gains.kept found
    · exact charges.gains.filled added
  · refine charges.alone rfl fun limit limited => ?_
    have kept : (ledger.entered count handles opened).heap.maxNodes = some limit :=
      (Heap.maxNodes_openGroup opens).trans limited
    have building := builds.within_limit sound' balanced' fits kept (Heap.openGroup_within limited opens)
    have kept' : built.heap.maxNodes = some limit :=
      (congrArg Heap.maxNodes (builds.charges sound' balanced' fits).counts :).trans kept
    exact drops.step.within_limit kept' building builtBalanced (drops.step.balanced builtSound droppedFits builtBalanced)
  · intro early late moment before rest
    have soundThen : moment.Sound := Run.sound before.run sound' (fits.mono rest.run.grows)
    exact Heap.unreadable_dead (soundThen.reserved_dead (held early moment before handle member))
  · refine Heap.unreadable_dead fun ⟨slot, found⟩ => ?_
    rcases (drops.charges builtSound builtBalanced droppedFits).gains.fresh found with found | ⟨_, none, _⟩
    · exact builtSound.reserved_dead (held brought built builds handle member) ⟨slot, found⟩
    · cases none
  · intro later run laterFits spared
    have droppedSpared : (built.dropped handles ledger.groups after).Spared := fun place =>
      Nat.lt_of_le_of_lt (run.lasting.1.sublist.count_le place) (spared place)
    have builtSpared : built.Spared := fun place =>
      Nat.lt_of_le_of_lt (drops.step.lasting.1.sublist.count_le place) (droppedSpared place)
    have before : Reached (· = []) settings built := (Relation.ReflTransGen.tail reached entering).trans builds.run
    have builtDated : built.Dated := Run.dated before (.start settings) fits builtSpared (.start settings)
    have droppedDated := drops.step.dated builtSound droppedFits droppedSpared builtDated
    have laterDated : later.Dated :=
      run.dated (drops.step.sound builtSound droppedFits) laterFits spared droppedDated
    exact Heap.unreadable_dead (builtDated.dropped_dead builtSound (held brought built builds handle member) member run
      laterDated)

/-! ### A group that is given up, and its slots used again -/

-- The builder of two nodes allocates one, gives up a group of its own, and returns none.
def failingBuilder (handles : List Handle) (heap : Heap) : List Node × Heap :=
  let node := match handles with
    | first :: _ => Node.indirection first
    | [] => .int 0
  ([], (Heap.allocGroup 1 (fun _ heap => ([], heap)) (Heap.alloc node heap).state).state)

theorem builderGivesUp_builds :
    Builds twoReserved.groups twoReserved [(⟨3, 0⟩, .indirection ⟨1, 0⟩)] builderGivesUp := by
  have first : Builds twoReserved.groups twoReserved [(⟨3, 0⟩, .indirection ⟨1, 0⟩)] builderAllocates :=
    Builds.alloc .nothing (List.suffix_refl _) rfl
  have second : Builds twoReserved.groups twoReserved [(⟨3, 0⟩, .indirection ⟨1, 0⟩)] builderNests :=
    first.next (@Brings.openGroup _ builderAllocates 1 [⟨4, 0⟩] _ rfl)
  exact second.next (@Brings.dropGroup _ builderNests ⟨1, [⟨4, 0⟩]⟩ _ [] (.malformed (.groupSize 0 1)) _ rfl
    (List.suffix_refl _) rfl)

theorem dropped_group_slot_reused :
    ∃ after reused, Heap.allocGroup 2 failingBuilder oneNode.heap = .error (.malformed (.groupSize 0 2)) after ∧
      after.lookup ⟨3, 0⟩ = .ok (.ofNode (.indirection ⟨1, 0⟩)) ∧ after.live = 2 ∧ after.total = 2 ∧
      after.Unreadable ⟨2, 0⟩ ∧ Heap.alloc (.int 9) after = .ok ⟨2, 1⟩ reused ∧ reused.Unreadable ⟨2, 0⟩ := by
  have reached : Reached (· = []) {} oneNode := .single (@Step.alloc _ _ (.int 7) ⟨0, 0⟩ _ rfl)
  obtain ⟨handles, opened, opens, _, refuses⟩ := dropped_group_leaves_no_trace reached (by decide : (2 : UInt64) ≠ 0) nofun
  have twoOpened : Heap.openGroup 2 oneNode.heap = .ok [⟨1, 0⟩, ⟨2, 0⟩] twoReserved.heap := rfl
  cases opens.symm.trans twoOpened
  have fits : builderGivesUp.heap.Addressable := by
    rw [Heap.Addressable, (rfl : builderGivesUp.heap.capacity = 5)]
    decide
  obtain ⟨after, refused, reads, ⟨names, alone, allocates, live, _, total, _⟩, unread⟩ :=
    refuses failingBuilder _ builderGivesUp builderGivesUp_builds rfl fits rfl (by decide)
  obtain ⟨_, now, ever⟩ := unread ⟨2, 0⟩ (by simp)
  have ended : Heap.allocGroup 2 failingBuilder oneNode.heap =
      .error (.malformed (.groupSize 0 2)) (Heap.allocGroup 2 failingBuilder oneNode.heap).state := rfl
  have same : after = (Heap.allocGroup 2 failingBuilder oneNode.heap).state := by
    rw [ended] at refused
    cases refused
    rfl
  have oneAlone : [Node.indirection ⟨1, 0⟩].mapM Heap.alloc oneNode.heap =
      .ok [⟨1, 0⟩] (Heap.alloc (.indirection ⟨1, 0⟩) oneNode.heap).state := rfl
  cases allocates.symm.trans oneAlone
  have reallocates : Heap.alloc (.int 9) after = .ok ⟨2, 1⟩ (Heap.alloc (.int 9) after).state := by
    rw [same]
    rfl
  refine ⟨after, _, refused, (reads _ _).mpr (.inr ⟨_, by simp, rfl⟩), live.trans rfl, total.trans rfl, now, reallocates, ?_⟩
  have step : Step (fun _ => True) (builderGivesUp.dropped [⟨1, 0⟩, ⟨2, 0⟩] oneNode.groups after) _ := .alloc reallocates
  refine ever _ (.single step) ?_ fun place => ?_
  · have capacity : (Heap.alloc (.int 9) after).state.capacity = 5 := by
      rw [same]
      rfl
    show (Heap.alloc (.int 9) after).state.capacity ≤ UInt32.size
    rw [capacity]
    decide
  · exact Nat.lt_of_le_of_lt List.count_le_length (by decide : [1, 2, 4].length < UInt32.size)

theorem exists_brimming (front : List Node) :
    ∃ ledger : Ledger, Reached (· = []) {} ledger ∧ ledger.heap.Brims front := by
  obtain ⟨_, brims, ledger, reached, rfl⟩ := @Heap.exists_brims
    (fun heap => ∃ ledger, Reached (· = []) {} ledger ∧ ledger.heap = heap) front ⟨start {}, .refl, rfl⟩ fun node heap _ held => by
      obtain ⟨ledger, reached, rfl⟩ := held
      rcases Heap.alloc_cases node ledger.heap with ⟨handle, after, allocated, _⟩ | ⟨limit, refused⟩
      · rw [allocated]
        exact ⟨_, Relation.ReflTransGen.tail reached (.alloc allocated), rfl⟩
      · rw [refused]
        exact ⟨ledger, reached, rfl⟩
  exact ⟨ledger, reached, brims⟩

/-- With a slot for each word, a group is given the first slot, and the node there goes down with it. -/
theorem dropped_group_takes_node :
    ∃ (ledger : Ledger) (after : Heap), Reached (· = []) {} ledger ∧ ledger.heap.Brims [] ∧
      Heap.allocGroup 1 (fun _ heap => ([], heap)) ledger.heap = .error (.malformed (.groupSize 0 1)) after ∧
      ledger.heap.lookup ⟨0, 0⟩ = .ok ⟨.evaluated, .int 0⟩ ∧ after.lookup ⟨0, 0⟩ = .error (.malformed (.stale ⟨0, 0⟩)) := by
  obtain ⟨ledger, reached, brims⟩ := exists_brimming []
  have first : ledger.heap.lookup ⟨0, 0⟩ = .ok ⟨.evaluated, .int 0⟩ := brims.lookup 0
  obtain ⟨filled, allocated, _, lookup⟩ := brims.full.alloc first (.int 7)
  obtain ⟨opened, opens, closes⟩ := Heap.alloc_eq_group allocated
  obtain ⟨_, same⟩ := Heap.closeGroup_eq_ok closes
  have written := Heap.lookup_eq_ok.mp ((lookup ⟨0, 0⟩).trans (if_pos rfl))
  rw [same] at written
  obtain ⟨entry, present, generation, _⟩ := Heap.entries_fillAll _ opened written
  have refuses := @Heap.allocGroup_refuses ledger.heap 1 [⟨0, 0⟩] (fun _ heap => ([], heap)) opened (by decide) opens nofun
  have renewed : (Heap.unreserve ([⟨0, 0⟩].foldl Heap.abandon opened) 1).entries[0]? = some { entry with generation := 1 } := by
    simp only [Heap.unreserve, Heap.abandon, List.foldl_cons, List.foldl_nil, Array.getElem?_modify]
    rw [show opened.entries[0]? = some entry from present]
    simp [generation]
  refine ⟨ledger, _, reached, brims, refuses, first, ?_⟩
  rw [Heap.lookup, show (⟨0, 0⟩ : Handle).index.toNat = 0 from rfl, renewed]
  rfl

end Ledger

end LazyGraph

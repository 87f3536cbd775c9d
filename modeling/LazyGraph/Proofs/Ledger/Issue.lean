import LazyGraph.Proofs.Heap.WellFormed
import LazyGraph.Proofs.Ledger.Accounts
import LazyGraph.Proofs.Machine.Transition
import LazyGraph.Proofs.Machine.Iterations

/-! Handles are issued once.

The generation of a slot counts how often the slot has gone back to the free list. A handle
that was handed out carries a generation of the past, or the present one, and the present
one only while its slot is live or reserved; so no slot is handed out twice under one
generation, and a handle that was reclaimed is dead for good. -/

set_option autoImplicit false

namespace LazyGraph

namespace Heap

variable {heap : Heap} {handle : Handle}

theorem contains_iff_live : heap.contains handle = true ↔ heap.Live handle := by
  unfold contains Live
  cases heap.lookup handle <;> simp [Except.isOk, Except.toBool]

/-- Everything asked of this handle is refused as malformed, and so is a call on it that is
granted its first step. -/
structure Rejects (heap : Heap) (handle : Handle) : Prop where
  node : ∃ defect, heap.node handle = .error (.malformed defect)
  state : ∃ defect, heap.state handle = .error (.malformed defect)
  resolve : ∃ defect, heap.resolve handle = .error (.malformed defect)
  value : ∃ defect, heap.value handle = .error (.malformed defect)
  ordinal : ∃ defect, heap.ordinal handle = .error (.malformed defect)
  force : ∀ {σ : Type} (host : Host σ) (evaluator : Evaluator) (fuel : Nat) (state ready : State σ),
    state.world.heap = heap → Machine.tick evaluator (Machine.begin evaluator state) = .ok () ready →
    ∃ defect after, Machine.force host evaluator (fuel + 1) handle state = some (.error (.malformed defect), after)

theorem follow_dead {fault : Fault} (broken : heap.lookup handle = .error fault) (passed : List Handle) :
    heap.followOn passed handle = ⟨passed, .broken fault⟩ := by
  rw [followOn, followFrom_eq, broken, List.reverse_reverse]

theorem rejects_dead (dead : ¬ heap.Live handle) : heap.Rejects handle := by
  cases looked : heap.lookup handle with
  | ok slot => exact absurd ⟨slot, looked⟩ dead
  | error fault =>
    obtain ⟨defect, rfl⟩ := lookup_error looked
    have landed : (heap.follow handle).landing = .broken (.malformed defect) :=
      congrArg Chain.landing (follow_dead looked [])
    have refused : heap.resolveSlot handle = .error (.malformed defect) := by
      rw [resolveSlot, landed]
    refine ⟨⟨defect, ?_⟩, ⟨defect, ?_⟩, ⟨defect, ?_⟩, ⟨defect, ?_⟩, ⟨defect, ?_⟩, ?_⟩
    · rw [node, looked, Except.map]
    · rw [state, looked, Except.map]
    · rw [resolve, refused, Except.map]
    · rw [value, refused, Except.map]
    · rw [ordinal, refused]
      rfl
    · intro σ host evaluator fuel state ready same granted
      have begun := Machine.tick_state evaluator (Machine.begin evaluator state)
      rw [granted] at begun
      cases begun
      obtain ⟨next, _, sameHeap, going⟩ := Machine.step_granted (.force handle)
        (Machine.continuing (Machine.demand evaluator handle)) granted
      have dead : next.world.heap.followOn [] handle = ⟨[], .broken (.malformed defect)⟩ := by
        have sameHeap' : next.world.heap = heap := sameHeap.trans same
        exact follow_dead (sameHeap' ▸ looked) []
      have stepped : Machine.iterate host evaluator (.force handle) (Machine.begin evaluator state) =
          .error (.malformed defect) next := by
        exact going.trans (Machine.continuing_error (Machine.demandFrom_broken evaluator (congrArg Chain.landing dead)))
      refine ⟨defect, _, Machine.force_eq_error.mpr ⟨next, ?_, rfl⟩⟩
      rw [Machine.run, stepped]

end Heap

namespace Ledger

variable {within : List Group → Prop} {ledger later : Ledger} {handle : Handle} {handles : List Handle}

def turns (ledger : Ledger) (place : Nat) : Nat :=
  ledger.recycled.count place

/-- No slot has gone through all the generations there are. -/
def Spared (ledger : Ledger) : Prop :=
  ∀ place, ledger.turns place < UInt32.size

structure Dated (ledger : Ledger) : Prop where
  generation : ∀ {place entry}, ledger.heap.entries[place]? = some entry → entry.generation.toNat = ledger.turns place
  inside : ∀ place ∈ ledger.recycled, place < ledger.heap.capacity
  past : ∀ handle ∈ ledger.issued, handle.generation.toNat ≤ ledger.turns handle.index.toNat
  present : ∀ handle ∈ ledger.issued, handle.generation.toNat = ledger.turns handle.index.toNat →
    ledger.heap.Live handle ∨ handle ∈ ledger.reserved
  once : ledger.issued.Nodup
  granted : ∀ handle ∈ ledger.granted, handle ∈ ledger.issued
  building : ∀ handle ∈ ledger.reserved, handle ∈ ledger.issued
  live : ∀ handle, ledger.heap.Live handle ↔ handle ∈ ledger.granted ∧ handle ∉ ledger.reclaimed
  expired : ∀ handle ∈ ledger.reclaimed, handle.generation.toNat < ledger.turns handle.index.toNat

theorem Dated.start (settings : HeapSettings) : (Ledger.start settings).Dated where
  generation := fun present => by simp [Ledger.start, Heap.ofSettings] at present
  inside := nofun
  past := nofun
  present := nofun
  once := .nil
  granted := nofun
  building := nofun
  live := fun handle => by simp [Heap.Live, Heap.lookup, Ledger.start, Heap.ofSettings]
  expired := nofun

/-! ### Handing out -/

theorem Sound.live_openGroup {count : UInt64} {after : Heap} (sound : ledger.Sound)
    (opened : Heap.openGroup count ledger.heap = .ok handles after) (fits : after.Addressable) (handle : Handle) :
    after.Live handle ↔ ledger.heap.Live handle := by
  rcases Heap.openGroup_cases count ledger.heap with ⟨_, _, opened', _, enlarges⟩ | ⟨_, refused⟩
  · cases opened.symm.trans opened'
    obtain ⟨_, _, gains⟩ := enlarges.gains fits sound.parted.free (.nil _)
    refine ⟨fun ⟨slot, found⟩ => ?_, gains.widens handle⟩
    rcases gains.fresh found with found | ⟨_, added, _⟩
    · exact ⟨slot, found⟩
    · cases added
  · cases opened.symm.trans refused

/-- A slot that a group opens is dated as it was, or was never recycled. -/
theorem Dated.generation_openGroup {count : UInt64} {after : Heap} (dated : ledger.Dated)
    (opened : Heap.openGroup count ledger.heap = .ok handles after) {place : Nat} {entry : Entry}
    (present : after.entries[place]? = some entry) : entry.generation.toNat = ledger.turns place := by
  obtain ⟨counted, entries, _, _, taken⟩ := Heap.openGroup_eq_ok opened
  have present : (Heap.takeSlots count.toNat [] counted).2.entries[place]? = some entry := by rw [taken]; exact present
  rcases Heap.entries_takeSlots _ _ _ present with earlier | ⟨beyond, rfl⟩
  · exact dated.generation (entries ▸ earlier)
  · -- a new slot has never been recycled
    have unused : place ∉ ledger.recycled := by
      intro member
      have below := dated.inside place member
      rw [Heap.capacity, entries] at beyond
      exact Nat.not_lt_of_le beyond below
    exact (List.count_eq_zero.mpr unused).symm

theorem Dated.openGroup {count : UInt64} {after : Heap} (dated : ledger.Dated) (sound : ledger.Sound)
    (opened : Heap.openGroup count ledger.heap = .ok handles after) (fits : after.Addressable) :
    Dated { ledger with
      heap := after
      groups := ⟨count, handles⟩ :: ledger.groups
      issued := handles ++ ledger.issued } := by
  have step : Step (fun _ => True) ledger _ := .openGroup opened
  have reserved := (sound.parted.openGroup opened fits).reserved
  have live := sound.live_openGroup opened fits
  have current : ∀ handle ∈ handles, handle.generation.toNat = ledger.turns handle.index.toNat := by
    intro handle member
    exact dated.generation_openGroup opened (reserved.vacant handle (List.mem_append_left _ member))
  have unread : ∀ handle ∈ handles, ¬ after.Live handle := by
    rintro handle member ⟨slot, found⟩
    rw [Heap.lookup_eq_ok, reserved.vacant handle (List.mem_append_left _ member)] at found
    simp at found
  obtain ⟨apart, _, disjoint⟩ := List.nodup_append.mp (List.map_append ▸ reserved.distinct)
  have fresh : ∀ handle ∈ handles, handle ∉ ledger.issued := by
    intro handle member known
    rcases dated.present handle known (current handle member) with alive | held
    · exact unread handle member ((live handle).mpr alive)
    · exact disjoint _ (List.mem_map_of_mem member) _ (List.mem_map_of_mem held) rfl
  constructor
  case generation => exact dated.generation_openGroup opened
  case inside => exact fun place member => Nat.lt_of_lt_of_le (dated.inside place member) step.grows
  case past =>
    intro handle member
    rcases List.mem_append.mp member with member | member
    · exact Nat.le_of_eq (current handle member)
    · exact dated.past handle member
  case present =>
    intro handle member now
    rcases List.mem_append.mp member with member | member
    · exact .inr (List.mem_append_left _ member)
    · rcases dated.present handle member now with alive | held
      · exact .inl ((live handle).mpr alive)
      · exact .inr (List.mem_append_right _ held)
  case once =>
    refine List.nodup_append.mpr ⟨List.Pairwise.of_map _ (fun _ _ ne same => ne (congrArg _ same)) apart, dated.once, ?_⟩
    rintro handle member _ known rfl
    exact fresh handle member known
  case granted => exact fun handle member => List.mem_append_right _ (dated.granted handle member)
  case building =>
    intro handle member
    rcases List.mem_append.mp member with member | member
    · exact List.mem_append_left _ member
    · exact List.mem_append_right _ (dated.building handle member)
  case live => exact fun handle => (live handle).trans (dated.live handle)
  case expired => exact dated.expired

/-- What a group is filled with is live, and nothing else becomes so. -/
theorem Sound.live_fillGroup {group : Group} {rest : List Group} {nodes : List Node} {after : Heap} (sound : ledger.Sound)
    (innermost : ledger.groups = group :: rest)
    (filled : Heap.closeGroup group.count group.handles nodes ledger.heap = .ok () after) (handle : Handle) :
    after.Live handle ↔ ledger.heap.Live handle ∨ handle ∈ group.handles := by
  obtain ⟨exactly, closed⟩ := Heap.closeGroup_eq_ok filled
  have parted := sound.parted
  rw [reserved_cons innermost] at parted
  have lengths : group.handles.length = nodes.length := (sound.sized group (by simp [innermost])).trans exactly.symm
  obtain ⟨_, gains, _⟩ := Heap.fillAll_gains parted.free parted.reserved lengths
  rw [← closed] at gains
  constructor
  · rintro ⟨slot, found⟩
    rcases gains.fresh found with found | ⟨node, added, _⟩
    · exact .inl ⟨slot, found⟩
    · exact .inr (List.of_mem_zip added).1
  · rintro (alive | member)
    · exact gains.widens handle alive
    · rw [← List.map_fst_zip (Nat.le_of_eq lengths)] at member
      obtain ⟨⟨_, node⟩, added, rfl⟩ := List.mem_map.mp member
      exact ⟨_, gains.filled added⟩

theorem Dated.fillGroup {group : Group} {rest : List Group} {nodes : List Node} {after : Heap} (dated : ledger.Dated)
    (sound : ledger.Sound) (innermost : ledger.groups = group :: rest)
    (filled : Heap.closeGroup group.count group.handles nodes ledger.heap = .ok () after) :
    Dated { ledger with
      heap := after
      groups := rest
      granted := group.handles ++ ledger.granted } := by
  have step : Step (fun _ => True) ledger _ := .fillGroup innermost filled
  obtain ⟨_, closed⟩ := Heap.closeGroup_eq_ok filled
  have live := sound.live_fillGroup innermost filled
  have members : ∀ {handle}, handle ∈ ledger.reserved → handle ∈ group.handles ∨ handle ∈ rest.flatMap Group.handles := by
    intro handle held
    exact List.mem_append.mp (reserved_cons innermost ▸ held)
  have ours : ∀ handle ∈ group.handles, handle ∈ ledger.reserved := by
    intro handle member
    rw [reserved_cons innermost]
    exact List.mem_append_left _ member
  constructor
  case generation =>
    intro place entry present
    dsimp only at present
    rw [closed] at present
    obtain ⟨old, found, same, _⟩ := Heap.entries_fillAll _ _ present
    exact same ▸ dated.generation found
  case inside => exact fun place member => Nat.lt_of_lt_of_le (dated.inside place member) step.grows
  case past => exact dated.past
  case present =>
    intro handle member now
    rcases dated.present handle member now with alive | held
    · exact .inl ((live handle).mpr (.inl alive))
    · exact (members held).imp (fun filled => (live handle).mpr (.inr filled)) id
  case once => exact dated.once
  case granted =>
    intro handle member
    rcases List.mem_append.mp member with member | member
    · exact dated.building handle (ours handle member)
    · exact dated.granted handle member
  case building =>
    intro handle member
    refine dated.building handle ?_
    rw [reserved_cons innermost]
    exact List.mem_append_right _ member
  case live =>
    intro handle
    rw [live, dated.live, List.mem_append]
    constructor
    · rintro (⟨member, still⟩ | member)
      · exact ⟨.inr member, still⟩
      · refine ⟨.inl member, fun gone => ?_⟩
        have now := dated.generation (sound.parted.reserved.vacant handle (ours handle member))
        exact Nat.lt_irrefl _ (now ▸ dated.expired handle gone)
    · rintro ⟨member | member, still⟩
      · exact .inr member
      · exact .inl ⟨member, still⟩
  case expired => exact dated.expired

/-! ### Taking back -/

/-- The slots in `dropped` go back to the free list, and what was live or reserved there is no
longer. With none of them, nothing is taken back. -/
structure Recycles (dropped : List Nat) (before after : Ledger) : Prop where
  distinct : dropped.Nodup
  below : ∀ place ∈ dropped, place < before.heap.capacity
  recycled : after.recycled = dropped ++ before.recycled
  grows : before.heap.capacity ≤ after.heap.capacity
  entries : ∀ {place entry}, after.heap.entries[place]? = some entry → ∃ old, before.heap.entries[place]? = some old ∧
    entry.generation = if place ∈ dropped then old.generation + 1 else old.generation
  live : ∀ handle, after.heap.Live handle ↔ before.heap.Live handle ∧ handle.index.toNat ∉ dropped
  reserved : ∀ handle, handle ∈ after.reserved ↔ handle ∈ before.reserved ∧ handle.index.toNat ∉ dropped
  issued : after.issued = before.issued
  granted : after.granted = before.granted
  reclaimed : ∀ handle, handle ∈ after.reclaimed ↔
    handle ∈ before.reclaimed ∨ (before.heap.Live handle ∧ handle.index.toNat ∈ dropped)

theorem Recycles.turns {dropped : List Nat} (recycles : Recycles dropped ledger later) (place : Nat) :
    later.turns place = ledger.turns place + if place ∈ dropped then 1 else 0 := by
  rw [Ledger.turns, Ledger.turns, recycles.recycled, List.count_append, recycles.distinct.count, Nat.add_comm]

theorem Dated.recycle {dropped : List Nat} (dated : ledger.Dated) (spared : later.Spared)
    (recycles : Recycles dropped ledger later) : later.Dated := by
  have turns := recycles.turns
  constructor
  case generation =>
    intro place entry present
    obtain ⟨old, found, next⟩ := recycles.entries present
    have before := dated.generation found
    have small := spared place
    rw [turns] at small ⊢
    split at next
    · rename_i member
      rw [if_pos member] at small ⊢
      rw [next, UInt32.toNat_add, before]
      exact Nat.mod_eq_of_lt small
    · rename_i other
      rw [if_neg other, next, before, Nat.add_zero]
  case inside =>
    intro place member
    rw [recycles.recycled, List.mem_append] at member
    rcases member with member | member
    · exact Nat.lt_of_lt_of_le (recycles.below place member) recycles.grows
    · exact Nat.lt_of_lt_of_le (dated.inside place member) recycles.grows
  case past =>
    intro handle member
    rw [turns]
    exact Nat.le_add_right_of_le (dated.past handle (recycles.issued ▸ member))
  case present =>
    intro handle member now
    rw [recycles.issued] at member
    have past := dated.past handle member
    rw [turns] at now
    -- at a slot that went back, every handle is of the past
    have stays : handle.index.toNat ∉ dropped := by
      intro gone
      rw [if_pos gone] at now
      omega
    rw [if_neg stays] at now
    rcases dated.present handle member now with alive | held
    · exact .inl ((recycles.live handle).mpr ⟨alive, stays⟩)
    · exact .inr ((recycles.reserved handle).mpr ⟨held, stays⟩)
  case once => exact recycles.issued ▸ dated.once
  case granted =>
    intro handle member
    rw [recycles.issued]
    exact dated.granted handle (recycles.granted ▸ member)
  case building =>
    intro handle member
    rw [recycles.issued]
    exact dated.building handle ((recycles.reserved handle).mp member).1
  case live =>
    intro handle
    rw [recycles.live, recycles.granted, recycles.reclaimed, dated.live]
    constructor
    · rintro ⟨⟨member, still⟩, stays⟩
      exact ⟨member, fun gone => gone.elim still fun ⟨_, gone⟩ => stays gone⟩
    · rintro ⟨member, still⟩
      have before : handle ∉ ledger.reclaimed := fun gone => still (.inl gone)
      exact ⟨⟨member, before⟩, fun gone => still (.inr ⟨⟨member, before⟩, gone⟩)⟩
  case expired =>
    intro handle member
    rw [turns]
    rcases (recycles.reclaimed handle).mp member with gone | ⟨⟨slot, alive⟩, gone⟩
    · exact Nat.lt_add_right _ (dated.expired handle gone)
    · have now := dated.generation (Heap.lookup_eq_ok.mp alive)
      rw [if_pos gone, ← now]
      exact Nat.lt_succ_self _

theorem Recycles.of_live {after : Heap} (grows : ledger.heap.capacity ≤ after.capacity)
    (entries : ∀ {place : Nat} {entry : Entry}, after.entries[place]? = some entry →
      ∃ old : Entry, ledger.heap.entries[place]? = some old ∧ entry.generation = old.generation)
    (live : ∀ handle, after.Live handle ↔ ledger.heap.Live handle) :
    Recycles [] ledger { ledger with heap := after } where
  distinct := .nil
  below := nofun
  recycled := rfl
  grows := grows
  entries := fun present => by simpa using entries present
  live := by simpa using live
  reserved := by simp [Ledger.reserved]
  issued := rfl
  granted := rfl
  reclaimed := by simp

theorem Recycles.dropGroup {group : Group} {rest : List Group} {nodes : List Node} {fault : Fault} {after : Heap}
    (sound : ledger.Sound) (innermost : ledger.groups = group :: rest)
    (refused : Heap.closeGroup group.count group.handles nodes ledger.heap = .error fault after) :
    Recycles (Heap.places group.handles) ledger { ledger with
      heap := after
      groups := rest
      recycled := Heap.places group.handles ++ ledger.recycled } := by
  have step : Step (fun _ => True) ledger _ := .dropGroup innermost refused
  cases Heap.closeGroup_eq_error refused
  have parted := sound.parted
  rw [reserved_cons innermost] at parted
  have apart := parted.distinct
  rw [Heap.places_append] at apart
  obtain ⟨distinct, _, disjoint⟩ := List.nodup_append.mp apart
  obtain ⟨_, _, same⟩ := Heap.abandonAll_apart parted.free parted.reserved
  have vacant : ∀ place ∈ Heap.places group.handles, ∃ generation, ledger.heap.entries[place]? = some ⟨generation, none⟩ := by
    intro place member
    obtain ⟨handle, among, rfl⟩ := List.mem_map.mp member
    exact ⟨_, parted.reserved.vacant handle (List.mem_append_left _ among)⟩
  have unread : ∀ handle, ledger.heap.Live handle → handle.index.toNat ∉ Heap.places group.handles := by
    rintro handle ⟨slot, found⟩ member
    obtain ⟨generation, empty⟩ := vacant _ member
    rw [Heap.lookup_eq_ok, empty] at found
    simp at found
  exact {
    distinct := distinct
    below := by
      intro place member
      obtain ⟨generation, empty⟩ := vacant place member
      exact (Array.getElem?_eq_some_iff.mp empty).1
    recycled := rfl
    grows := step.grows
    entries := by
      intro place entry present
      have present : (group.handles.foldl Heap.abandon ledger.heap).entries[place]? = some entry := present
      rw [Heap.entries_abandonAll distinct] at present
      split at present
      · rename_i member
        obtain ⟨old, found, rfl⟩ := Option.map_eq_some_iff.mp present
        exact ⟨old, found, (if_pos member).symm⟩
      · rename_i other
        exact ⟨entry, present, (if_neg other).symm⟩
    live := by
      intro handle
      have unchanged : Heap.Live _ handle ↔ ledger.heap.Live handle := exists_congr (same handle)
      exact unchanged.trans ⟨fun alive => ⟨alive, unread handle alive⟩, And.left⟩
    reserved := by
      intro handle
      rw [reserved_cons innermost, List.mem_append]
      constructor
      · intro member
        exact ⟨.inr member, fun dropped => disjoint _ dropped _ (List.mem_map_of_mem member) rfl⟩
      · rintro ⟨member | member, stays⟩
        · exact absurd (List.mem_map_of_mem member) stays
        · exact member
    issued := rfl
    granted := rfl
    reclaimed := fun handle => ⟨.inl, fun gone => gone.elim id fun ⟨alive, member⟩ => absurd member (unread handle alive)⟩ }

theorem Recycles.collect (dated : ledger.Dated) (sound : ledger.Sound) (roots : List Handle) :
    Recycles (ledger.heap.freed roots) ledger { ledger with
      heap := (ledger.heap.collect roots).2
      reclaimed := ledger.granted.filter (fun handle =>
        ledger.heap.contains handle && !(ledger.heap.collect roots).2.contains handle) ++ ledger.reclaimed
      recycled := ledger.heap.freed roots ++ ledger.recycled } := by
  have live : ∀ handle, (ledger.heap.collect roots).2.Live handle ↔
      ledger.heap.Live handle ∧ handle.index.toNat ∉ ledger.heap.freed roots := by
    intro handle
    simp only [Heap.Live, Heap.lookup_eq_ok, Heap.entries_collect]
    by_cases member : handle.index.toNat ∈ ledger.heap.freed roots <;> simp [member]
  exact {
    distinct := ledger.heap.freed_nodup roots
    below := by
      intro place member
      obtain ⟨slot, present⟩ := Heap.mem_freed member
      obtain ⟨entry, present, _⟩ := Option.bind_eq_some_iff.mp present
      exact (Array.getElem?_eq_some_iff.mp present).1
    recycled := rfl
    grows := Nat.le_of_eq (Heap.collect_sweeps _ roots).capacity.symm
    entries := by
      intro place entry present
      rw [Heap.entries_collect] at present
      split at present
      · rename_i member
        obtain ⟨old, found, rfl⟩ := Option.map_eq_some_iff.mp present
        exact ⟨old, found, (if_pos member).symm⟩
      · rename_i other
        exact ⟨entry, present, (if_neg other).symm⟩
    live := live
    reserved := by
      intro handle
      refine ⟨fun held => ⟨held, fun member => ?_⟩, And.left⟩
      obtain ⟨slot, present⟩ := Heap.mem_freed member
      simp [Heap.slotAt?, sound.parted.reserved.vacant handle held] at present
    issued := rfl
    granted := rfl
    reclaimed := by
      intro handle
      have dead : (ledger.heap.collect roots).2.contains handle = false ↔ ¬ (ledger.heap.collect roots).2.Live handle := by
        rw [← Heap.contains_iff_live, Bool.not_eq_true]
      simp only [List.mem_append, List.mem_filter, Bool.and_eq_true, Bool.not_eq_true', Heap.contains_iff_live, dead, live]
      constructor
      · rintro (⟨_, alive, gone⟩ | gone)
        · exact .inr ⟨alive, Decidable.byContradiction fun stays => gone ⟨alive, stays⟩⟩
        · exact .inl gone
      · rintro (gone | ⟨alive, gone⟩)
        · exact .inr gone
        · exact .inl ⟨((dated.live handle).mp alive).1, alive, fun stays => stays.2 gone⟩ }

theorem Step.dated (step : Step within ledger later) (sound : ledger.Sound) (fits : later.heap.Addressable)
    (spared : later.Spared) (dated : ledger.Dated) : later.Dated := by
  have grows := step.grows
  cases step with
  | @alloc node handle after allocated =>
    obtain ⟨opened, taken, filled⟩ := Heap.alloc_eq_group allocated
    have fits' : opened.Addressable := by
      obtain ⟨_, rfl⟩ := Heap.closeGroup_eq_ok filled
      exact fits.mono (Nat.le_of_eq (Heap.capacity_fillAll _ opened).symm)
    exact @Dated.fillGroup _ ⟨1, [handle]⟩ ledger.groups [node] _ (dated.openGroup sound taken fits')
      (sound.openGroup taken fits') rfl filled
  | openGroup opened => exact dated.openGroup sound opened fits
  | fillGroup innermost filled => exact dated.fillGroup sound innermost filled
  | dropGroup innermost refused => exact dated.recycle spared (.dropGroup sound innermost refused)
  | write written =>
    obtain ⟨_, _, rewrites, _⟩ := Heap.transition_rewrites written
    refine dated.recycle spared (.of_live grows (fun present => ?_) rewrites.live_iff)
    obtain ⟨old, found, same, _⟩ := rewrites.entry present
    exact ⟨old, found, same.symm⟩
  | books entries _ _ =>
    refine dated.recycle spared (.of_live grows (fun {_ entry} present => ⟨entry, entries ▸ present, rfl⟩) fun handle => ?_)
    simp only [Heap.Live, Heap.lookup_congr entries]
  | collect _ roots => exact dated.recycle spared (.collect dated sound roots)

/-! ### Runs -/

theorem Step.lasting (step : Step within ledger later) :
    ledger.recycled <:+ later.recycled ∧ ledger.reclaimed <:+ later.reclaimed := by
  cases step <;> simp

theorem Run.lasting (run : Run within ledger later) :
    ledger.recycled <:+ later.recycled ∧ ledger.reclaimed <:+ later.reclaimed := by
  induction run with
  | refl => simp
  | tail _ step ih => exact ⟨ih.1.trans step.lasting.1, ih.2.trans step.lasting.2⟩

theorem Run.dated (run : Run within ledger later) (sound : ledger.Sound) (fits : later.heap.Addressable)
    (spared : later.Spared) (dated : ledger.Dated) : later.Dated := by
  induction run with
  | refl => exact dated
  | @tail middle last earlier step ih =>
    have fits' := fits.mono step.grows
    have spared' : middle.Spared := fun place =>
      Nat.lt_of_le_of_lt (step.lasting.1.sublist.count_le place) (spared place)
    exact step.dated (Run.sound earlier sound fits') fits spared (ih fits' spared')

/-- Take any state of a heap that began empty, and any later one, before a slot has gone
through all generations. Up to then no handle has been handed out twice, those that resolve
are those of the allocations that succeeded, less those that a collection has reclaimed, and
whatever had been reclaimed at the first state is refused at the later one. -/
theorem handles_issued_once {settings : HeapSettings} (reached : Reached within settings ledger)
    (run : Run within ledger later) (fits : later.heap.Addressable) (spared : later.Spared) :
    later.issued.Nodup ∧ (∀ handle ∈ later.granted, handle ∈ later.issued) ∧
      (∀ handle, later.heap.contains handle = true ↔ handle ∈ later.granted ∧ handle ∉ later.reclaimed) ∧
      ∀ handle ∈ ledger.reclaimed, later.heap.contains handle = false ∧ later.heap.Rejects handle := by
  have dated : later.Dated := Run.dated (Relation.ReflTransGen.trans reached run) (.start settings) fits spared (.start settings)
  refine ⟨dated.once, dated.granted, fun handle => Heap.contains_iff_live.trans (dated.live handle), fun handle gone => ?_⟩
  have dead : ¬ later.heap.Live handle := fun alive =>
    ((dated.live handle).mp alive).2 (run.lasting.2.subset gone)
  refine ⟨?_, Heap.rejects_dead dead⟩
  rw [← Bool.not_eq_true, Heap.contains_iff_live]
  exact dead

/-! ### A slot that is used again -/

-- A collection frees the only node, and the next one takes its slot.
def sweptNode : Ledger :=
  { oneNode with
    heap := (oneNode.heap.collect []).2
    reclaimed := oneNode.granted.filter (fun handle =>
      oneNode.heap.contains handle && !(oneNode.heap.collect []).2.contains handle) ++ []
    recycled := oneNode.heap.freed [] ++ [] }

def nextNode : Ledger :=
  { sweptNode with
    heap := (Heap.alloc (.int 8) sweptNode.heap).state
    issued := ⟨0, 1⟩ :: sweptNode.issued
    granted := ⟨0, 1⟩ :: sweptNode.granted }

theorem oneNode_unmarked :
    oneNode.heap.trace (oneNode.heap.roots.map Prod.fst ++ []) = (.ofEntries oneNode.heap.entries, 0) :=
  oneNode.heap.trace_nil

theorem handles_issued_once_slot :
    Reached (fun _ => True) {} sweptNode ∧ Run (fun _ => True) sweptNode nextNode ∧
      sweptNode.reclaimed = [⟨0, 0⟩] ∧ nextNode.heap.contains ⟨0, 1⟩ = true ∧ nextNode.heap.Rejects ⟨0, 0⟩ := by
  have first : Step (fun _ => True) (start {}) oneNode := @Step.alloc _ _ (.int 7) ⟨0, 0⟩ _ rfl
  have second : Step (fun _ => True) oneNode sweptNode := .collect trivial []
  have taken : Heap.alloc (.int 8) sweptNode.heap = .ok ⟨0, 1⟩ nextNode.heap := by
    simp only [nextNode, sweptNode, Heap.collect, oneNode_unmarked]
    with_unfolding_all rfl
  have third : Step (fun _ => True) sweptNode nextNode := .alloc taken
  have reached : Reached (fun _ => True) {} sweptNode := (Relation.ReflTransGen.single first).tail second
  have reclaimed : sweptNode.reclaimed = [⟨0, 0⟩] := by
    simp only [sweptNode, Heap.collect, oneNode_unmarked]
    decide +kernel
  have recycled : nextNode.recycled = [0] := by
    rw [nextNode, sweptNode, Heap.freed, ← (oneNode.heap.trace_shows _).1.unmarked, oneNode_unmarked]
    decide +kernel
  have single : nextNode.heap.capacity = 1 ∧ nextNode.heap.contains ⟨0, 1⟩ = true := by
    simp only [nextNode, sweptNode, Heap.collect, oneNode_unmarked]
    decide +kernel
  have fits : nextNode.heap.Addressable := by
    rw [Heap.Addressable, single.1]
    decide
  have spared : nextNode.Spared := by
    intro place
    refine Nat.lt_of_le_of_lt List.count_le_length ?_
    rw [recycled]
    decide
  obtain ⟨_, _, _, rejects⟩ := handles_issued_once reached (.single third) fits spared
  exact ⟨reached, .single third, reclaimed, single.2, (rejects ⟨0, 0⟩ (by simp [reclaimed])).2⟩

end Ledger

end LazyGraph

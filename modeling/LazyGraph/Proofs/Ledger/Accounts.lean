import Mathlib.Algebra.Ring.Nat
import LazyGraph.Proofs.Ledger.Conduct
import LazyGraph.Proofs.Ledger.Partition

/-! The accounts of a heap.

As long as collections wait until no group is being built, the counter of live nodes counts
the nodes and the reserved slots, and the census agrees with it. -/

set_option autoImplicit false

namespace LazyGraph

/-! ### Counting -/

theorem countP_range {α : Type} (p : α → Bool) (items : List α) :
    (List.range items.length).countP (fun place => items[place]?.any p) = items.countP p := by
  induction items with
  | nil => rfl
  | cons item items ih =>
    rw [List.length_cons, List.range_succ_eq_map, List.countP_cons, List.countP_map, List.countP_cons]
    simp only [Function.comp_def, List.getElem?_cons_succ, List.getElem?_cons_zero, Option.any_some, ih]

theorem Heap.length_occupied (heap : Heap) : heap.occupied.length = heap.liveSlots := by
  have same : ∀ place, (heap.slotAt? place).isSome = heap.entries.toList[place]?.any fun entry => entry.slot.isSome := by
    intro place
    rw [slotAt?, ← Array.getElem?_toList]
    cases heap.entries.toList[place]? <;> rfl
  simp only [occupied, same, ← List.countP_eq_length_filter, capacity, ← Array.length_toList, countP_range]
  rw [liveSlots, Array.countP_toList]

theorem Heap.length_freed_le (heap : Heap) (roots : List Handle) : (heap.freed roots).length ≤ heap.liveSlots := by
  rw [← length_occupied, occupied, freed, garbage]
  refine List.Sublist.length_le (List.monotone_filter_right _ fun place dropped => ?_)
  exact (Bool.and_eq_true_iff.mp dropped).1

theorem Heap.length_slots (heap : Heap) : heap.slots.length = heap.liveSlots := by
  rw [slots, List.length_filterMap_eq_countP, liveSlots, Array.countP_toList]

namespace Tally

def sum (tally : Tally) : Nat :=
  (Tag.all.map tally.get).sum

theorem get_bump (tally : Tally) (tag other : Tag) :
    (tally.bump tag).get other = if other = tag then tally.get tag + 1 else tally.get other := by
  by_cases same : other = tag
  · simp [bump, get, same]
  · have apart : tag.position ≠ other.position := fun there => same (Tag.position_injective there.symm)
    simp [bump, get, same, Fin.val_ne_of_ne apart]

theorem sum_bump (tally : Tally) (tag : Tag) : (tally.bump tag).sum = tally.sum + 1 := by
  simp only [sum, Tag.all, List.map_cons, List.map_nil, List.sum_cons, List.sum_nil, get_bump]
  cases tag <;> simp <;> omega

end Tally

theorem sum_positive {α : Type} (items : List (α × Nat)) :
    ((items.filter fun item => 0 < item.2).map Prod.snd).sum = (items.map Prod.snd).sum := by
  induction items with
  | nil => rfl
  | cons item items ih =>
    by_cases positive : 0 < item.2
    · simp [positive, ih]
    · have zero : item.2 = 0 := by omega
      simp [zero, ih]

theorem Heap.sum_kinds (heap : Heap) : (heap.census.kinds.map Prod.snd).sum = heap.slots.length := by
  have counted : ∀ (slots : List Slot) (tally : Tally),
      (slots.foldl (fun tally slot => tally.bump slot.node.tag) tally).sum = tally.sum + slots.length := by
    intro slots
    induction slots with
    | nil => simp
    | cons slot slots ih =>
      intro tally
      rw [List.foldl_cons, ih, Tally.sum_bump, List.length_cons]
      omega
  have all := counted heap.slots Tally.empty
  have none : Tally.empty.sum = 0 := by decide
  rw [none, Nat.zero_add] at all
  simp only [census, sum_positive, List.map_map, Function.comp_def]
  exact all

namespace Heap.Partitioned

variable {heap : Heap} {handles : List Handle}

theorem capacity_eq (parted : heap.Partitioned handles) :
    heap.capacity = heap.liveSlots + heap.free.length + handles.length := by
  have lengths := parted.shares.length_eq
  simp only [List.length_range, List.length_append, List.length_map, length_occupied, places] at lengths
  omega

end Heap.Partitioned

structure Heap.Accounted (heap : Heap) (reserved : List Handle) : Prop where
  shares : (List.range heap.capacity).Perm (heap.occupied ++ (heap.free.map UInt32.toNat ++ places reserved))
  vacant : ∀ place ∈ heap.free.map UInt32.toNat ++ places reserved, heap.slotAt? place = none
  capacity : heap.capacity = heap.liveSlots + heap.free.length + reserved.length
  live : heap.live.toNat = heap.liveSlots + reserved.length
  slots : heap.census.live = heap.liveSlots
  kinds : (heap.census.kinds.map Prod.snd).sum = heap.liveSlots
  free : heap.census.free + heap.live.toNat = heap.capacity

/-! ### Ledgers in order -/

namespace Ledger

variable {within : List Group → Prop} {ledger later : Ledger}

structure Sound (ledger : Ledger) : Prop where
  parted : ledger.heap.Partitioned ledger.reserved
  sized : ∀ group ∈ ledger.groups, group.handles.length = group.count.toNat
  below : ∀ handle ∈ ledger.issued, handle.index.toNat < ledger.heap.capacity

theorem reserved_cons {group : Group} {rest : List Group} (innermost : ledger.groups = group :: rest) :
    ledger.reserved = group.handles ++ rest.flatMap Group.handles := by
  simp [reserved, innermost]

theorem Sound.still (sound : ledger.Sound) (grows : ledger.heap.capacity ≤ later.heap.capacity)
    (groups : later.groups = ledger.groups) (issued : later.issued = ledger.issued)
    (parted : later.heap.Partitioned ledger.reserved) : later.Sound where
  parted := by rwa [reserved, groups]
  sized := groups ▸ sound.sized
  below := fun handle member => Nat.lt_of_lt_of_le (sound.below handle (issued ▸ member)) grows

theorem Sound.openGroup {count : UInt64} {handles : List Handle} {after : Heap} (sound : ledger.Sound)
    (opened : Heap.openGroup count ledger.heap = .ok handles after) (fits : after.Addressable) :
    Sound { ledger with
      heap := after
      groups := ⟨count, handles⟩ :: ledger.groups
      issued := handles ++ ledger.issued } := by
  have parted := sound.parted.openGroup opened fits
  have step : Step (fun _ => True) ledger _ := .openGroup opened
  have length : handles.length = count.toNat := by
    obtain ⟨counted, _, _, _, taken⟩ := Heap.openGroup_eq_ok opened
    simpa [taken] using Heap.length_takeSlots count.toNat [] counted
  refine ⟨by simpa [reserved] using parted, ?_, ?_⟩
  · intro group member
    rcases List.mem_cons.mp member with rfl | member
    · exact length
    · exact sound.sized group member
  · intro handle member
    rcases List.mem_append.mp member with fresh | member
    · have vacant := parted.reserved.vacant handle (List.mem_append_left _ fresh)
      exact (Array.getElem?_eq_some_iff.mp vacant).1
    · exact Nat.lt_of_lt_of_le (sound.below handle member) step.grows

theorem Sound.closeGroup {group : Group} {rest : List Group} (sound : ledger.Sound)
    (grows : ledger.heap.capacity ≤ later.heap.capacity) (innermost : ledger.groups = group :: rest)
    (groups : later.groups = rest) (issued : later.issued = ledger.issued)
    (parted : later.heap.Partitioned (rest.flatMap Group.handles)) : later.Sound where
  parted := by rwa [reserved, groups]
  sized := by
    intro other member
    rw [groups] at member
    exact sound.sized other (by simp [innermost, member])
  below := fun handle member => Nat.lt_of_lt_of_le (sound.below handle (issued ▸ member)) grows

theorem Sound.fillGroup {group : Group} {rest : List Group} {nodes : List Node} {after : Heap} (sound : ledger.Sound)
    (innermost : ledger.groups = group :: rest)
    (filled : Heap.closeGroup group.count group.handles nodes ledger.heap = .ok () after) (granted : List Handle) :
    Sound { ledger with heap := after, groups := rest, granted := granted } := by
  have parted := sound.parted
  rw [reserved_cons innermost] at parted
  have step : Step (fun _ => True) ledger _ := .fillGroup innermost filled
  have sized := sound.sized group (by simp [innermost])
  exact sound.closeGroup step.grows innermost rfl rfl (parted.fillGroup sized filled)

theorem Step.sound (step : Step within ledger later) (sound : ledger.Sound) (fits : later.heap.Addressable) :
    later.Sound := by
  have parted := sound.parted
  have grows := step.grows
  cases step with
  | @alloc node handle after allocated =>
    obtain ⟨opened, taken, filled⟩ := Heap.alloc_eq_group allocated
    obtain ⟨_, rfl⟩ := Heap.closeGroup_eq_ok filled
    have fits' : opened.Addressable := fits.mono (Nat.le_of_eq (Heap.capacity_fillAll _ opened).symm)
    have middle := sound.openGroup taken fits'
    exact @Sound.fillGroup _ ⟨1, [handle]⟩ ledger.groups [node] _ middle rfl filled (handle :: ledger.granted)
  | openGroup opened => exact sound.openGroup opened fits
  | fillGroup innermost filled => exact sound.fillGroup innermost filled _
  | dropGroup innermost refused =>
    rw [reserved_cons innermost] at parted
    exact sound.closeGroup grows innermost rfl rfl (parted.dropGroup refused)
  | write written =>
    obtain ⟨_, _, rewrites, _⟩ := Heap.transition_rewrites written
    exact sound.still grows rfl rfl (parted.rewrites rewrites)
  | books entries free live => exact sound.still grows rfl rfl (parted.of_entries entries free)
  | collect allowed roots =>
    exact sound.still grows rfl rfl (parted.collect (fits.mono grows) roots)

theorem Sound.start (settings : HeapSettings) : (Ledger.start settings).Sound where
  parted := ⟨⟨nofun, .nil⟩, .nil _, fun present _ => by simp [Ledger.start, Heap.ofSettings] at present⟩
  sized := nofun
  below := nofun

theorem Run.sound (run : Run within ledger later) (sound : ledger.Sound) (fits : later.heap.Addressable) :
    later.Sound := by
  induction run with
  | refl => exact sound
  | tail _ step ih => exact step.sound (ih (fits.mono step.grows)) fits

/-! ### The counter of live nodes -/

/-- The counter and the free list together make up the capacity. -/
def Balanced (ledger : Ledger) : Prop :=
  ledger.heap.live.toNat + ledger.heap.free.length = ledger.heap.capacity

theorem balanced_openGroup {count : UInt64} {handles : List Handle} {before after : Heap}
    (opened : Heap.openGroup count before = .ok handles after) (fits : after.Addressable)
    (balanced : before.live.toNat + before.free.length = before.capacity) :
    after.live.toNat + after.free.length = after.capacity := by
  obtain ⟨counted, entries, free, live, taken⟩ := Heap.openGroup_eq_ok opened
  have shared := Heap.capacity_takeSlots_free count.toNat [] counted
  have same : counted.capacity = before.capacity := congrArg Array.size entries
  have liveAfter : after.live = before.live + count := by
    have kept := Heap.live_takeSlots count.toNat [] counted
    rw [taken] at kept
    rw [kept, live]
  rw [taken, free, same] at shared
  have small : after.capacity ≤ UInt32.size := fits
  rw [liveAfter, UInt64.toNat_add, Nat.mod_eq_of_lt]
  · simp only at shared
    omega
  · simp only [UInt32.size] at small
    simp only at shared
    omega

theorem Step.balanced (step : Step (· = []) ledger later) (sound : ledger.Sound) (fits : later.heap.Addressable)
    (balanced : ledger.Balanced) : later.Balanced := by
  unfold Balanced at balanced ⊢
  cases step with
  | @alloc node handle after allocated =>
    obtain ⟨opened, taken, filled⟩ := Heap.alloc_eq_group allocated
    obtain ⟨_, rfl⟩ := Heap.closeGroup_eq_ok filled
    have fits' : opened.Addressable := fits.mono (Nat.le_of_eq (Heap.capacity_fillAll _ opened).symm)
    simp only [Heap.live_fillAll, Heap.free_fillAll, Heap.capacity_fillAll]
    exact balanced_openGroup taken fits' balanced
  | openGroup opened => exact balanced_openGroup opened fits balanced
  | fillGroup innermost filled =>
    obtain ⟨_, rfl⟩ := Heap.closeGroup_eq_ok filled
    simp only [Heap.live_fillAll, Heap.free_fillAll, Heap.capacity_fillAll]
    exact balanced
  | @dropGroup group rest nodes fault after innermost refused =>
    cases Heap.closeGroup_eq_error refused
    have capacity := sound.parted.capacity_eq
    have sized := sound.sized group (by simp [innermost])
    simp only [reserved_cons innermost, List.length_append] at capacity
    have covers : group.count ≤ ledger.heap.live := UInt64.le_iff_toNat_le.mpr (by omega)
    have free := congrArg List.length (Heap.free_abandonAll group.handles ledger.heap)
    have same := Heap.capacity_abandonAll group.handles ledger.heap
    simp only [List.length_append, List.length_reverse, List.length_map] at free
    have live : ((group.handles.foldl Heap.abandon ledger.heap).unreserve group.count).live.toNat =
        ledger.heap.live.toNat - group.count.toNat := by
      simp only [Heap.unreserve, Heap.live_abandonAll, UInt64.toNat_sub_of_le _ _ covers]
    have counted : group.count.toNat ≤ ledger.heap.live.toNat := UInt64.le_iff_toNat_le.mp covers
    calc _ = ledger.heap.live.toNat - group.count.toNat + (group.handles.length + ledger.heap.free.length) := by
          rw [live, ← free]; rfl
      _ = ledger.heap.capacity := by omega
      _ = _ := same.symm
  | write written =>
    obtain ⟨_, _, rewrites, live⟩ := Heap.transition_rewrites written
    rw [live, rewrites.free, rewrites.capacity]
    exact balanced
  | books entries free live =>
    simp only [Heap.capacity, entries, free, live] at balanced ⊢
    exact balanced
  | collect idle roots =>
    have none : ledger.reserved = [] := by simp [reserved, idle]
    have capacity := sound.parted.capacity_eq
    rw [none, List.length_nil] at capacity
    have less := ledger.heap.length_freed_le roots
    have same := (Heap.collect_sweeps ledger.heap roots).capacity
    have small : ledger.heap.capacity ≤ UInt32.size := same ▸ fits
    have exactly : (UInt64.ofNat (ledger.heap.liveSlots - (ledger.heap.freed roots).length)).toNat =
        ledger.heap.liveSlots - (ledger.heap.freed roots).length := by
      refine UInt64.toNat_ofNat_of_lt' (Nat.lt_of_le_of_lt (Nat.sub_le _ _) ?_)
      simp only [UInt32.size, UInt64.size] at small ⊢
      omega
    simp only [Heap.live_collect, exactly, Heap.free_collect, same, List.length_append, List.length_reverse,
      List.length_map]
    omega

theorem Run.balanced (run : Run (· = []) ledger later) (sound : ledger.Sound) (balanced : ledger.Balanced)
    (fits : later.heap.Addressable) : later.Balanced := by
  induction run with
  | refl => exact balanced
  | tail earlier step ih =>
    have fits' := fits.mono step.grows
    exact step.balanced (Run.sound earlier sound fits') fits (ih fits')

theorem Reached.balanced {settings : HeapSettings} (reached : Reached (· = []) settings ledger)
    (fits : ledger.heap.Addressable) : ledger.Balanced :=
  Run.balanced reached (.start settings) rfl fits

theorem Reached.accounted {settings : HeapSettings} (reached : Reached (· = []) settings ledger)
    (fits : ledger.heap.Addressable) : ledger.heap.Accounted ledger.reserved := by
  have parted := (Run.sound reached (.start settings) fits).parted
  have balanced : ledger.heap.live.toNat + ledger.heap.free.length = ledger.heap.capacity := reached.balanced fits
  have capacity := parted.capacity_eq
  exact {
    shares := parted.shares
    vacant := parted.vacant
    capacity := capacity
    live := by omega
    slots := ledger.heap.length_slots
    kinds := ledger.heap.sum_kinds.trans ledger.heap.length_slots
    free := (Nat.add_comm _ _).trans balanced }

/-- Take any state of a heap that began empty and was only collected while no group was being
built, be it in the middle of the builders of groups. Its slots are live, free or reserved,
its counters and its census agree with that, and every handle handed out has a slot. And the
states are all there are: to allocate a group, whatever its builder does and returns, and to
make a call, whatever the functions of its host do, leads from one of them to another. -/
theorem slots_accounted {settings : HeapSettings} (reached : Reached (· = []) settings ledger) :
    (ledger.heap.Addressable → ledger.heap.Accounted ledger.reserved ∧
      ∀ handle ∈ ledger.issued, handle.index.toNat < ledger.heap.capacity) ∧
    (∀ (count : UInt64) (build : List Handle → Heap → List Node × Heap),
      (∀ handles heap, Heap.Conducts (· = []) (⟨count, handles⟩ :: ledger.groups) heap (build handles heap).2) →
      ∃ later, Reached (· = []) settings later ∧ later.groups = ledger.groups ∧
        later.heap = (Heap.allocGroup count build ledger.heap).state) ∧
    ∀ {σ : Type} (host : Host σ) (evaluator : Evaluator) (fuel : Nat) (root : Handle) (state after : State σ)
      (result : Except Fault Handle), host.KeepsTo (Heap.Conducts (· = []) ledger.groups) →
      state.world.heap = ledger.heap → Machine.force host evaluator fuel root state = some (result, after) →
      ∃ later, Reached (· = []) settings later ∧ later.groups = ledger.groups ∧ later.heap = after.world.heap := by
  have onward : ∀ {heap : Heap}, Heap.Conducts (· = []) ledger.groups ledger.heap heap →
      ∃ later, Reached (· = []) settings later ∧ later.groups = ledger.groups ∧ later.heap = heap := by
    intro heap conducts
    obtain ⟨later, run, same, under⟩ := conducts ledger rfl rfl
    exact ⟨later, Relation.ReflTransGen.trans reached run, under, same⟩
  refine ⟨fun fits => ⟨reached.accounted fits, (Run.sound reached (.start settings) fits).below⟩, ?_, ?_⟩
  · exact fun count build inside => onward (Heap.Conducts.allocGroup count inside ledger.heap)
  · intro σ host evaluator fuel root state after result keeps same ended
    exact onward (same ▸ Machine.force_conducts keeps ended)

/-! ### A builder at work -/

-- Beside a node, two slots are reserved. Their builder allocates a node and opens a group of
-- its own, which it gives up.
def oneNode : Ledger :=
  { start {} with
    heap := (Heap.alloc (.int 7) (start {}).heap).state
    issued := [⟨0, 0⟩]
    granted := [⟨0, 0⟩] }

def twoReserved : Ledger :=
  { oneNode with
    heap := (Heap.openGroup 2 oneNode.heap).state
    groups := [⟨2, [⟨1, 0⟩, ⟨2, 0⟩]⟩]
    issued := [⟨1, 0⟩, ⟨2, 0⟩, ⟨0, 0⟩] }

def builderAllocates : Ledger :=
  { twoReserved with
    heap := (Heap.alloc (.indirection ⟨1, 0⟩) twoReserved.heap).state
    issued := ⟨3, 0⟩ :: twoReserved.issued
    granted := [⟨3, 0⟩, ⟨0, 0⟩] }

def builderNests : Ledger :=
  { builderAllocates with
    heap := (Heap.openGroup 1 builderAllocates.heap).state
    groups := ⟨1, [⟨4, 0⟩]⟩ :: builderAllocates.groups
    issued := ⟨4, 0⟩ :: builderAllocates.issued }

def builderGivesUp : Ledger :=
  { builderNests with
    heap := (Heap.closeGroup 1 [⟨4, 0⟩] [] builderNests.heap).state
    groups := builderAllocates.groups
    recycled := [4] }

theorem builderGivesUp_reached : Reached (· = []) {} builderGivesUp := by
  have first : Step (· = []) (start {}) oneNode := @Step.alloc _ _ (.int 7) ⟨0, 0⟩ _ rfl
  have second : Step (· = []) oneNode twoReserved := @Step.openGroup _ _ 2 [⟨1, 0⟩, ⟨2, 0⟩] _ rfl
  have third : Step (· = []) twoReserved builderAllocates := @Step.alloc _ _ (.indirection ⟨1, 0⟩) ⟨3, 0⟩ _ rfl
  have fourth : Step (· = []) builderAllocates builderNests := @Step.openGroup _ _ 1 [⟨4, 0⟩] _ rfl
  have fifth : Step (· = []) builderNests builderGivesUp :=
    @Step.dropGroup _ _ ⟨1, [⟨4, 0⟩]⟩ _ [] (.malformed (.groupSize 0 1)) _ rfl rfl
  exact ((((Relation.ReflTransGen.single first).tail second).tail third).tail fourth).tail fifth

theorem slots_accounted_building :
    Reached (· = []) {} builderGivesUp ∧ builderGivesUp.heap.Accounted [⟨1, 0⟩, ⟨2, 0⟩] ∧
      builderGivesUp.heap.capacity = 5 ∧ builderGivesUp.heap.occupied = [0, 3] ∧ builderGivesUp.heap.free = [4] ∧
      builderGivesUp.heap.live = 4 := by
  have fits : builderGivesUp.heap.Addressable := by
    rw [Heap.Addressable, (rfl : builderGivesUp.heap.capacity = 5)]
    decide
  exact ⟨builderGivesUp_reached, ((slots_accounted builderGivesUp_reached).1 fits).1, rfl, rfl, rfl, rfl⟩

end Ledger

end LazyGraph

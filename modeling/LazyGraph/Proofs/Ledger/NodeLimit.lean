import LazyGraph.Proofs.Ledger.Accounts

/-! The limit on live nodes.

A reservation is added to the counter of live nodes and the sum is compared with the limit, in
64-bit words. A sum that is a word is compared as it is: exactly the reservations that stay
within the limit are granted, and one that is refused leaves no trace. A reservation so large
that the sum is no word any more wraps around, and is granted whatever the limit. -/

set_option autoImplicit false

namespace LazyGraph

/-! ### Reservations -/

namespace Heap

variable {heap after : Heap} {count limit : UInt64} {handles : List Handle}

/-- Counting the nodes in passes no limit: they are within it, or the sum wraps around. -/
def Admits (heap : Heap) (limit count : UInt64) : Prop :=
  heap.live.toNat + count.toNat ≤ limit.toNat ∨ UInt64.size ≤ heap.live.toNat + count.toNat

/-- On a heap within its limit, what wraps around is below the limit again. -/
theorem admits_iff (within : heap.live.toNat ≤ limit.toNat) :
    heap.Admits limit count ↔ heap.live + count ≤ limit := by
  have live := heap.live.toNat_lt
  have more := count.toNat_lt
  rw [Admits, UInt64.le_iff_toNat_le, UInt64.toNat_add]
  simp only [UInt64.size]
  omega

theorem reserve_admits (limited : heap.maxNodes = some limit) (within : heap.live.toNat ≤ limit.toNat)
    (admits : heap.Admits limit count) : ∃ counted, reserve count heap = .ok () counted := by
  have granted := UInt64.not_lt.mpr ((admits_iff within).mp admits)
  simp only [reserve, limited, if_neg granted]
  exact ⟨_, rfl⟩

theorem reserve_refused (limited : heap.maxNodes = some limit) (within : heap.live.toNat ≤ limit.toNat)
    (refused : ¬ heap.Admits limit count) : reserve count heap = .error (.exhausted (.heap limit)) heap := by
  have passed := UInt64.not_le.mp (mt (admits_iff within).mpr refused)
  simp only [reserve, limited, if_pos passed]

theorem openGroup_admits (limited : heap.maxNodes = some limit) (within : heap.live.toNat ≤ limit.toNat)
    (admits : heap.Admits limit count) : ∃ handles opened, openGroup count heap = .ok handles opened := by
  obtain ⟨counted, granted⟩ := reserve_admits limited within admits
  exact ⟨_, _, bind_ok granted⟩

/-- The builder of a group that is refused is not asked for its nodes. -/
theorem allocGroup_refused (limited : heap.maxNodes = some limit) (within : heap.live.toNat ≤ limit.toNat)
    (refused : ¬ heap.Admits limit count) (build : List Handle → Heap → List Node × Heap) :
    allocGroup count build heap = .error (.exhausted (.heap limit)) heap := by
  have some : count ≠ 0 := by
    rintro rfl
    exact refused (.inl within)
  have unopened : openGroup count heap = .error (.exhausted (.heap limit)) heap :=
    bind_error (reserve_refused limited within refused)
  rw [allocGroup, if_neg some]
  exact bind_error unopened

theorem openGroup_admits_iff (limited : heap.maxNodes = some limit) (within : heap.live.toNat ≤ limit.toNat) :
    (∃ handles opened, openGroup count heap = .ok handles opened) ↔ heap.Admits limit count := by
  refine ⟨?_, openGroup_admits limited within⟩
  rintro ⟨handles, opened, granted⟩
  by_contra refused
  have unopened : openGroup count heap = .error (.exhausted (.heap limit)) heap :=
    bind_error (reserve_refused limited within refused)
  cases granted.symm.trans unopened

theorem alloc_admits_iff (limited : heap.maxNodes = some limit) (within : heap.live.toNat ≤ limit.toNat) (node : Node) :
    (∃ handle after, alloc node heap = .ok handle after) ↔ heap.Admits limit 1 := by
  constructor
  · rintro ⟨handle, after, allocated⟩
    obtain ⟨opened, granted, _⟩ := alloc_eq_group allocated
    exact (openGroup_admits_iff limited within).mp ⟨_, opened, granted⟩
  · intro admits
    obtain ⟨counted, granted⟩ := reserve_admits limited within admits
    exact ⟨_, _, bind_ok granted⟩

theorem alloc_refused (limited : heap.maxNodes = some limit) (within : heap.live.toNat ≤ limit.toNat)
    (refused : ¬ heap.Admits limit 1) (node : Node) : alloc node heap = .error (.exhausted (.heap limit)) heap :=
  bind_error (reserve_refused limited within refused)

theorem openGroup_reserves (opened : openGroup count heap = .ok handles after) :
    ∃ counted, reserve count heap = .ok () counted ∧ after = (takeSlots count.toNat [] counted).2 := by
  cases reserved : reserve count heap with
  | ok _ counted =>
    have ended : openGroup count heap =
        .ok (takeSlots count.toNat [] counted).1 (takeSlots count.toNat [] counted).2 := bind_ok reserved
    cases opened.symm.trans ended
    exact ⟨counted, rfl, rfl⟩
  | error fault refused =>
    have ended : openGroup count heap = .error fault refused := bind_error reserved
    cases opened.symm.trans ended

theorem openGroup_within (limited : heap.maxNodes = some limit) (opened : openGroup count heap = .ok handles after) :
    after.live.toNat ≤ limit.toNat := by
  obtain ⟨counted, reserved, rfl⟩ := openGroup_reserves opened
  rw [live_takeSlots]
  unfold reserve at reserved
  rw [limited] at reserved
  dsimp only at reserved
  split at reserved
  · cases reserved
  · rename_i granted
    cases reserved
    exact UInt64.le_iff_toNat_le.mp (UInt64.not_lt.mp granted)

/-! ### The limit stays as it was set -/

theorem maxNodes_openGroup (opened : openGroup count heap = .ok handles after) : after.maxNodes = heap.maxNodes := by
  obtain ⟨counted, reserved, rfl⟩ := openGroup_reserves opened
  rw [maxNodes_takeSlots]
  unfold reserve at reserved
  split at reserved
  · split at reserved <;> cases reserved
    rfl
  · cases reserved
    rfl

theorem maxNodes_closeGroup (handles : List Handle) (nodes : List Node) :
    (closeGroup count handles nodes heap).state.maxNodes = heap.maxNodes := by
  unfold closeGroup
  split
  · exact maxNodes_fillAll _ heap
  · exact maxNodes_abandonAll handles heap

theorem maxNodes_transition (handle : Handle) (change : Slot → Option Slot) :
    (transition handle change heap).state.maxNodes = heap.maxNodes := by
  unfold transition
  split
  · rfl
  · split <;> rfl

theorem maxNodes_collect (heap : Heap) (roots : List Handle) : (heap.collect roots).2.maxNodes = heap.maxNodes := rfl

end Heap

/-! ### Steps under a limit -/

namespace Ledger

variable {within : List Group → Prop} {ledger later : Ledger} {limit : UInt64} {settings : HeapSettings}

/-- A step of the ledger that leaves the limit as it is. -/
def Capped (within : List Group → Prop) (ledger later : Ledger) : Prop :=
  Step within ledger later ∧ later.heap.maxNodes = ledger.heap.maxNodes

instance : Handling (Capped within) where
  openGroup opened := ⟨.openGroup opened, Heap.maxNodes_openGroup opened⟩
  fillGroup {ledger group _ nodes _} innermost filled := by
    refine ⟨.fillGroup innermost filled, ?_⟩
    have kept := @Heap.maxNodes_closeGroup ledger.heap group.count group.handles nodes
    rwa [filled] at kept
  dropGroup {ledger group _ nodes _ _} innermost refused := by
    refine ⟨.dropGroup innermost refused, ?_⟩
    have kept := @Heap.maxNodes_closeGroup ledger.heap group.count group.handles nodes
    rwa [refused] at kept
  write {ledger handle change _} written := by
    refine ⟨.write written, ?_⟩
    have kept := @Heap.maxNodes_transition ledger.heap handle change
    rwa [written] at kept
  noted _ _ _ := ⟨.books rfl rfl rfl, rfl⟩

/-- What can become of a heap that begins empty, under the limit it begins with. -/
def Lasts (settings : HeapSettings) (ledger : Ledger) : Prop :=
  Relation.ReflTransGen (Capped (· = [])) (start settings) ledger

theorem Lasts.reached (lasts : Lasts settings ledger) : Reached (· = []) settings ledger :=
  Relation.ReflTransGen.mono (fun _ _ capped => capped.1) _ _ lasts

theorem Lasts.maxNodes (lasts : Lasts settings ledger) : ledger.heap.maxNodes = settings.maxNodes := by
  induction lasts with
  | refl => rfl
  | tail _ capped ih => exact capped.2.trans ih

/-- Slots that are given back are counted out: with the capacity as it was, a longer free list
means fewer nodes. -/
theorem Balanced.live_le (balanced : ledger.Balanced) (balanced' : later.Balanced)
    (capacity : later.heap.capacity = ledger.heap.capacity)
    (longer : ledger.heap.free.length ≤ later.heap.free.length) :
    later.heap.live.toNat ≤ ledger.heap.live.toNat := by
  unfold Balanced at balanced balanced'
  omega

theorem Step.within_limit (step : Step (· = []) ledger later) (limited : ledger.heap.maxNodes = some limit)
    (below : ledger.heap.live.toNat ≤ limit.toNat) (balanced : ledger.Balanced) (balanced' : later.Balanced) :
    later.heap.live.toNat ≤ limit.toNat := by
  cases step with
  | alloc allocated =>
    obtain ⟨opened, granted, filled⟩ := Heap.alloc_eq_group allocated
    obtain ⟨_, rfl⟩ := Heap.closeGroup_eq_ok filled
    rw [Heap.live_fillAll]
    exact Heap.openGroup_within limited granted
  | openGroup opened => exact Heap.openGroup_within limited opened
  | fillGroup _ filled =>
    obtain ⟨_, rfl⟩ := Heap.closeGroup_eq_ok filled
    rwa [Heap.live_fillAll]
  | dropGroup innermost refused =>
    refine Nat.le_trans (balanced.live_le balanced' ?_ ?_) below
    · rw [Heap.closeGroup_eq_error refused]
      exact Heap.capacity_abandonAll _ _
    · rw [Heap.closeGroup_eq_error refused]
      show _ ≤ (List.foldl Heap.abandon _ _).free.length
      rw [Heap.free_abandonAll, List.length_append]
      exact Nat.le_add_left _ _
  | write written =>
    obtain ⟨_, _, _, live⟩ := Heap.transition_rewrites written
    rwa [live]
  | books _ _ live => rwa [live]
  | collect _ roots =>
    refine Nat.le_trans (balanced.live_le balanced' (Heap.collect_sweeps ledger.heap roots).capacity ?_) below
    rw [Heap.free_collect, List.length_append]
    exact Nat.le_add_left _ _

theorem Lasts.within_limit (lasts : Lasts settings ledger) (limited : settings.maxNodes = some limit)
    (fits : ledger.heap.Addressable) : ledger.heap.live.toNat ≤ limit.toNat := by
  induction lasts with
  | refl => exact Nat.zero_le _
  | @tail middle later lasts capped ih =>
    have earlier : middle.heap.Addressable := fits.mono capped.1.grows
    have lasts : Lasts settings middle := lasts
    have reached : Reached (· = []) settings later := lasts.reached.tail capped.1
    exact capped.1.within_limit (lasts.maxNodes.trans limited) (ih earlier) (lasts.reached.balanced earlier)
      (reached.balanced fits)

theorem Lasts.onward {heap : Heap} (lasts : Lasts settings ledger)
    (leads : Heap.Leads (Capped (· = [])) ledger.groups ledger.heap heap) :
    ∃ later, Lasts settings later ∧ later.groups = ledger.groups ∧ later.heap = heap := by
  obtain ⟨later, run, same, under⟩ := leads ledger rfl rfl
  exact ⟨later, Relation.ReflTransGen.trans lasts run, under, same⟩

/-- On a heap with a node limit, in every state: no more nodes are counted than the limit says; a
node or a group is granted exactly when the counter, with it, is within the limit or wraps
around, and one node never wraps around; what is refused is refused for the limit, asks no
builder and leaves the heap as it was. And the states are all there are: those of the builders
of groups, whatever they do, those between two transitions of a call and after it, whatever the
functions of its host do, and those after collections. -/
theorem node_limit_exact (limited : settings.maxNodes = some limit) (lasts : Lasts settings ledger) :
    (ledger.heap.Addressable →
      ledger.heap.live.toNat ≤ limit.toNat ∧
      (∀ node, (∃ handle after, Heap.alloc node ledger.heap = .ok handle after) ↔
        ledger.heap.live.toNat + 1 ≤ limit.toNat) ∧
      (∀ node, limit.toNat < ledger.heap.live.toNat + 1 →
        Heap.alloc node ledger.heap = .error (.exhausted (.heap limit)) ledger.heap) ∧
      (∀ count, (∃ handles opened, Heap.openGroup count ledger.heap = .ok handles opened) ↔
        ledger.heap.live.toNat + count.toNat ≤ limit.toNat ∨ UInt64.size ≤ ledger.heap.live.toNat + count.toNat) ∧
      (∀ count build, limit.toNat < ledger.heap.live.toNat + count.toNat →
        ledger.heap.live.toNat + count.toNat < UInt64.size →
        Heap.allocGroup count build ledger.heap = .error (.exhausted (.heap limit)) ledger.heap)) ∧
    (∀ node, ∃ later, Lasts settings later ∧ later.groups = ledger.groups ∧
      later.heap = (Heap.alloc node ledger.heap).state) ∧
    (∀ count handles opened, Heap.openGroup count ledger.heap = .ok handles opened →
      ∃ later, Lasts settings later ∧ later.groups = ⟨count, handles⟩ :: ledger.groups ∧ later.heap = opened) ∧
    (∀ (count : UInt64) (build : List Handle → Heap → List Node × Heap),
      (∀ handles heap,
        Heap.Leads (Capped (· = [])) (⟨count, handles⟩ :: ledger.groups) heap (build handles heap).2) →
      ∃ later, Lasts settings later ∧ later.groups = ledger.groups ∧
        later.heap = (Heap.allocGroup count build ledger.heap).state) ∧
    (∀ {σ : Type} (host : Host σ) (evaluator : Evaluator) (root : Handle) (state : State σ),
      host.KeepsTo (Heap.Leads (Capped (· = [])) ledger.groups) → state.world.heap = ledger.heap →
      (∀ count control reached, Machine.iterations host evaluator (.force root) (Machine.begin evaluator state) count =
          some (control, reached) →
        ∃ later, Lasts settings later ∧ later.groups = ledger.groups ∧ later.heap = reached.world.heap) ∧
      ∀ fuel result after, Machine.force host evaluator fuel root state = some (result, after) →
        ∃ later, Lasts settings later ∧ later.groups = ledger.groups ∧ later.heap = after.world.heap) ∧
    (ledger.groups = [] → ∀ roots, ∃ later, Lasts settings later ∧ later.groups = ledger.groups ∧
      later.heap = (ledger.heap.collect roots).2) := by
  refine ⟨fun fits => ?_, ?_, ?_, ?_, ?_, ?_⟩
  · have capped : ledger.heap.maxNodes = some limit := lasts.maxNodes.trans limited
    have within := lasts.within_limit limited fits
    -- a counter of addressable slots is far from wrapping around
    have one : ledger.heap.Admits limit 1 ↔ ledger.heap.live.toNat + 1 ≤ limit.toNat := by
      have balanced : ledger.heap.live.toNat + ledger.heap.free.length = ledger.heap.capacity :=
        lasts.reached.balanced fits
      simp only [Heap.Addressable, UInt32.size] at fits
      simp only [Heap.Admits, UInt64.size, UInt64.toNat_one]
      omega
    refine ⟨within, fun node => ?_, fun node passed => ?_, fun count => ?_, fun count build passed word => ?_⟩
    · rw [Heap.alloc_admits_iff capped within, one]
    · exact Heap.alloc_refused capped within (mt one.mp (Nat.not_le.mpr passed)) node
    · exact Heap.openGroup_admits_iff capped within
    · refine Heap.allocGroup_refused capped within ?_ build
      rintro (below | wraps)
      · exact Nat.not_le.mpr passed below
      · exact Nat.not_le.mpr word wraps
  · exact fun node => lasts.onward (Heap.Leads.alloc node ledger.heap)
  · exact fun count handles opened granted =>
      ⟨_, Relation.ReflTransGen.tail lasts (Handling.openGroup granted), rfl, rfl⟩
  · exact fun count build inside => lasts.onward (Heap.Leads.allocGroup count inside ledger.heap)
  · intro σ host evaluator root state keeps same
    refine ⟨fun count control reached standing => ?_, fun fuel result after ended => ?_⟩
    · have leads := Machine.iterations_upheld keeps standing
      exact lasts.onward (same ▸ leads)
    · exact lasts.onward (same ▸ Machine.force_upheld keeps ended)
  · exact fun idle roots =>
      ⟨_, Relation.ReflTransGen.tail lasts ⟨.collect idle roots, Heap.maxNodes_collect _ roots⟩, rfl, rfl⟩

/-! ### A heap for three nodes -/

-- One node is live and the builder of a group of two is at work.
def threeAtMost : HeapSettings := { maxNodes := some 3 }

def oneOfThree : Ledger :=
  { start threeAtMost with
    heap := (Heap.alloc (.int 1) (start threeAtMost).heap).state
    issued := [⟨0, 0⟩]
    granted := [⟨0, 0⟩] }

def threeOfThree : Ledger :=
  { oneOfThree with
    heap := (Heap.openGroup 2 oneOfThree.heap).state
    groups := [⟨2, [⟨1, 0⟩, ⟨2, 0⟩]⟩]
    issued := [⟨1, 0⟩, ⟨2, 0⟩, ⟨0, 0⟩] }

theorem oneOfThree_lasts : Lasts threeAtMost oneOfThree :=
  .single ⟨@Step.alloc _ _ (.int 1) ⟨0, 0⟩ _ rfl, rfl⟩

theorem threeOfThree_lasts : Lasts threeAtMost threeOfThree :=
  oneOfThree_lasts.tail ⟨@Step.openGroup _ _ 2 [⟨1, 0⟩, ⟨2, 0⟩] _ rfl, rfl⟩

theorem node_limit_exact_full :
    threeOfThree.heap.live.toNat ≤ 3 ∧
      (∀ node, Heap.alloc node threeOfThree.heap = .error (.exhausted (.heap 3)) threeOfThree.heap) ∧
      ∃ handles opened, Heap.openGroup 2 oneOfThree.heap = .ok handles opened := by
  have fits : threeOfThree.heap.Addressable := by
    rw [Heap.Addressable, (rfl : threeOfThree.heap.capacity = 3)]
    decide
  have fits' : oneOfThree.heap.Addressable := by
    rw [Heap.Addressable, (rfl : oneOfThree.heap.capacity = 1)]
    decide
  have limited : threeAtMost.maxNodes = some 3 := rfl
  obtain ⟨within, _, refused, _⟩ := (node_limit_exact limited threeOfThree_lasts).1 fits
  obtain ⟨_, _, _, opens, _⟩ := (node_limit_exact limited oneOfThree_lasts).1 fits'
  exact ⟨within, fun node => refused node (by decide), (opens 2).mpr (.inl (by decide))⟩

/-- With one node of three, a group of all but one of the 64-bit words is asked for its nodes. -/
theorem wrapping_group_granted :
    Lasts threeAtMost oneOfThree ∧ oneOfThree.heap.maxNodes = some 3 ∧
      3 < oneOfThree.heap.live.toNat + (18446744073709551615 : UInt64).toNat ∧
      (∃ handles opened, Heap.openGroup 18446744073709551615 oneOfThree.heap = .ok handles opened) ∧
      ∃ after, Heap.allocGroup 18446744073709551615 (fun _ heap => ([], heap)) oneOfThree.heap =
        .error (.malformed (.groupSize 0 18446744073709551615)) after := by
  have opens : ∃ handles opened, Heap.openGroup 18446744073709551615 oneOfThree.heap = .ok handles opened :=
    @Heap.openGroup_admits _ _ 3 rfl (by decide) (.inr (by decide))
  refine ⟨oneOfThree_lasts, rfl, by decide, opens, ?_⟩
  obtain ⟨handles, opened, granted⟩ := opens
  rw [Heap.allocGroup, if_neg (by decide), bind_ok granted]
  exact ⟨_, rfl⟩

end Ledger

end LazyGraph

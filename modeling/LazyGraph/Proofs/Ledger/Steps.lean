import LazyGraph.Heap.Census
import LazyGraph.Proofs.Heap.Slots
import Mathlib.Logic.Relation

/-! The ledger of a heap.

Beside the heap, a ledger keeps what the heap itself forgets: the groups that are being
built, the handles that were handed out, those of them that came to name a node or that a
collection took back, and how often each slot has returned to the free list. Its steps are
the operations of the heap, so that a builder of a group stands between two steps of it,
and whatever uses the heap comes to a run. -/

set_option autoImplicit false

namespace LazyGraph

structure Group where
  count : UInt64
  handles : List Handle

structure Ledger where
  heap : Heap
  -- Groups being built, the innermost first.
  groups : List Group
  issued : List Handle
  granted : List Handle
  reclaimed : List Handle
  -- Slots that went back to the free list, once for each time.
  recycled : List Nat

namespace Ledger

def start (settings : HeapSettings) : Ledger :=
  ⟨.ofSettings settings, [], [], [], [], []⟩

def reserved (ledger : Ledger) : List Handle :=
  ledger.groups.flatMap Group.handles

/-- One operation of the heap. `within` says under which groups a collection may run. -/
inductive Step (within : List Group → Prop) : Ledger → Ledger → Prop where
  | alloc {ledger : Ledger} {node : Node} {handle : Handle} {after : Heap}
      (allocated : Heap.alloc node ledger.heap = .ok handle after) :
      Step within ledger { ledger with
        heap := after
        issued := handle :: ledger.issued
        granted := handle :: ledger.granted }
  | openGroup {ledger : Ledger} {count : UInt64} {handles : List Handle} {after : Heap}
      (opened : Heap.openGroup count ledger.heap = .ok handles after) :
      Step within ledger { ledger with
        heap := after
        groups := ⟨count, handles⟩ :: ledger.groups
        issued := handles ++ ledger.issued }
  | fillGroup {ledger : Ledger} {group : Group} {rest : List Group} {nodes : List Node} {after : Heap}
      (innermost : ledger.groups = group :: rest)
      (filled : Heap.closeGroup group.count group.handles nodes ledger.heap = .ok () after) :
      Step within ledger { ledger with
        heap := after
        groups := rest
        granted := group.handles ++ ledger.granted }
  | dropGroup {ledger : Ledger} {group : Group} {rest : List Group} {nodes : List Node} {fault : Fault} {after : Heap}
      (innermost : ledger.groups = group :: rest)
      (refused : Heap.closeGroup group.count group.handles nodes ledger.heap = .error fault after) :
      Step within ledger { ledger with
        heap := after
        groups := rest
        recycled := group.handles.map (·.index.toNat) ++ ledger.recycled }
  | write {ledger : Ledger} {handle : Handle} {change : Slot → Option Slot} {after : Heap}
      (written : Heap.transition handle change ledger.heap = .ok true after) :
      Step within ledger { ledger with heap := after }
  | books {ledger : Ledger} {after : Heap} (entries : after.entries = ledger.heap.entries)
      (free : after.free = ledger.heap.free) (live : after.live = ledger.heap.live) :
      Step within ledger { ledger with heap := after }
  | collect {ledger : Ledger} (allowed : within ledger.groups) (roots : List Handle) :
      Step within ledger { ledger with
        heap := (ledger.heap.collect roots).2
        reclaimed := ledger.granted.filter (fun handle =>
          ledger.heap.contains handle && !(ledger.heap.collect roots).2.contains handle) ++ ledger.reclaimed
        recycled := ledger.heap.freed roots ++ ledger.recycled }

abbrev Run (within : List Group → Prop) : Ledger → Ledger → Prop :=
  Relation.ReflTransGen (Step within)

def Reached (within : List Group → Prop) (settings : HeapSettings) (ledger : Ledger) : Prop :=
  Run within (start settings) ledger

end Ledger

/-! ### Growth -/

namespace Ledger

variable {within : List Group → Prop} {ledger later : Ledger}

theorem Step.grows (step : Step within ledger later) : ledger.heap.capacity ≤ later.heap.capacity := by
  cases step with
  | @alloc node handle after allocated =>
    have grows : ledger.heap.capacity ≤ (Heap.alloc node ledger.heap).state.capacity :=
      (Heap.alloc_advances node ledger.heap).grows
    rw [allocated] at grows
    exact grows
  | @openGroup count handles after opened =>
    obtain ⟨counted, entries, _, _, taken⟩ := Heap.openGroup_eq_ok opened
    have grows := Heap.capacity_takeSlots count.toNat [] counted
    rw [taken, Heap.capacity, entries] at grows
    exact grows
  | fillGroup _ filled =>
    obtain ⟨_, rfl⟩ := Heap.closeGroup_eq_ok filled
    exact Nat.le_of_eq (Heap.capacity_fillAll _ _).symm
  | dropGroup _ refused =>
    cases Heap.closeGroup_eq_error refused
    exact Nat.le_of_eq (Heap.capacity_abandonAll _ _).symm
  | write written =>
    obtain ⟨_, _, rewrites, _⟩ := Heap.transition_rewrites written
    exact Nat.le_of_eq rewrites.capacity.symm
  | books entries _ _ => exact Nat.le_of_eq (congrArg Array.size entries.symm)
  | collect _ roots => exact Nat.le_of_eq (Heap.collect_sweeps _ roots).capacity.symm

theorem Run.grows (run : Run within ledger later) : ledger.heap.capacity ≤ later.heap.capacity := by
  induction run with
  | refl => exact Nat.le_refl _
  | tail _ step ih => exact Nat.le_trans ih step.grows

end Ledger

end LazyGraph

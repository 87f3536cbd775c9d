import LazyGraph.Heap.Basic

/-! A census of the heap: how full it is and what it holds. -/

set_option autoImplicit false

namespace LazyGraph

structure Census where
  capacity : Nat
  live : Nat
  free : Nat
  fragmentation : Float
  utilization : Float
  unevaluated : Nat
  kinds : List (Tag × Nat)

namespace Heap

def slots (heap : Heap) : List Slot :=
  heap.entries.toList.filterMap Entry.slot

def census (heap : Heap) : Census :=
  let slots := heap.slots
  let tally := slots.foldl (fun tally slot => tally.bump slot.node.tag) Tally.empty
  let share (count : Nat) : Float :=
    if heap.capacity = 0 then 0 else Float.ofNat count / Float.ofNat heap.capacity
  { capacity := heap.capacity
    live := slots.length
    free := heap.free.length
    fragmentation := share heap.free.length
    utilization := share slots.length
    unevaluated := slots.countP fun slot => slot.state = .unevaluated
    kinds := (Tag.all.map fun tag => (tag, tally.get tag)).filter fun kind => 0 < kind.2 }

end Heap

namespace Census

def document (census : Census) : Document :=
  .record
    [("capacity", .nat census.capacity),
     ("live_count", .nat census.live),
     ("free_list_len", .nat census.free),
     ("fragmentation", .double census.fragmentation),
     ("utilization", .double census.utilization),
     ("unevaluated_thunks", .nat census.unevaluated),
     ("kind_breakdown", .list (census.kinds.map fun kind => .list [.text kind.1.label, .nat kind.2]))]

def percent (share : Float) : String :=
  Decimal.showFixed 2 (share * 100) ++ "%"

def report (census : Census) : String :=
  let lines :=
    ["=== Heap Snapshot ===",
     s!"Capacity (slots):   {census.capacity}",
     s!"Live nodes:         {census.live}",
     s!"Free list length:   {census.free}",
     s!"Pending thunks:     {census.unevaluated}",
     "Fragmentation:      " ++ percent census.fragmentation,
     "Utilization:        " ++ percent census.utilization,
     "",
     "Breakdown by tag:"]
    ++ census.kinds.map fun kind => Text.left 14 kind.1.label ++ " " ++ Text.right 8 (toString kind.2)
  String.join (lines.map (· ++ "\n"))

end Census

end LazyGraph

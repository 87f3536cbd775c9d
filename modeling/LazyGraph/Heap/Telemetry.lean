import LazyGraph.Document
import LazyGraph.Tag

/-! Telemetry: allocations and survivals by tag, and the history of collections. -/

set_option autoImplicit false

namespace LazyGraph

structure Tally where
  counts : Vector Nat 8
  deriving DecidableEq, Repr

namespace Tally

def empty : Tally := ⟨Vector.replicate 8 0⟩

def get (tally : Tally) (tag : Tag) : Nat :=
  tally.counts[tag.position]

def bump (tally : Tally) (tag : Tag) : Tally :=
  ⟨tally.counts.set tag.position (tally.get tag + 1)⟩

def total (tally : Tally) : Nat :=
  Tag.all.foldl (fun sum tag => sum + tally.get tag) 0

end Tally

structure Cycle where
  number : Nat
  nanoseconds : Nat
  liveBefore : Nat
  liveAfter : Nat
  collected : Nat
  rootsScanned : Nat
  peakMarkStack : Nat
  thresholdBefore : UInt64
  thresholdAfter : UInt64
  deriving DecidableEq, Repr

namespace Cycle

def microseconds (cycle : Cycle) : Nat :=
  cycle.nanoseconds / 1000

def document (cycle : Cycle) : Document :=
  .record
    [("cycle_index", .nat cycle.number),
     ("duration", .nat cycle.microseconds),
     ("live_before", .nat cycle.liveBefore),
     ("live_after", .nat cycle.liveAfter),
     ("collected_count", .nat cycle.collected),
     ("roots_scanned", .nat cycle.rootsScanned),
     ("peak_mark_stack", .nat cycle.peakMarkStack),
     ("threshold_before", .nat cycle.thresholdBefore.toNat),
     ("threshold_after", .nat cycle.thresholdAfter.toNat)]

end Cycle

structure Telemetry where
  allocated : Tally := .empty
  survived : Tally := .empty
  -- Oldest first.
  cycles : Array Cycle := #[]

namespace Telemetry

def recordAllocation (telemetry : Telemetry) (tag : Tag) : Telemetry :=
  { telemetry with allocated := telemetry.allocated.bump tag }

def recordSurvival (telemetry : Telemetry) (tag : Tag) : Telemetry :=
  { telemetry with survived := telemetry.survived.bump tag }

def recordCycle (telemetry : Telemetry) (cycle : Cycle) : Telemetry :=
  { telemetry with cycles := telemetry.cycles.push cycle }

open Text in
def allocationReport (telemetry : Telemetry) : String :=
  let row (name first second : String) := left 14 name ++ " " ++ right 10 first ++ " " ++ right 10 second
  let body := Tag.all.map fun tag =>
    row tag.label (toString (telemetry.allocated.get tag)) (toString (telemetry.survived.get tag))
  let total := left 14 "TOTAL" ++ " " ++ right 10 (toString telemetry.allocated.total)
  let lines := ["=== Heap Allocation Stats ===", row "Tag" "Allocs" "Survived", rule 36]
    ++ body ++ [rule 36, total]
  String.join (lines.map (· ++ "\n"))

open Text in
def cycleReport (telemetry : Telemetry) : String :=
  let row (number duration before after collected threshold : String) :=
    right 5 number ++ " " ++ duration ++ " " ++ right 8 before ++ " " ++ right 8 after ++ " "
      ++ right 9 collected ++ " " ++ right 10 threshold
  let body := telemetry.cycles.toList.map fun cycle =>
    row (toString cycle.number) (right 8 (toString cycle.microseconds) ++ "us")
      (toString cycle.liveBefore) (toString cycle.liveAfter) (toString cycle.collected)
      (toString cycle.thresholdAfter.toNat)
  let lines :=
    if telemetry.cycles.isEmpty then ["=== GC Cycles ===", "No collections performed."]
    else ["=== GC Cycles ===", row "Cycle" (right 10 "Duration") "Before" "After" "Collected" "Threshold",
      rule 56] ++ body
  String.join (lines.map (· ++ "\n"))

end Telemetry

end LazyGraph

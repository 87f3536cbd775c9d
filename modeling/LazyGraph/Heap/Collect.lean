import LazyGraph.Heap.Arena

/-! Mark-and-sweep collection.

Marking starts from the persistent roots and the given ones and follows what nodes
hold and what their code names; one set of labels serves the whole cycle, so shared
code is read once. Every live slot left unmarked is freed under a new generation. -/

set_option autoImplicit false

namespace LazyGraph.Heap

/-- The threshold doubles when less than a quarter was collected, and is halved when
more than three quarters were. Doubling stops at one bound and halving at the other;
a threshold outside them moves by its own rule only. -/
def adaptedThreshold (threshold : UInt64) (collected before : Nat) : UInt64 :=
  if before = 0 then threshold
  else if 4 * collected < before then min (threshold * 2) maxThreshold
  else if 3 * before < 4 * collected then max (threshold / 2) minThreshold
  else threshold

def liveSlots (heap : Heap) : Nat :=
  heap.entries.countP fun entry => entry.slot.isSome

def trace (heap : Heap) (roots : List Handle) : Arena × Nat :=
  (Arena.ofEntries heap.entries).trace ∅ (.ofList roots) roots.length

/-- Runs a full collection from the persistent roots and the given ones. -/
def collect (heap : Heap) (extraRoots : List Handle) : Cycle × Heap :=
  let before := heap.liveSlots
  let roots := heap.roots.map Prod.fst ++ extraRoots
  let (arena, peak) := heap.trace roots
  let freed := arena.unmarked
  let after := before - freed.length
  let threshold := adaptedThreshold heap.threshold freed.length before
  let cycle : Cycle :=
    { number := heap.collections
      nanoseconds := 0
      liveBefore := before
      liveAfter := after
      collected := freed.length
      rootsScanned := roots.length
      peakMarkStack := peak
      thresholdBefore := heap.threshold
      thresholdAfter := threshold }
  (cycle, { heap with
    entries := arena.sweep.entries arena.sweep_clear
    free := (freed.map UInt32.ofNat).reverse ++ heap.free
    live := UInt64.ofNat after
    recent := 0
    threshold := threshold
    collections := heap.collections + 1
    telemetry := (arena.survivors.foldl Telemetry.recordSurvival heap.telemetry).recordCycle cycle })

end LazyGraph.Heap

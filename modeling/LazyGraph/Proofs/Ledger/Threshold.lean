import LazyGraph.Proofs.Ledger.Journal
import Mathlib.Tactic.Linarith

/-! The threshold of collections.

A collection doubles the threshold when it freed few of the live nodes and halves it when it
freed most of them. Doubling has an upper bound and halving a lower one; a threshold beyond
such a bound is brought to the bound. So the threshold moves in the right direction as long as
it lies on the inner side of the bound. -/

set_option autoImplicit false

namespace LazyGraph

namespace Cycle

def share (cycle : Cycle) : ℚ :=
  cycle.collected / cycle.liveBefore

structure Adapts (cycle : Cycle) : Prop where
  few : 0 < cycle.liveBefore → cycle.share < 1 / 4 →
    cycle.thresholdAfter.toNat = min (2 * cycle.thresholdBefore.toNat) 1000000
  most : 0 < cycle.liveBefore → 3 / 4 < cycle.share →
    cycle.thresholdAfter.toNat = max (cycle.thresholdBefore.toNat / 2) 1024
  between : cycle.liveBefore = 0 ∨ 1 / 4 ≤ cycle.share ∧ cycle.share ≤ 3 / 4 →
    cycle.thresholdAfter = cycle.thresholdBefore

variable {cycle : Cycle}

theorem Adapts.raises (adapts : cycle.Adapts) (some : 0 < cycle.liveBefore) (few : cycle.share < 1 / 4)
    (inside : cycle.thresholdBefore.toNat ≤ 1000000) : cycle.thresholdBefore ≤ cycle.thresholdAfter := by
  have double := adapts.few some few
  rw [UInt64.le_iff_toNat_le]
  omega

theorem Adapts.lowers (adapts : cycle.Adapts) (some : 0 < cycle.liveBefore) (most : 3 / 4 < cycle.share)
    (inside : 1024 ≤ cycle.thresholdBefore.toNat) : cycle.thresholdAfter ≤ cycle.thresholdBefore := by
  have half := adapts.most some most
  rw [UInt64.le_iff_toNat_le]
  omega

theorem Adapts.cases (adapts : cycle.Adapts) :
    cycle.thresholdAfter.toNat = min (2 * cycle.thresholdBefore.toNat) 1000000 ∨
      cycle.thresholdAfter.toNat = max (cycle.thresholdBefore.toNat / 2) 1024 ∨
        cycle.thresholdAfter = cycle.thresholdBefore := by
  rcases Nat.eq_zero_or_pos cycle.liveBefore with none | some
  · exact .inr (.inr (adapts.between (.inl none)))
  rcases lt_or_ge cycle.share (1 / 4) with few | notFew
  · exact .inl (adapts.few some few)
  rcases lt_or_ge (3 / 4) cycle.share with most | notMost
  · exact .inr (.inl (adapts.most some most))
  · exact .inr (.inr (adapts.between (.inr ⟨notFew, notMost⟩)))

end Cycle

/-! ### One collection -/

namespace Heap

variable {threshold : UInt64} {collected live : Nat}

theorem few_iff (some : 0 < live) : 4 * collected < live ↔ (collected : ℚ) / live < 1 / 4 := by
  have positive : (0 : ℚ) < live := by exact_mod_cast some
  rw [div_lt_iff₀ positive, ← Nat.cast_lt (α := ℚ)]
  push_cast
  constructor <;> intro less <;> linarith

theorem most_iff (some : 0 < live) : 3 * live < 4 * collected ↔ 3 / 4 < (collected : ℚ) / live := by
  have positive : (0 : ℚ) < live := by exact_mod_cast some
  rw [lt_div_iff₀ positive, ← Nat.cast_lt (α := ℚ)]
  push_cast
  constructor <;> intro less <;> linarith

theorem toNat_min (a b : UInt64) : (min a b).toNat = min a.toNat b.toNat := by
  show (if a ≤ b then a else b).toNat = _
  split <;> rename_i below <;> rw [UInt64.le_iff_toNat_le] at below <;> omega

theorem toNat_max (a b : UInt64) : (max a b).toNat = max a.toNat b.toNat := by
  show (if a ≤ b then b else a).toNat = _
  split <;> rename_i below <;> rw [UInt64.le_iff_toNat_le] at below <;> omega

theorem toNat_double (word : threshold.toNat < 2 ^ 63) : (threshold * 2).toNat = 2 * threshold.toNat := by
  have two : (2 : UInt64).toNat = 2 := rfl
  rw [UInt64.toNat_mul, two, Nat.mul_comm]
  exact Nat.mod_eq_of_lt (by omega)

theorem collect_adapts (heap : Heap) (roots : List Handle) (word : heap.threshold.toNat < 2 ^ 63) :
    (heap.collect roots).1.Adapts := by
  have after : (heap.collect roots).1.thresholdAfter =
      adaptedThreshold heap.threshold (heap.freed roots).length heap.liveSlots := by
    rw [collect_eq]
    rfl
  have before : (heap.collect roots).1.thresholdBefore = heap.threshold := rfl
  have live : (heap.collect roots).1.liveBefore = heap.liveSlots := rfl
  have share : (heap.collect roots).1.share = ((heap.freed roots).length : ℚ) / heap.liveSlots := by
    rw [collect_eq]
    rfl
  constructor <;> rw [after, before, live, share, adaptedThreshold]
  · intro some few
    rw [if_neg (Nat.ne_of_gt some), if_pos ((few_iff some).mpr few), toNat_min, toNat_double word]
    rfl
  · intro some most
    have notFew : ¬ 4 * (heap.freed roots).length < heap.liveSlots := by
      have := (most_iff some).mpr most
      omega
    rw [if_neg (Nat.ne_of_gt some), if_neg notFew, if_pos ((most_iff some).mpr most), toNat_max, UInt64.toNat_div]
    rfl
  · rintro (none | ⟨notFew, notMost⟩)
    · rw [if_pos none]
    · rcases Nat.eq_zero_or_pos heap.liveSlots with none | some
      · rw [if_pos none]
      · rw [if_neg (Nat.ne_of_gt some), if_neg (mt (few_iff some).mp (not_lt.mpr notFew)),
          if_neg (mt (most_iff some).mp (not_lt.mpr notMost))]

/-! ### What leaves the threshold alone -/

structure LeavesThreshold (before after : Heap) : Prop where
  threshold : after.threshold = before.threshold
  cycles : after.telemetry.cycles = before.telemetry.cycles

namespace LeavesThreshold

theorem refl (heap : Heap) : LeavesThreshold heap heap := ⟨rfl, rfl⟩

theorem trans {first second third : Heap} (early : LeavesThreshold first second)
    (late : LeavesThreshold second third) : LeavesThreshold first third :=
  ⟨late.threshold.trans early.threshold, late.cycles.trans early.cycles⟩

local instance : Std.Refl LeavesThreshold := ⟨refl⟩

local instance : Trans LeavesThreshold LeavesThreshold LeavesThreshold := ⟨trans⟩

theorem reserve (count : UInt64) : Moves LeavesThreshold (Heap.reserve count) := by
  intro heap
  unfold Heap.reserve
  split
  · split <;> exact ⟨rfl, rfl⟩
  · exact ⟨rfl, rfl⟩

theorem takeSlot (heap : Heap) : LeavesThreshold heap heap.takeSlot.2 := by
  unfold Heap.takeSlot
  split <;> exact ⟨rfl, rfl⟩

theorem takeSlots (taken : Nat) (reversed : List Handle) (heap : Heap) :
    LeavesThreshold heap (Heap.takeSlots taken reversed heap).2 := by
  induction taken generalizing reversed heap with
  | zero => exact refl heap
  | succ taken ih => exact (takeSlot heap).trans (ih _ heap.takeSlot.2)

theorem fillAll (pairs : List (Handle × Node)) (heap : Heap) :
    LeavesThreshold heap (pairs.foldl (fun heap (handle, node) => heap.fill handle node) heap) := by
  induction pairs generalizing heap with
  | nil => exact refl heap
  | cons pair pairs ih =>
    have filled : LeavesThreshold heap (heap.fill pair.1 pair.2) := ⟨rfl, rfl⟩
    exact filled.trans (ih _)

theorem abandonAll (handles : List Handle) (heap : Heap) : LeavesThreshold heap (handles.foldl abandon heap) := by
  induction handles generalizing heap with
  | nil => exact refl heap
  | cons handle handles ih =>
    have abandoned : LeavesThreshold heap (heap.abandon handle) := ⟨rfl, rfl⟩
    exact abandoned.trans (ih _)

theorem alloc (node : Node) : Moves LeavesThreshold (Heap.alloc node) := by
  refine (reserve 1).bind fun _ heap => ?_
  exact (takeSlot heap).trans ⟨rfl, rfl⟩

theorem closeGroup (count : UInt64) (handles : List Handle) (nodes : List Node) :
    Moves LeavesThreshold (Heap.closeGroup count handles nodes) := by
  intro heap
  unfold Heap.closeGroup
  split
  · exact fillAll _ heap
  · exact trans (abandonAll handles heap) ⟨rfl, rfl⟩

theorem allocGroup (count : UInt64) {build : List Handle → Heap → List Node × Heap}
    (inside : ∀ handles heap, LeavesThreshold heap (build handles heap).2) :
    Moves LeavesThreshold (Heap.allocGroup count build) := by
  unfold Heap.allocGroup
  split
  · exact Moves.pure []
  · have opens : Moves LeavesThreshold (Heap.openGroup count) :=
      (reserve count).bind fun _ heap => takeSlots count.toNat [] heap
    refine opens.bind fun handles => ?_
    have built : Moves LeavesThreshold (modifyGet (build handles) : HeapM (List Node)) := inside handles
    exact built.bind fun nodes => (closeGroup count handles nodes).bind fun _ => Moves.pure handles

theorem transition (handle : Handle) (change : Slot → Option Slot) :
    Moves LeavesThreshold (Heap.transition handle change) := by
  intro heap
  unfold Heap.transition
  split
  · exact refl heap
  · split <;> exact ⟨rfl, rfl⟩

instance : Upkeep LeavesThreshold where
  refl := refl
  trans := trans
  alloc := alloc
  allocGroup count build leaves := by
    refine allocGroup count fun handles heap => ?_
    rw [leaves]
    exact refl heap
  transition := transition
  noted _ _ _ := ⟨rfl, rfl⟩

end LeavesThreshold

/-! ### Many collections -/

/-- A collection, a new threshold below half of the words, or anything that leaves the
threshold alone. -/
inductive Tends : Heap → Heap → Prop where
  | collect (heap : Heap) (roots : List Handle) : Tends heap (heap.collect roots).2
  | set (heap : Heap) {threshold : UInt64} (word : threshold.toNat < 2 ^ 63) : Tends heap (heap.setThreshold threshold)
  | work {before after : Heap} (leaves : before.LeavesThreshold after) : Tends before after

abbrev Tended : Heap → Heap → Prop :=
  Relation.ReflTransGen Tends

variable {first heap before after : Heap}

theorem thresholdAfter_collect (heap : Heap) (roots : List Handle) :
    (heap.collect roots).2.threshold = (heap.collect roots).1.thresholdAfter := rfl

theorem toNat_setThreshold (heap : Heap) (threshold : UInt64) :
    (heap.setThreshold threshold).threshold.toNat = max threshold.toNat 1024 :=
  toNat_max threshold minThreshold

theorem Tends.word (tends : before.Tends after) (word : before.threshold.toNat < 2 ^ 63) :
    after.threshold.toNat < 2 ^ 63 ∧ (0 < before.threshold.toNat → 0 < after.threshold.toNat) := by
  cases tends with
  | collect roots =>
    rw [thresholdAfter_collect]
    have kept : (before.collect roots).1.thresholdBefore = before.threshold := rfl
    rcases (before.collect_adapts roots word).cases with double | half | same
    · rw [kept] at double
      omega
    · rw [kept] at half
      omega
    · rw [same, kept]
      exact ⟨word, id⟩
  | set word =>
    rw [toNat_setThreshold]
    omega
  | work leaves =>
    rw [leaves.threshold]
    exact ⟨word, id⟩

theorem Tended.word (tended : first.Tended heap) (word : first.threshold.toNat < 2 ^ 63) :
    heap.threshold.toNat < 2 ^ 63 ∧ (0 < first.threshold.toNat → 0 < heap.threshold.toNat) := by
  induction tended with
  | refl => exact ⟨word, id⟩
  | tail _ tends ih =>
    have next := tends.word ih.1
    exact ⟨next.1, fun positive => next.2 (ih.2 positive)⟩

/-- Every collection recorded since then has moved the threshold as it should. -/
theorem Tended.adapts (tended : first.Tended heap) (word : first.threshold.toNat < 2 ^ 63) :
    ∀ cycle ∈ heap.telemetry.cycles, cycle ∈ first.telemetry.cycles ∨ cycle.Adapts := by
  induction tended with
  | refl => exact fun cycle => .inl
  | @tail middle after tended tends ih =>
    intro cycle member
    cases tends with
    | collect roots =>
      obtain ⟨-, -, -, cycles, -⟩ := middle.books_collect roots
      rw [cycles, Array.mem_push] at member
      rcases member with member | rfl
      · exact ih cycle member
      · exact .inr (middle.collect_adapts roots (Tended.word tended word).1)
    | set _ => exact ih cycle member
    | work leaves => exact ih cycle (leaves.cycles ▸ member)

/-- Take a heap with a threshold below half of the words, and whatever happened since then:
collections, new thresholds of that size, and whatever leaves the threshold alone, as calls of
evaluators do. A collection that frees less than a quarter of the live nodes doubles the
threshold up to the upper bound, exactly, and so never lowers one that is within the bound; one
that frees more than three quarters halves it down to the lower bound, and so never raises one
that is within it; any other leaves it as it is. This holds of the next collection and of all
that were recorded. And a threshold that was positive has stayed positive. -/
theorem threshold_adapts (word : first.threshold.toNat < 2 ^ 63) (tended : first.Tended heap) :
    (∀ roots,
      let cycle := (heap.collect roots).1
      let after := (heap.collect roots).2
      cycle.thresholdBefore = heap.threshold ∧ cycle.thresholdAfter = after.threshold ∧
        cycle.liveBefore = heap.liveSlots ∧ cycle.collected = (heap.freed roots).length ∧ cycle.Adapts ∧
        (0 < cycle.liveBefore → cycle.share < 1 / 4 → heap.threshold.toNat ≤ 1000000 →
          heap.threshold ≤ after.threshold) ∧
        (0 < cycle.liveBefore → 3 / 4 < cycle.share → 1024 ≤ heap.threshold.toNat →
          after.threshold ≤ heap.threshold)) ∧
    (∀ cycle ∈ heap.telemetry.cycles, cycle ∈ first.telemetry.cycles ∨ cycle.Adapts) ∧
    (0 < first.threshold → 0 < heap.threshold) ∧
    (∀ node, heap.Tends (Heap.alloc node heap).state) ∧
    ∀ {σ : Type} (host : Host σ) (evaluator : Evaluator) (fuel : Nat) (root : Handle) (state last : State σ)
      (result : Except Fault Handle), host.KeepsTo LeavesThreshold →
      Machine.force host evaluator fuel root state = some (result, last) → state.world.heap.Tends last.world.heap := by
  obtain ⟨word', positive⟩ := tended.word word
  refine ⟨fun roots => ?_, tended.adapts word, ?_, ?_, ?_⟩
  · have adapts := heap.collect_adapts roots word'
    have collected : (heap.collect roots).1.collected = (heap.freed roots).length := by
      rw [collect_eq]
      rfl
    exact ⟨rfl, rfl, rfl, collected, adapts, adapts.raises, adapts.lowers⟩
  · simpa [UInt64.lt_iff_toNat_lt] using positive
  · exact fun node => .work (LeavesThreshold.alloc node heap)
  · exact fun host evaluator fuel root state last result keeps ended => .work (Machine.force_upheld keeps ended)

/-! ### A threshold inside the bounds, and one beyond each -/

-- One node lives under the threshold.
def oneUnder (threshold : UInt64) : Heap := (Heap.alloc (.int 7) (ofSettings { threshold := threshold })).state

theorem oneUnder_kept (threshold : UInt64) :
    (oneUnder threshold).trace ((oneUnder threshold).roots.map Prod.fst ++ [⟨0, 0⟩]) =
      ((Arena.ofEntries (oneUnder threshold).entries).mark 0, 1) :=
  @trace_leaf _ ⟨0, 0⟩ ⟨.evaluated, .int 7⟩ rfl rfl

/-- The node is kept by the first collection and freed by the second. -/
theorem threshold_adapts_twice :
    let second := ((oneUnder 600000).collect [⟨0, 0⟩]).2
    second.threshold = 1000000 ∧ (second.collect []).1.Adapts ∧ (second.collect []).2.threshold = 500000 ∧
      0 < second.threshold ∧ ∀ cycle ∈ second.telemetry.cycles, cycle.Adapts := by
  have word : (oneUnder 600000).threshold.toNat < 2 ^ 63 := by decide
  have tended : (oneUnder 600000).Tended ((oneUnder 600000).collect [⟨0, 0⟩]).2 := .single (.collect _ _)
  obtain ⟨next, recorded, positive, _⟩ := threshold_adapts word tended
  obtain ⟨_, _, _, _, adapts, _⟩ := next []
  let second := ((oneUnder 600000).collect [⟨0, 0⟩]).2
  have raised : second.threshold = 1000000 := by
    simp only [second, Heap.collect, oneUnder_kept]
    decide +kernel
  have unmarked : second.trace (second.roots.map Prod.fst ++ []) = (.ofEntries second.entries, 0) := second.trace_nil
  have lowered : (second.collect []).2.threshold = 500000 := by
    simp only [Heap.collect, unmarked]
    simp only [second, Heap.collect, oneUnder_kept]
    decide +kernel
  refine ⟨raised, adapts, lowered, positive (by decide), fun cycle member => ?_⟩
  have empty : (oneUnder 600000).telemetry.cycles = #[] := rfl
  refine (recorded cycle member).resolve_left fun before => ?_
  rw [empty] at before
  exact Array.not_mem_empty cycle before

def keptAbove : Cycle := ((oneUnder 2000000).collect [⟨0, 0⟩]).1

def freedBelow : Cycle := ((oneUnder 100).collect []).1

/-- Beyond the upper bound a collection that frees no live node lowers the threshold, and below the
lower bound one that frees them all raises it. -/
theorem collect_moves_threshold_inward :
    (0 < keptAbove.liveBefore ∧ keptAbove.share < 1 / 4 ∧ keptAbove.thresholdAfter < keptAbove.thresholdBefore) ∧
      0 < freedBelow.liveBefore ∧ 3 / 4 < freedBelow.share ∧ freedBelow.thresholdBefore < freedBelow.thresholdAfter := by
  have kept : keptAbove.collected = 0 ∧ keptAbove.liveBefore = 1 ∧ keptAbove.thresholdBefore = 2000000 ∧
      keptAbove.thresholdAfter = 1000000 := by
    simp only [keptAbove, Heap.collect, oneUnder_kept]
    decide +kernel
  have freed : freedBelow.collected = 1 ∧ freedBelow.liveBefore = 1 ∧ freedBelow.thresholdBefore = 100 ∧
      freedBelow.thresholdAfter = 1024 := by
    have unmarked : (oneUnder 100).trace ((oneUnder 100).roots.map Prod.fst ++ []) = (.ofEntries (oneUnder 100).entries, 0) :=
      (oneUnder 100).trace_nil
    simp only [freedBelow, Heap.collect, unmarked]
    decide +kernel
  obtain ⟨none, live, before, after⟩ := kept
  obtain ⟨all, live', before', after'⟩ := freed
  rw [Cycle.share, Cycle.share, none, all, live, live', before, after, before', after']
  refine ⟨⟨by decide, by norm_num, by decide⟩, by decide, by norm_num, by decide⟩

end Heap

end LazyGraph

import Std.Data.TreeSet

/-! Sets of slots, as walks over the heap need them.

A walk that enters a slot into the set before it goes on through it visits finitely
many slots: each entry leaves fewer slots below the heap's capacity unmarked. -/

set_option autoImplicit false

namespace LazyGraph

structure Marks where
  slots : Std.TreeSet Nat compare

namespace Marks

def empty : Marks := ⟨∅⟩

def contains (marks : Marks) (slot : Nat) : Bool :=
  marks.slots.contains slot

def insert (marks : Marks) (slot : Nat) : Marks :=
  ⟨marks.slots.insert slot⟩

@[simp] theorem contains_empty (slot : Nat) : empty.contains slot = false := by
  simp [contains, empty]

@[simp] theorem contains_insert (marks : Marks) (entered slot : Nat) :
    (marks.insert entered).contains slot = (entered == slot || marks.contains slot) := by
  rw [Bool.eq_iff_iff]
  simp [contains, insert, Std.TreeSet.contains_insert]

def unmarked (marks : Marks) (capacity : Nat) : Nat :=
  (List.range capacity).countP fun slot => !marks.contains slot

theorem countP_lt_countP {p q : Nat → Bool} {items : List Nat} {item : Nat} (member : item ∈ items)
    (implied : ∀ x, p x = true → q x = true) (kept : q item = true) (dropped : p item = false) :
    items.countP p < items.countP q := by
  induction items with
  | nil => cases member
  | cons head tail ih =>
    have rest : tail.countP p ≤ tail.countP q := List.countP_mono_left fun x _ => implied x
    rcases List.mem_cons.mp member with rfl | inTail
    · simp only [List.countP_cons, kept, dropped]
      simp
      omega
    · have smaller := ih inTail
      have heads : (if p head = true then 1 else 0) ≤ (if q head = true then 1 else 0 : Nat) := by
        by_cases holds : p head = true
        · simp [holds, implied head holds]
        · simp [holds]
      simp only [List.countP_cons]
      omega

theorem unmarked_insert_lt {marks : Marks} {capacity slot : Nat} (below : slot < capacity)
    (fresh : marks.contains slot = false) : (marks.insert slot).unmarked capacity < marks.unmarked capacity := by
  apply countP_lt_countP (List.mem_range.mpr below)
  · intro x
    simp
  · simp [fresh]
  · simp

end Marks

end LazyGraph

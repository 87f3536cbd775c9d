import Mathlib.Algebra.Ring.Nat
import Mathlib.Tactic.SplitIfs
import LazyGraph.Text.Column
import LazyGraph.Text.Quoted
import LazyGraph.Decimal.Layout

/-! Texts on one line.

Lines joined by line breaks can be told apart again when none of them has a break inside, and
only then: each break inside makes a piece more. Numbers and quoted text never have one. -/

set_option autoImplicit false

namespace LazyGraph

namespace Text

variable {text left right : String} {pieces : List String}

def lines (text : String) : List String :=
  (text.toList.splitOn '\n').map String.ofList

def OneLine (text : String) : Prop :=
  '\n' ∉ text.toList

instance (text : String) : Decidable (OneLine text) :=
  inferInstanceAs (Decidable ('\n' ∉ text.toList))

/-! ### Lines joined and split -/

theorem lines_intercalate (each : ∀ piece ∈ pieces, OneLine piece) (some : pieces ≠ []) :
    lines ("\n".intercalate pieces) = pieces := by
  have split : List.splitOn '\n' (['\n'].intercalate (pieces.map String.toList)) = pieces.map String.toList :=
    List.splitOn_intercalate '\n' (List.forall_mem_map.mpr each) (by simpa using some)
  rw [lines, String.toList_intercalate]
  exact (congrArg _ split).trans (by simp)

theorem length_splitOn (characters : List Char) : (characters.splitOn '\n').length = characters.count '\n' + 1 := by
  induction characters with
  | nil => simp
  | cons first others ih =>
    rw [List.splitOn_cons_eq_if_modifyHead, List.count_cons]
    split <;> simp [ih]

/-- Joined lines fall into as many pieces as there were, and one more for each break inside. -/
theorem length_lines_intercalate (some : pieces ≠ []) :
    (lines ("\n".intercalate pieces)).length = (pieces.map fun piece => piece.toList.count '\n').sum + pieces.length := by
  rw [lines, List.length_map, length_splitOn, String.toList_intercalate]
  induction pieces with
  | nil => exact absurd rfl some
  | cons first others ih =>
    cases others with
    | nil => simp
    | cons second others =>
      have later := ih (by simp)
      have between : List.count '\n' "\n".toList = 1 := by decide
      simp only [List.map_cons, List.intercalate_cons_cons, List.count_append, List.sum_cons, List.length_cons] at later ⊢
      omega

theorem oneLine_of_length (same : (lines ("\n".intercalate pieces)).length = pieces.length) :
    ∀ piece ∈ pieces, OneLine piece := by
  intro piece member
  rw [length_lines_intercalate (List.ne_nil_of_mem member), Nat.add_eq_right] at same
  exact List.count_eq_zero.mp (List.sum_eq_zero_iff_forall_eq_nat.mp same _ (List.mem_map_of_mem member))

/-! ### Parts of a line -/

@[simp] theorem oneLine_append : OneLine (left ++ right) ↔ OneLine left ∧ OneLine right := by
  simp [OneLine, not_or]

@[simp] theorem oneLine_ofList {characters : List Char} : OneLine (String.ofList characters) ↔ '\n' ∉ characters := by
  simp [OneLine]

@[simp] theorem oneLine_push {c : Char} : OneLine (text.push c) ↔ OneLine text ∧ c ≠ '\n' := by
  simp [OneLine, eq_comm, not_or]

@[simp] theorem oneLine_singleton {c : Char} : OneLine (String.singleton c) ↔ c ≠ '\n' := by
  simp [OneLine, eq_comm]

@[simp] theorem oneLine_spaces (n : Nat) : OneLine (spaces n) := by
  simp [spaces]

theorem break_not_mem_toDigits (base n : Nat) (large : 1 < base) : '\n' ∉ Nat.toDigits base n := by
  induction n using Nat.strongRecOn with
  | ind n ih =>
    have digit : ∀ d : Nat, '\n' ≠ d.digitChar := fun d => (Nat.digitChar_ne '\n' (by decide)).symm
    rw [Nat.toDigits_eq_if large]
    split
    · simp [digit]
    · rename_i further
      simp [digit, ih (n / base) (Nat.div_lt_self (by omega) large)]

@[simp] theorem oneLine_hex (n : Nat) : OneLine (hex n) :=
  oneLine_ofList.mpr (break_not_mem_toDigits 16 n (by decide))

@[simp] theorem oneLine_repr (n : Nat) : OneLine n.repr := by
  rw [Nat.repr_eq_ofList_toDigits, oneLine_ofList]
  exact break_not_mem_toDigits 10 n (by decide)

@[simp] theorem oneLine_int (n : Int) : OneLine n.repr := by
  cases n with
  | ofNat n => exact oneLine_repr n
  | negSucc n =>
    show OneLine ("-" ++ (n + 1).repr)
    exact oneLine_append.mpr ⟨by decide, oneLine_repr _⟩

/-! ### Quoted text -/

theorem oneLine_quotedChar (c : Char) : OneLine (quotedChar c) := by
  have opening : OneLine "\\u\x7b" := by decide
  have closing : OneLine "\x7d" := by decide
  unfold quotedChar
  split_ifs with isQuote isBackslash isTab isReturn isBreak
  case neg => exact oneLine_singleton.mpr isBreak
  any_goals decide
  simp [opening, closing]

@[simp] theorem oneLine_quoted (text : String) : OneLine (quoted text) := by
  have quote : OneLine "\"" := by decide
  have inside : OneLine (String.join (text.toList.map quotedChar)) := by
    simp only [OneLine, String.toList_join, List.mem_flatMap, List.mem_map]
    rintro ⟨_, ⟨c, -, rfl⟩, broken⟩
    exact oneLine_quotedChar c broken
  simp [quoted, quote, inside]

end Text

/-! ### Doubles -/

namespace Decimal

open Text (OneLine)

@[simp] theorem oneLine_zeros (n : Nat) : OneLine (zeros n) := by
  simp [zeros]

@[simp] theorem Digits.oneLine_text (d : Digits) : OneLine d.text :=
  Text.oneLine_repr d.digits

@[simp] theorem Digits.oneLine_positional (d : Digits) : OneLine d.positional := by
  have point : OneLine "." := by decide
  have zero : OneLine "0." := by decide
  have digits : '\n' ∉ d.text.toList := d.oneLine_text
  have front : '\n' ∉ d.text.toList.take d.point.toNat := fun member => digits (List.mem_of_mem_take member)
  have back : '\n' ∉ d.text.toList.drop d.point.toNat := fun member => digits (List.mem_of_mem_drop member)
  unfold Digits.positional
  split_ifs <;> simp [point, zero, front, back]

@[simp] theorem Binary.oneLine_fixed (b : Binary) (places : Nat) : OneLine (b.fixed places) := by
  have point : OneLine "." := by decide
  simp [Binary.fixed, point]

theorem Number.oneLine_text (number : Number) {magnitude : Binary → String} (each : ∀ b, OneLine (magnitude b)) :
    OneLine (number.text magnitude) := by
  cases number with
  | nan =>
    show OneLine "NaN"
    decide
  | infinite negative =>
    show OneLine (if negative then "-inf" else "inf")
    cases negative <;> decide
  | finite negative b =>
    have sign : OneLine (if negative then "-" else "") := by cases negative <;> decide
    exact Text.oneLine_append.mpr ⟨sign, each b⟩

@[simp] theorem oneLine_showDouble (value : Float) : OneLine (showDouble value) := by
  refine Number.oneLine_text _ fun b => ?_
  split
  · exact b.oneLine_fixed 1
  · exact Digits.oneLine_positional _

end Decimal

end LazyGraph

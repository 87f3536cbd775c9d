import LazyGraph.Primitive.Execute
import Mathlib.Algebra.Order.Ring.Int

/-! The laws of integer division and of its neighbours, at all 64-bit words.

A quotient is truncated toward zero and a remainder takes the sign of the dividend. Only the
least word divided by minus one has a quotient that is no word; it wraps around to the dividend,
and nothing remains. -/

set_option autoImplicit false

namespace LazyGraph.Primitive

/-! ### Words as exact integers -/

/-- The least word over minus one, the one quotient that wraps around. -/
def QuotientWraps (a b : Int64) : Prop :=
  a.toInt = -2 ^ 63 ∧ b.toInt = -1

instance (a b : Int64) : Decidable (QuotientWraps a b) := by
  unfold QuotientWraps
  infer_instance

variable {a b : Int64}

theorem QuotientWraps.words (wraps : QuotientWraps a b) : a = Int64.minValue ∧ b = -1 :=
  ⟨Int64.toInt_inj.mp wraps.1, Int64.toInt_inj.mp wraps.2⟩

theorem toInt_quotient (fits : ¬ QuotientWraps a b) : (a / b).toInt = a.toInt.tdiv b.toInt := by
  by_cases least : a = Int64.minValue
  · refine Int64.toInt_div_of_ne_right a b ?_
    rintro rfl
    exact fits ⟨by rw [least]; rfl, rfl⟩
  · exact Int64.toInt_div_of_ne_left a b least

theorem quotient_wraps (wraps : QuotientWraps a b) : a / b = a ∧ a % b = 0 := by
  obtain ⟨rfl, rfl⟩ := wraps.words
  exact ⟨by decide, by decide⟩

/-- In wrapping arithmetic the quotient and the remainder always give back the dividend. -/
theorem quotient_mul_add_remainder (a b : Int64) : a / b * b + a % b = a := by
  rw [← Int64.toInt_inj, Int64.toInt_add, Int64.toInt_mul, Int64.toInt_div, Int64.toInt_mod]
  rw [Int.bmod_mul_bmod, Int.bmod_add_bmod, Int.tdiv_mul_add_tmod]
  exact Int64.toInt_bmod a

theorem abs_remainder_lt (nonzero : b ≠ 0) : |(a % b).toInt| < |b.toInt| := by
  have nonzero' : b.toInt ≠ 0 := fun isZero => nonzero (Int64.toInt_inj.mp isZero)
  rw [Int64.toInt_mod, Int.abs_eq_natAbs, Int.abs_eq_natAbs, Int.natAbs_tmod]
  exact_mod_cast Nat.mod_lt _ (Int.natAbs_pos.mpr nonzero')

/-- A remainder that is not zero has the sign of the dividend. -/
theorem sign_remainder (a b : Int64) : a % b = 0 ∨ (a % b).toInt.sign = a.toInt.sign := by
  rw [← Int64.toInt_inj, Int64.toInt_mod, Int64.toInt_zero]
  rcases lt_trichotomy a.toInt 0 with negative | isZero | positive
  · have below : a.toInt.tmod b.toInt ≤ 0 := by
      have opposite := Int.tmod_nonneg b.toInt (Int.neg_nonneg_of_nonpos negative.le)
      rw [Int.neg_tmod] at opposite
      omega
    refine below.eq_or_lt.imp_right fun below => ?_
    rw [Int.sign_eq_neg_one_of_neg below, Int.sign_eq_neg_one_of_neg negative]
  · rw [isZero, Int.zero_tmod]
    exact .inl rfl
  · refine (Int.tmod_nonneg b.toInt positive.le).eq_or_lt'.imp_right fun above => ?_
    rw [Int.sign_eq_one_of_pos above, Int.sign_eq_one_of_pos positive]

/-! ### The operations on words -/

theorem execute_intDiv (nonzero : b ≠ 0) : execute .intDiv [.int a, .int b] = .ok (.int (a / b)) := by
  have computed : execute .intDiv [.int a, .int b] =
      Except.mapError Fault.failed (if b = 0 then .error (.divisionByZero .intDiv) else .ok (.int (a / b))) := rfl
  rw [computed, if_neg nonzero]
  rfl

theorem execute_intRem (nonzero : b ≠ 0) : execute .intRem [.int a, .int b] = .ok (.int (a % b)) := by
  have computed : execute .intRem [.int a, .int b] =
      Except.mapError Fault.failed (if b = 0 then .error (.divisionByZero .intRem) else .ok (.int (a % b))) := rfl
  rw [computed, if_neg nonzero]
  rfl

theorem execute_intLt (a b : Int64) : execute .intLt [.int a, .int b] = .ok (.bool (a < b)) := rfl

theorem execute_intLe (a b : Int64) : execute .intLe [.int a, .int b] = .ok (.bool (a ≤ b)) := rfl

theorem bool_inj {left right : Bool} : Node.bool left = Node.bool right ↔ left = right := by
  refine ⟨fun same => ?_, congrArg Node.bool⟩
  cases left <;> cases right <;> first | rfl | cases same

/-- For all words: division and remainder by a divisor that is not zero succeed, and give back
the dividend in wrapping arithmetic; the remainder is below the divisor in absolute value, and
is zero or has the sign of the dividend; the quotient is the exact one truncated toward zero,
except where that is no word, and there the quotient is the dividend and nothing remains. To
subtract is to add the negated word, and one word is below another exactly if the other is not
at most it. The least word is its own negative. -/
theorem division_laws (a b : Int64) :
    (b ≠ 0 → ∃ q r, execute .intDiv [.int a, .int b] = .ok (.int q) ∧ execute .intRem [.int a, .int b] = .ok (.int r) ∧
      (∃ p, execute .intMul [.int q, .int b] = .ok (.int p) ∧ execute .intAdd [.int p, .int r] = .ok (.int a)) ∧
      |r.toInt| < |b.toInt| ∧ (r = 0 ∨ r.toInt.sign = a.toInt.sign) ∧
      if a.toInt = -2 ^ 63 ∧ b.toInt = -1 then q = a ∧ r = 0
      else q.toInt = a.toInt.tdiv b.toInt ∧ q.toInt * b.toInt + r.toInt = a.toInt) ∧
    (∃ n d, execute .intNeg [.int b] = .ok (.int n) ∧ execute .intAdd [.int a, .int n] = .ok (.int d) ∧
      execute .intSub [.int a, .int b] = .ok (.int d)) ∧
    (execute .intLt [.int a, .int b] = .ok (.bool true) ↔ execute .intLe [.int b, .int a] = .ok (.bool false)) ∧
    execute .intNeg [.int Int64.minValue] = .ok (.int Int64.minValue) := by
  refine ⟨fun nonzero => ?_, ?_, ?_, rfl⟩
  · refine ⟨a / b, a % b, execute_intDiv nonzero, execute_intRem nonzero, ?_, abs_remainder_lt nonzero,
      sign_remainder a b, ?_⟩
    · have sum : execute .intAdd [.int (a / b * b), .int (a % b)] = .ok (.int (a / b * b + a % b)) := rfl
      rw [quotient_mul_add_remainder] at sum
      exact ⟨a / b * b, rfl, sum⟩
    · split
      · rename_i wraps
        exact quotient_wraps wraps
      · rename_i fits
        rw [toInt_quotient fits, Int64.toInt_mod, Int.tdiv_mul_add_tmod]
        exact ⟨rfl, rfl⟩
  · refine ⟨-b, a - b, rfl, ?_, rfl⟩
    rw [Int64.sub_eq_add_neg]
    rfl
  · rw [execute_intLt, execute_intLe, Except.ok.injEq, Except.ok.injEq, bool_inj, bool_inj, decide_eq_true_iff,
      decide_eq_false_iff_not, Int64.not_le]

theorem division_laws_least :
    ∃ q r, execute .intDiv [.int Int64.minValue, .int (-1)] = .ok (.int q) ∧
      execute .intRem [.int Int64.minValue, .int (-1)] = .ok (.int r) ∧ q = Int64.minValue ∧ r = 0 := by
  obtain ⟨q, r, quotient, remainder, _, _, _, wraps⟩ := (division_laws Int64.minValue (-1)).1 (by decide)
  rw [if_pos (by decide)] at wraps
  exact ⟨q, r, quotient, remainder, wraps⟩

end LazyGraph.Primitive

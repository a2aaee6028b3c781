import Mathlib.Data.Int.Basic
import Mathlib.Tactic.Linarith
import Mathlib.Tactic.Ring

/-!
# Carry and overflow from wrapped results

Numbers of some bits are added and the result is wrapped around.  The carry
and the signed overflow of the addition can be told from the operands and the
wrapped result by comparisons.
-/

namespace Oxtra
namespace Wrapped

/-! ## Carry -/

theorem wrapped_lt_iff
    {modulus first second : Nat}
    (firstLt : first < modulus)
    (secondLt : second < modulus) :
    (first + second) % modulus < first ↔ modulus ≤ first + second := by
  by_cases carries : modulus ≤ first + second
  · rw [Nat.mod_eq_sub_mod carries, Nat.mod_eq_of_lt (by omega)]
    omega
  · rw [Nat.mod_eq_of_lt (by omega)]
    omega

theorem wrapped_succ_le_iff
    {modulus first second : Nat}
    (firstLt : first < modulus)
    (secondLt : second < modulus) :
    (first + second + 1) % modulus ≤ first ↔ modulus ≤ first + second + 1 := by
  by_cases carries : modulus ≤ first + second + 1
  · rw [Nat.mod_eq_sub_mod carries, Nat.mod_eq_of_lt (by omega)]
    omega
  · rw [Nat.mod_eq_of_lt (by omega)]
    omega

/-! ## Signed numbers -/

/-- A number is a signed number of some bits. -/
def Fits (bits : Nat) (number : Int) : Prop :=
  -(2 ^ (bits - 1) : Int) ≤ number ∧ number < 2 ^ (bits - 1)

instance (bits : Nat) (number : Int) : Decidable (Fits bits number) :=
  inferInstanceAs (Decidable (_ ∧ _))

/-- The signed number with the low bits of a number. -/
def wrap (bits : Nat) (number : Int) : Int :=
  number.bmod (2 ^ bits)

theorem two_pow_eq {bits : Nat} (positive : 0 < bits) :
    2 ^ bits = 2 * 2 ^ (bits - 1) := by
  obtain ⟨bits, rfl⟩ : ∃ rest, bits = rest + 1 := ⟨bits - 1, by omega⟩
  rw [Nat.pow_succ, Nat.add_sub_cancel, Nat.mul_comm]

theorem fits_wrap {bits : Nat} (positive : 0 < bits) (number : Int) :
    Fits bits (wrap bits number) := by
  have lower := @Int.le_bmod number (2 ^ bits) (by positivity)
  have upper := @Int.bmod_lt number (2 ^ bits) (by positivity)
  have double : ((2 ^ bits : Nat) : Int) = 2 * 2 ^ (bits - 1) := by
    rw [two_pow_eq positive]
    push_cast
    rfl
  rw [double] at lower upper
  unfold Fits wrap
  omega

theorem wrap_eq_of_fits
    {bits : Nat}
    {number : Int}
    (positive : 0 < bits)
    (fits : Fits bits number) :
    wrap bits number = number := by
  have double : ((2 ^ bits : Nat) : Int) = 2 * 2 ^ (bits - 1) := by
    rw [two_pow_eq positive]
    push_cast
    rfl
  obtain ⟨lower, upper⟩ := fits
  apply Int.bmod_eq_of_le <;> rw [double] <;> omega

theorem wrap_eq_self_iff
    {bits : Nat}
    {number : Int}
    (positive : 0 < bits) :
    wrap bits number = number ↔ Fits bits number := by
  constructor
  · intro equal
    rw [← equal]
    exact fits_wrap positive number
  · exact wrap_eq_of_fits positive

/-- Numbers beyond the range wrap around once. -/
theorem wrap_eq_sub
    {bits : Nat}
    {number : Int}
    (positive : 0 < bits)
    (lower : 2 ^ (bits - 1) ≤ number)
    (upper : number < 3 * 2 ^ (bits - 1)) :
    wrap bits number = number - 2 * 2 ^ (bits - 1) := by
  have double : ((2 ^ bits : Nat) : Int) = 2 * 2 ^ (bits - 1) := by
    rw [two_pow_eq positive]
    push_cast
    rfl
  have fits : Fits bits (number - 2 * 2 ^ (bits - 1)) := by
    unfold Fits
    omega
  have wrapped := wrap_eq_of_fits positive fits
  rw [← wrapped]
  unfold wrap
  rw [← double, Int.sub_bmod_right]

theorem wrap_eq_add
    {bits : Nat}
    {number : Int}
    (positive : 0 < bits)
    (lower : -3 * 2 ^ (bits - 1) ≤ number)
    (upper : number < -2 ^ (bits - 1)) :
    wrap bits number = number + 2 * 2 ^ (bits - 1) := by
  have double : ((2 ^ bits : Nat) : Int) = 2 * 2 ^ (bits - 1) := by
    rw [two_pow_eq positive]
    push_cast
    rfl
  have fits : Fits bits (number + 2 * 2 ^ (bits - 1)) := by
    unfold Fits
    omega
  have wrapped := wrap_eq_of_fits positive fits
  rw [← wrapped]
  unfold wrap
  rw [← double, Int.add_bmod_right]

/-! ## Overflow -/

/-- Adding something that is not negative overflows if and only if the result
is less. -/
theorem wrap_add_lt_iff
    {bits : Nat}
    {number difference : Int}
    (positive : 0 < bits)
    (fits : Fits bits number)
    (lower : 0 ≤ difference)
    (upper : difference ≤ 2 ^ (bits - 1)) :
    wrap bits (number + difference) < number ↔
      ¬ Fits bits (number + difference) := by
  obtain ⟨numberLower, numberUpper⟩ := fits
  by_cases sumFits : Fits bits (number + difference)
  · rw [wrap_eq_of_fits positive sumFits]
    simp only [sumFits, not_true_eq_false, iff_false]
    omega
  · have beyond : 2 ^ (bits - 1) ≤ number + difference := by
      unfold Fits at sumFits
      omega
    rw [wrap_eq_sub positive beyond (by omega)]
    simp only [sumFits, not_false_eq_true, iff_true]
    omega

/-- Adding something that is not positive overflows if and only if the result
is greater. -/
theorem lt_wrap_add_iff
    {bits : Nat}
    {number difference : Int}
    (positive : 0 < bits)
    (fits : Fits bits number)
    (lower : -2 ^ (bits - 1) ≤ difference)
    (upper : difference ≤ 0) :
    number < wrap bits (number + difference) ↔
      ¬ Fits bits (number + difference) := by
  obtain ⟨numberLower, numberUpper⟩ := fits
  by_cases sumFits : Fits bits (number + difference)
  · rw [wrap_eq_of_fits positive sumFits]
    simp only [sumFits, not_true_eq_false, iff_false]
    omega
  · have beyond : number + difference < -2 ^ (bits - 1) := by
      unfold Fits at sumFits
      omega
    rw [wrap_eq_add positive (by omega) beyond]
    simp only [sumFits, not_false_eq_true, iff_true]
    omega

/-- Addition overflows if and only if the result is less than one operand and
the other operand is not negative, or the other way round. -/
theorem add_overflows_iff
    {bits : Nat}
    {first second : Int}
    (positive : 0 < bits)
    (firstFits : Fits bits first)
    (secondFits : Fits bits second) :
    ¬ Fits bits (first + second) ↔
      ¬ (first < 0 ↔ wrap bits (second + first) < second) := by
  obtain ⟨firstLower, firstUpper⟩ := firstFits
  have compared : wrap bits (second + first) < second ↔
      (first < 0 ↔ Fits bits (second + first)) := by
    by_cases negative : first < 0
    · have greater := lt_wrap_add_iff positive secondFits firstLower
        (by omega : first ≤ 0)
      by_cases sumFits : Fits bits (second + first)
      · rw [wrap_eq_of_fits positive sumFits]
        simp only [negative, sumFits, iff_true]
        omega
      · simp only [negative, sumFits, iff_false, not_true_eq_false]
        have := greater.mpr sumFits
        omega
    · rw [wrap_add_lt_iff positive secondFits (by omega) (by omega)]
      simp only [negative, false_iff]
  rw [compared, Int.add_comm first second]
  tauto

/-- Subtraction overflows if and only if the result is greater than the
minuend and the subtrahend is not negative, or the other way round. -/
theorem sub_overflows_iff
    {bits : Nat}
    {minuend subtrahend : Int}
    (positive : 0 < bits)
    (minuendFits : Fits bits minuend)
    (subtrahendFits : Fits bits subtrahend) :
    ¬ Fits bits (minuend - subtrahend) ↔
      ¬ (subtrahend < 0 ↔ minuend < wrap bits (minuend - subtrahend)) := by
  obtain ⟨lower, upper⟩ := subtrahendFits
  have compared : minuend < wrap bits (minuend - subtrahend) ↔
      (subtrahend < 0 ↔ Fits bits (minuend - subtrahend)) := by
    by_cases negative : subtrahend < 0
    · have less := wrap_add_lt_iff positive minuendFits
        (by omega : 0 ≤ -subtrahend) (by omega)
      rw [← Int.sub_eq_add_neg] at less
      by_cases fits : Fits bits (minuend - subtrahend)
      · rw [wrap_eq_of_fits positive fits]
        simp only [negative, fits, iff_true]
        omega
      · simp only [negative, fits, iff_false, not_true_eq_false]
        have := less.mpr fits
        omega
    · have greater := lt_wrap_add_iff positive minuendFits
        (by omega : -2 ^ (bits - 1) ≤ -subtrahend) (by omega)
      rw [← Int.sub_eq_add_neg] at greater
      rw [greater]
      simp only [negative, false_iff]
  rw [compared]
  tauto

/-- A difference fits in one order only if it wraps to the smallest number. -/
theorem fits_sub_comm_iff
    {bits : Nat}
    {first second : Int}
    (positive : 0 < bits)
    (firstFits : Fits bits first)
    (secondFits : Fits bits second) :
    (Fits bits (second - first) ↔ Fits bits (first - second)) ↔
      wrap bits (first - second) ≠ -2 ^ (bits - 1) := by
  obtain ⟨firstLower, firstUpper⟩ := firstFits
  obtain ⟨secondLower, secondUpper⟩ := secondFits
  have fits : Fits bits (first - second) ↔
      -2 ^ (bits - 1) ≤ first - second ∧ first - second < 2 ^ (bits - 1) :=
    Iff.rfl
  have reversed : Fits bits (second - first) ↔
      -2 ^ (bits - 1) ≤ second - first ∧ second - first < 2 ^ (bits - 1) :=
    Iff.rfl
  rw [fits, reversed]
  by_cases above : 2 ^ (bits - 1) ≤ first - second
  · rw [wrap_eq_sub positive above (by omega)]
    omega
  · by_cases below : first - second < -2 ^ (bits - 1)
    · rw [wrap_eq_add positive (by omega) below]
      omega
    · rw [wrap_eq_of_fits positive (fits.mpr ⟨by omega, by omega⟩)]
      omega

/-- Numbers of different signs and a carry do not overflow. -/
theorem fits_succ_of_signs
    {bits : Nat}
    {first second : Int}
    (firstFits : Fits bits first)
    (secondFits : Fits bits second)
    (signs : ¬ (first < 0 ↔ second < 0)) :
    Fits bits (first + second + 1) := by
  unfold Fits at firstFits secondFits ⊢
  omega

/-- Numbers of the same sign and a carry overflow if and only if the result
has another sign. -/
theorem fits_succ_iff_of_signs
    {bits : Nat}
    {first second : Int}
    (positive : 0 < bits)
    (firstFits : Fits bits first)
    (secondFits : Fits bits second)
    (signs : first < 0 ↔ second < 0) :
    (wrap bits (first + second + 1) < 0 ↔ first < 0) ↔
      Fits bits (first + second + 1) := by
  by_cases fits : Fits bits (first + second + 1)
  · rw [wrap_eq_of_fits positive fits]
    simp only [fits, iff_true]
    omega
  · obtain ⟨firstLower, firstUpper⟩ := firstFits
    obtain ⟨secondLower, secondUpper⟩ := secondFits
    simp only [fits, iff_false]
    unfold Fits at fits
    by_cases negative : first < 0
    · rw [wrap_eq_add positive (by omega) (by omega)]
      omega
    · rw [wrap_eq_sub positive (by omega) (by omega)]
      omega

/-- Overflow does not change when operands move to the top of longer
numbers. -/
theorem fits_mul_two_pow
    {bits : Nat}
    (shift : Nat)
    (number : Int)
    (positive : 0 < bits) :
    Fits (bits + shift) (number * 2 ^ shift) ↔ Fits bits number := by
  have scale : (2 ^ (bits + shift - 1) : Int) = 2 ^ (bits - 1) * 2 ^ shift := by
    rw [← Int.pow_add]
    congr 1
    omega
  have scalePositive : (0 : Int) < 2 ^ shift := by positivity
  unfold Fits
  rw [scale, ← Int.neg_mul]
  constructor
  · rintro ⟨lower, upper⟩
    exact ⟨Int.le_of_mul_le_mul_right lower scalePositive,
      Int.lt_of_mul_lt_mul_right upper scalePositive.le⟩
  · rintro ⟨lower, upper⟩
    exact ⟨Int.mul_le_mul_of_nonneg_right lower scalePositive.le,
      Int.mul_lt_mul_of_pos_right upper scalePositive⟩

theorem wrap_mul_two_pow
    {bits : Nat}
    (shift : Nat)
    (number : Int)
    (positive : 0 < bits) :
    wrap (bits + shift) (number * 2 ^ shift) =
      wrap bits number * 2 ^ shift := by
  have split := Int.bmod_add_bdiv number (2 ^ bits)
  have scaled : number * 2 ^ shift =
      wrap bits number * 2 ^ shift +
        ((2 ^ (bits + shift) : Nat) : Int) * number.bdiv (2 ^ bits) := by
    conv_lhs => rw [← split]
    unfold wrap
    push_cast
    ring
  rw [scaled]
  conv_lhs => rw [wrap, Int.add_mul_bmod_self_left]
  exact wrap_eq_of_fits (by omega)
    ((fits_mul_two_pow shift _ positive).mpr (fits_wrap positive number))

/-- Only the least number overflows when one is subtracted from it. -/
theorem lt_wrap_pred_iff
    {bits : Nat}
    {number : Int}
    (positive : 0 < bits)
    (fits : Fits bits number) :
    number < wrap bits (number + -1) ↔ number = -2 ^ (bits - 1) := by
  have powPositive : (0 : Int) < 2 ^ (bits - 1) := by positivity
  rw [lt_wrap_add_iff positive fits (by omega) (by omega)]
  unfold Fits at fits ⊢
  omega

/-- Only the greatest number overflows when one is added to it. -/
theorem wrap_succ_eq_iff
    {bits : Nat}
    {number : Int}
    (positive : 0 < bits)
    (fits : Fits bits number) :
    wrap bits (number + 1) = -2 ^ (bits - 1) ↔ ¬ Fits bits (number + 1) := by
  obtain ⟨lower, upper⟩ := fits
  by_cases sumFits : Fits bits (number + 1)
  · rw [wrap_eq_of_fits positive sumFits]
    unfold Fits at sumFits
    simp only [Fits]
    omega
  · have powPositive : (0 : Int) < 2 ^ (bits - 1) := by positivity
    have beyond : 2 ^ (bits - 1) ≤ number + 1 := by
      unfold Fits at sumFits
      omega
    rw [wrap_eq_sub positive beyond (by omega)]
    simp only [sumFits, not_false_eq_true, iff_true]
    omega

/-- Only the least number overflows when it is negated. -/
theorem fits_neg_iff
    {bits : Nat}
    {number : Int}
    (fits : Fits bits number) :
    Fits bits (-number) ↔ number ≠ -2 ^ (bits - 1) := by
  unfold Fits at fits ⊢
  omega

end Wrapped
end Oxtra

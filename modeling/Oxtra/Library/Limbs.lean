import Mathlib.Data.Nat.Digits.Lemmas

/-!
# Numbers in limbs

A number of several words, the lowest one first, and the sum of two such
numbers, which is made of sums of words with a carry.
-/

namespace Oxtra
namespace Limbs

/-- The number that the words stand for. -/
def value {bits : Nat} (words : List (BitVec bits)) : Nat :=
  Nat.ofDigits (2 ^ bits) (words.map BitVec.toNat)

section

variable {bits : Nat}

@[simp] theorem value_nil : value ([] : List (BitVec bits)) = 0 := rfl

@[simp] theorem value_cons (word : BitVec bits) (words : List (BitVec bits)) :
    value (word :: words) = word.toNat + 2 ^ bits * value words := by
  simp [value, Nat.ofDigits_cons]

theorem value_lt (words : List (BitVec bits)) :
    value words < (2 ^ bits) ^ words.length := by
  induction words with
  | nil => simp
  | cons word words inductionHypothesis =>
      have lower := word.isLt
      rw [value_cons, List.length_cons, Nat.pow_succ']
      calc word.toNat + 2 ^ bits * value words
          < 2 ^ bits * (value words + 1) := by
            rw [Nat.mul_succ]
            omega
        _ ≤ 2 ^ bits * (2 ^ bits) ^ words.length :=
            Nat.mul_le_mul_left _ inductionHypothesis

/-- Some words are the lower part of a sum, and the carry is its upper part. -/
def Sums
    (result first second : List (BitVec bits))
    (carryIn carryOut : Bool) : Prop :=
  value result + (2 ^ bits) ^ result.length * carryOut.toNat =
    value first + value second + carryIn.toNat

theorem Sums.nil (carry : Bool) :
    Sums ([] : List (BitVec bits)) [] [] carry carry := by
  simp [Sums]

/-- The sum of the lowest words in front of the sum of the others. -/
theorem Sums.cons
    {result first second : List (BitVec bits)}
    {carryIn carry carryOut : Bool}
    (sums : Sums result first second carry carryOut)
    {word left right : BitVec bits}
    (lowest : word.toNat + 2 ^ bits * carry.toNat =
      left.toNat + right.toNat + carryIn.toNat) :
    Sums (word :: result) (left :: first) (right :: second) carryIn
      carryOut := by
  rw [Sums] at sums ⊢
  rw [value_cons, value_cons, value_cons, List.length_cons, Nat.pow_succ']
  calc word.toNat + 2 ^ bits * value result +
        2 ^ bits * (2 ^ bits) ^ result.length * carryOut.toNat
      = word.toNat + 2 ^ bits *
          (value result + (2 ^ bits) ^ result.length * carryOut.toNat) := by
        ring
    _ = (word.toNat + 2 ^ bits * carry.toNat) +
          2 ^ bits * (value first + value second) := by
        rw [sums]
        ring
    _ = _ := by
        rw [lowest]
        ring

/-- A sum without a carry determines its words and the carry. -/
theorem Sums.exact
    {result first second : List (BitVec bits)}
    {carryOut : Bool}
    (sums : Sums result first second false carryOut) :
    value result =
        (value first + value second) % (2 ^ bits) ^ result.length ∧
      carryOut = decide
        ((2 ^ bits) ^ result.length ≤ value first + value second) := by
  have bound := value_lt result
  rw [Sums, Bool.toNat_false, Nat.add_zero] at sums
  rw [← sums]
  cases carryOut with
  | false => simpa [Nat.mod_eq_of_lt bound] using bound
  | true => simp [Nat.mod_eq_of_lt bound]

end

/-- A sum of two words and a carry. -/
theorem sum_toNat
    {bits : Nat}
    (left right : BitVec bits)
    (carry : Bool) :
    (left + right + BitVec.ofNat bits carry.toNat).toNat +
        2 ^ bits * (decide
          (2 ^ bits ≤ left.toNat + right.toNat + carry.toNat)).toNat =
      left.toNat + right.toNat + carry.toNat := by
  have leftBound := left.isLt
  have rightBound := right.isLt
  have carryBound : carry.toNat ≤ 1 := carry.toNat_le
  rw [BitVec.toNat_add, BitVec.toNat_add, BitVec.toNat_ofNat,
    ← Nat.add_mod]
  by_cases carries : 2 ^ bits ≤ left.toNat + right.toNat + carry.toNat
  · rw [decide_eq_true carries, Bool.toNat_true, Nat.mul_one,
      Nat.mod_eq_sub_mod carries, Nat.mod_eq_of_lt (by omega)]
    omega
  · rw [decide_eq_false carries, Bool.toNat_false, Nat.mul_zero,
      Nat.add_zero, Nat.mod_eq_of_lt (by omega)]

end Limbs
end Oxtra

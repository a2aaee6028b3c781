import Oxtra.Instruction.ResultFlags
import Oxtra.Instructions.Execution

/-!
# Carry and overflow of sums and differences

The entries and values that the additions and subtractions store make the
carry and the overflow of x86, if the values are those of the operands.
-/

namespace Oxtra

open RiscV
open Wrapped
open Helper
open Fadec (OperandSize)

section Parts

variable (size : OperandSize) (value : Word)

@[simp] theorem Fadec.OperandSize.width_bits : size.width.bits = size.bits := by
  rw [Width.bits, OperandSize.width_bytes, OperandSize.bits]

theorem Fadec.OperandSize.bits_pos : 0 < size.bits := by
  cases size <;> decide

theorem Fadec.OperandSize.bits_le : size.bits ≤ 64 := by
  cases size <;> decide

/-- The bits of an operand in a word. -/
theorem setWidth_bits (bits : BitVec size.bits) :
    (bits.setWidth 64).setWidth size.bits = bits :=
  (BitVec.setWidth_setWidth_of_le _ size.bits_le).trans (BitVec.setWidth_eq _)

theorem unsignedPart_size :
    unsignedPart size.width value = (value.setWidth size.bits).toNat := by
  rw [unsignedPart, OperandSize.width_bits, BitVec.toNat_setWidth]

theorem signedPart_size :
    signedPart size.width value = (value.setWidth size.bits).toInt := by
  rw [signedPart, OperandSize.width_bits, BitVec.toInt_setWidth, wrap]

theorem fits_toInt (value : BitVec size.bits) :
    Fits size.bits value.toInt := by
  rw [BitVec.toInt_eq_toNat_bmod]
  exact fits_wrap size.bits_pos _

end Parts

section Flags

variable {size : OperandSize} {dst src result : Word}
variable {first second : BitVec size.bits}

/-! ## Sums -/

/-- A sum that has wrapped is less than its operands. -/
theorem carryAdd_flag
    (srcBits : src.setWidth size.bits = second)
    (resultBits : result.setWidth size.bits = addition first second false) :
    (JumpTable.Entry.carryAdd size.width).carryFlag src result =
      some (additionFlags first second false .carry) := by
  have wrapped := wrapped_lt_iff second.isLt first.isLt
  simp only [JumpTable.Entry.carryFlag, additionFlags, resultFlags,
    unsignedPart_size, srcBits, resultBits, addition, Bool.toNat_false,
    Nat.add_zero, BitVec.toNat_add, BitVec.add_zero]
  simp only [Nat.add_comm first.toNat, wrapped]

/-- With a carry it may also be equal. -/
theorem carryAdc_flag
    (srcBits : src.setWidth size.bits = second)
    (resultBits : result.setWidth size.bits = addition first second true) :
    (JumpTable.Entry.carryAdc size.width).carryFlag src result =
      some (additionFlags first second true .carry) := by
  have wrapped := wrapped_succ_le_iff second.isLt first.isLt
  have one : 1 % 2 ^ size.bits = 1 := Nat.mod_eq_of_lt
    (Nat.one_lt_two_pow size.bits_pos.ne')
  simp only [JumpTable.Entry.carryFlag, additionFlags, resultFlags,
    unsignedPart_size, srcBits, resultBits, addition, Bool.toNat_true,
    BitVec.toNat_add, BitVec.toNat_ofNat, one, Nat.mod_add_mod]
  simp only [Nat.add_comm first.toNat, wrapped]

theorem overflowAdd_flag
    (srcBits : src.setWidth size.bits = second)
    (dstBits : dst.setWidth size.bits = first) :
    (JumpTable.Entry.overflowAdd size.width).overflowFlag src dst =
      some (additionFlags first second false .overflow) := by
  simp only [JumpTable.Entry.overflowFlag, additionFlags, resultFlags,
    signedPart_size, srcBits, dstBits, OperandSize.width_bits,
    Bool.toNat_false, Nat.cast_zero, Int.add_zero, decide_not,
    Int.add_comm first.toInt]

theorem overflowAdc_flag
    (srcBits : src.setWidth size.bits = second)
    (dstBits : dst.setWidth size.bits = first) :
    (JumpTable.Entry.overflowAdc size.width).overflowFlag src dst =
      some (additionFlags first second true .overflow) := by
  simp only [JumpTable.Entry.overflowFlag, additionFlags, resultFlags,
    signedPart_size, srcBits, dstBits, OperandSize.width_bits,
    Bool.toNat_true, Nat.cast_one, decide_not, Int.add_comm first.toInt]

/-! ## Sums and differences with an immediate -/

/-- The result of an addition of a signed number. -/
theorem toInt_of_sum
    {immediate : Int}
    (sum : result.setWidth size.bits =
      dst.setWidth size.bits + BitVec.ofInt size.bits immediate) :
    signedPart size.width result =
      wrap size.bits (signedPart size.width dst + immediate) := by
  rw [signedPart_size, signedPart_size, sum, BitVec.toInt_add,
    BitVec.toInt_ofInt, wrap, Int.add_bmod_bmod]

/-- The result is less after an overflow of a sum with something that is not
negative. -/
theorem overflowAddPos_flag
    {immediate : Int}
    (lower : 0 ≤ immediate)
    (upper : immediate ≤ 2 ^ (size.bits - 1))
    (sum : result.setWidth size.bits =
      dst.setWidth size.bits + BitVec.ofInt size.bits immediate) :
    (JumpTable.Entry.overflowAddPos size.width).overflowFlag dst result =
      some (¬ Fits size.bits
        ((dst.setWidth size.bits).toInt + immediate) : Bool) := by
  have fits := fits_signedPart size.width dst
  rw [OperandSize.width_bits, signedPart_size] at fits
  simp only [JumpTable.Entry.overflowFlag, toInt_of_sum sum, signedPart_size,
    wrap_add_lt_iff size.bits_pos fits lower upper]

theorem overflowAddNeg_flag
    {immediate : Int}
    (lower : -2 ^ (size.bits - 1) ≤ immediate)
    (upper : immediate ≤ 0)
    (sum : result.setWidth size.bits =
      dst.setWidth size.bits + BitVec.ofInt size.bits immediate) :
    (JumpTable.Entry.overflowAddNeg size.width).overflowFlag dst result =
      some (¬ Fits size.bits
        ((dst.setWidth size.bits).toInt + immediate) : Bool) := by
  have fits := fits_signedPart size.width dst
  rw [OperandSize.width_bits, signedPart_size] at fits
  simp only [JumpTable.Entry.overflowFlag, toInt_of_sum sum, signedPart_size,
    lt_wrap_add_iff size.bits_pos fits lower upper]

/-! ## Differences -/

/-- The low bits of a difference are those of its operands. -/
theorem setWidth_sub
    (size : OperandSize)
    (first second : Word) :
    (first - second).setWidth size.bits =
      first.setWidth size.bits - second.setWidth size.bits := by
  rw [BitVec.sub_eq_add_neg, BitVec.setWidth_add _ _ size.bits_le,
    BitVec.setWidth_neg_of_le size.bits_le, ← BitVec.sub_eq_add_neg]

/-- A difference that has wrapped is greater than its first operand. -/
theorem lt_sub_iff
    {bits : Nat}
    (first second : BitVec bits) :
    first.toNat < (first - second).toNat ↔ first.toNat < second.toNat := by
  have firstLt := first.isLt
  have secondLt := second.isLt
  rw [BitVec.toNat_sub]
  by_cases borrows : first.toNat < second.toNat
  · rw [Nat.mod_eq_of_lt (by omega)]
    omega
  · rw [Nat.mod_eq_sub_mod (by omega), Nat.mod_eq_of_lt (by omega)]
    omega

end Flags

end Oxtra

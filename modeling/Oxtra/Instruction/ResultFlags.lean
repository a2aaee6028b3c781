import Oxtra.Instruction.FlagEffects

/-!
# Flags of results

The flags that an operation on x86 leaves: zero, sign and parity are those of
the result, carry and overflow compare it with the result on unbounded
numbers.
-/

namespace Oxtra

open RiscV
open Wrapped
open FlagInfo
open Fadec (OperandSize)

/-! ## Flags on x86 -/

section Flags

variable {bits : Nat}

/-- The flags of a result with some carry and overflow. -/
def resultFlags (result : BitVec bits) (carry overflow : Bool) : Flag -> Bool
  | .zero => result == 0
  | .sign => result.msb
  | .parity => evenParity (result.setWidth 64)
  | .carry => carry
  | .overflow => overflow

/-- The sum of two operands and a carry. -/
def addition (first second : BitVec bits) (carry : Bool) : BitVec bits :=
  first + second + BitVec.ofNat bits carry.toNat

/-- The flags after the sum of two operands and a carry. -/
def additionFlags (first second : BitVec bits) (carry : Bool) : Flag -> Bool :=
  resultFlags (addition first second carry)
    (2 ^ bits ≤ first.toNat + second.toNat + carry.toNat)
    (¬ Fits bits (first.toInt + second.toInt + carry.toNat))

/-- The flags after the difference of two operands. -/
def subtractionFlags (first second : BitVec bits) : Flag -> Bool :=
  resultFlags (first - second) (first.toNat < second.toNat)
    (¬ Fits bits (first.toInt - second.toInt))

end Flags

/-! ## Contents of the fields -/

namespace Instruction

/-- The low byte decides about the parity. -/
theorem evenParity_congr
    {first second : Word}
    (same : ∀ index < 8, first.getLsbD index = second.getLsbD index) :
    evenParity first = evenParity second := by
  unfold evenParity
  congr 2
  apply List.countP_congr
  intro index member
  rw [same index (List.mem_range.mp member)]

theorem lowBytes_getLsbD (bytes : Nat) (value : Word) (index : Nat) :
    (lowBytes bytes value).getLsbD index =
      (decide (index < 8 * bytes) && value.getLsbD index) := by
  have power : 256 ^ bytes = 2 ^ (8 * bytes) := by
    rw [Nat.pow_mul]
  rw [BitVec.getLsbD, lowBytes_toNat, power, Nat.testBit_mod_two_pow]
  rfl

theorem lowBytes_eq_zero_iff (bytes : Nat) (value : Word) :
    lowBytes bytes value = 0 ↔ value.setWidth (8 * bytes) = 0 := by
  have power : 256 ^ bytes = 2 ^ (8 * bytes) := by
    rw [Nat.pow_mul]
  rw [← BitVec.toNat_inj, ← BitVec.toNat_inj, lowBytes_toNat,
    BitVec.toNat_setWidth, power]
  rfl

/-- The flags that depend on the result only are evaluated from its fields. -/
theorem evaluatedFlag_result
    {updated : BitVec 8}
    {flag : Flag}
    (member : flag ∈ updated)
    (notCarry : flag ≠ .carry)
    (notOverflow : flag ≠ .overflow)
    (size : OperandSize)
    (result : Word)
    (contents : Field -> Word)
    (carry overflow : Bool) :
    EvaluatedFlag (resultContents updated result size contents) flag
      (resultFlags (result.setWidth size.bits) carry overflow flag) := by
  cases flag with
  | carry => exact absurd rfl notCarry
  | overflow => exact absurd rfl notOverflow
  | zero =>
      simp only [EvaluatedFlag, resultContents, if_pos member, resultFlags]
      rw [Bool.eq_iff_iff, beq_iff_eq, beq_iff_eq, lowBytes_eq_zero_iff]
      rfl
  | sign =>
      simp only [EvaluatedFlag, resultContents, if_pos member, resultFlags]
      cases size <;>
        simp [BitVec.msb_eq_getLsbD_last, shiftAmount, OperandSize.bits,
          OperandSize.bytes]
  | parity =>
      simp only [EvaluatedFlag, resultContents, if_pos member, resultFlags]
      apply evenParity_congr
      intro index inside
      have narrow : index < size.bits := by
        cases size <;> simp only [OperandSize.bits, OperandSize.bytes] <;>
          omega
      rw [lowBytes_getLsbD, BitVec.getLsbD_setWidth, BitVec.getLsbD_setWidth]
      simp [inside, narrow, (by omega : index < 64)]

/-- The flags of a result are evaluated from its fields. -/
theorem evaluated_result
    {contents : Field -> Word}
    {size : OperandSize}
    {result : Word}
    {carry overflow : Bool}
    (carryEvaluated : ∃ entry : JumpTable.Entry,
      contents .carryOperation = entry.offset.setWidth 64 ∧
        entry.carryFlag (contents .carryFirst) (contents .carrySecond) =
          some carry)
    (overflowEvaluated : ∃ entry : JumpTable.Entry,
      contents .overflowOperation = entry.offset.setWidth 64 ∧
        entry.overflowFlag (contents .overflowFirst)
          (contents .overflowSecond) = some overflow) :
    Evaluated (resultContents Flags.all result size contents)
      (resultFlags (result.setWidth size.bits) carry overflow) where
  zero := evaluatedFlag_result (by decide : Flag.zero ∈ Flags.all)
    (by decide) (by decide) size result contents carry overflow
  sign := evaluatedFlag_result (by decide : Flag.sign ∈ Flags.all)
    (by decide) (by decide) size result contents carry overflow
  parity := evaluatedFlag_result (by decide : Flag.parity ∈ Flags.all)
    (by decide) (by decide) size result contents carry overflow
  carry := carryEvaluated
  overflow := overflowEvaluated

end Instruction
end Oxtra

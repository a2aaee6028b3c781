import Oxtra.Encoding.Effects
import Oxtra.Helper.LoadImmediate
import Oxtra.Helper.Registers
import Oxtra.Instruction.Operands

/-!
# Addresses of memory operands

The address that an x86 memory operand stands for, and the addresses that the
code for its accesses computes.
-/

namespace Oxtra
namespace Instruction

open RiscV
open Encoding
open Helper
open Fadec (Operand OperandSize)

variable (inst : Instruction)

/-! ## Effective addresses -/

/-- The value of a register of the guest, if there is one. -/
def registerValue (state : State) : Option Fadec.Register -> Word
  | some register => state.get (mapReg register)
  | none => 0

/-- The index, shifted by its scale. -/
def scaledIndex (state : State) : Word :=
  registerValue state inst.indexRegister <<< inst.indexScale.toNat

/-- The sum of base, index and displacement. -/
def linearAddress (op : Operand) (state : State) : Word :=
  registerValue state (baseRegister op) + inst.scaledIndex state +
    inst.displacement

/-- An address of the address size. -/
def truncateAddress (address : Word) : Word :=
  if inst.addressSizeQword then address else (address.setWidth 32).setWidth 64

/-- The address of an operand within its segment. -/
def operandAddress (op : Operand) (state : State) : Word :=
  inst.truncateAddress (inst.linearAddress op state)

/-- Offset of the base of the segment in the context, or zero if there is no
override that matters. -/
def segmentOffset : BitVec 16 :=
  match inst.segment with
  | .fs => ExecutionContext.fsOffset
  | .gs => ExecutionContext.gsOffset
  | _ => 0

/-- The base of the segment. -/
def segmentBase (state : State) : Word :=
  if inst.segmentOffset = 0 then
    0
  else
    state.mem.load (state.get contextAddress + signedImm inst.segmentOffset) 8

/-- The effective address of an operand. -/
def guestAddress (op : Operand) (state : State) : Word :=
  inst.operandAddress op state + inst.segmentBase state

/-- The part of an address that the code computes in front of an access. -/
def partialAddress (op : Operand) (state : State) : Word :=
  if inst.smallDisplacement then
    registerValue state (baseRegister op) + inst.scaledIndex state
  else
    inst.operandAddress op state

/-- The address that is accessed without a segment. -/
def accessedAddress (op : Operand) (state : State) : Word :=
  if inst.smallDisplacement then
    inst.linearAddress op state
  else
    inst.operandAddress op state

/-- No override of a segment that has a base. -/
def NoOverride : Prop := inst.segment ≠ .fs ∧ inst.segment ≠ .gs

/-- An address of four bytes is not longer when a small displacement has been
added to it. -/
def AddressFits (op : Operand) (state : State) : Prop :=
  inst.smallDisplacement = true -> inst.addressSizeQword = false ->
    (inst.linearAddress op state).toNat < 2 ^ 32

instance (op : Operand) (state : State) :
    Decidable (inst.AddressFits op state) :=
  inferInstanceAs (Decidable (_ → _))

section NoOverride

variable {inst}
variable (noOverride : inst.NoOverride)

include noOverride

theorem NoOverride.segmentOffset : inst.segmentOffset = 0 := by
  unfold Instruction.segmentOffset
  split
  · rename_i fs
    exact absurd fs noOverride.1
  · rename_i gs
    exact absurd gs noOverride.2
  · rfl

theorem NoOverride.segmentBase (state : State) :
    inst.segmentBase state = 0#64 := by
  rw [Instruction.segmentBase, if_pos noOverride.segmentOffset]
  rfl

theorem NoOverride.guestAddress (op : Operand) (state : State) :
    inst.guestAddress op state = inst.operandAddress op state := by
  rw [Instruction.guestAddress, noOverride.segmentBase, BitVec.add_zero]

end NoOverride

/-! ## Dependence on the registers -/

section Congruence

variable {first second : State}
variable (same : ∀ reg, first.get (mapReg reg) = second.get (mapReg reg))

include same

theorem registerValue_congr (register : Option Fadec.Register) :
    registerValue first register = registerValue second register := by
  cases register with
  | none => rfl
  | some register => exact same register

theorem linearAddress_congr (op : Operand) :
    inst.linearAddress op first = inst.linearAddress op second := by
  rw [linearAddress, linearAddress, scaledIndex, scaledIndex,
    registerValue_congr same, registerValue_congr same]

theorem operandAddress_congr (op : Operand) :
    inst.operandAddress op first = inst.operandAddress op second := by
  rw [operandAddress, operandAddress, inst.linearAddress_congr same]

theorem partialAddress_congr (op : Operand) :
    inst.partialAddress op first = inst.partialAddress op second := by
  rw [partialAddress, partialAddress, inst.operandAddress_congr same,
    scaledIndex, scaledIndex, registerValue_congr same,
    registerValue_congr same]

theorem accessedAddress_congr (op : Operand) :
    inst.accessedAddress op first = inst.accessedAddress op second := by
  rw [accessedAddress, accessedAddress, inst.linearAddress_congr same,
    inst.operandAddress_congr same]

end Congruence

/-! ## Displacements -/

theorem smallDisplacement_iff :
    inst.smallDisplacement = true ↔
      -0x800 ≤ inst.displacement.toInt ∧ inst.displacement.toInt < 0x800 := by
  rw [smallDisplacement, Bool.and_eq_true, BitVec.sle_iff_toInt_le,
    BitVec.slt_iff_toInt_lt]
  rfl

theorem signedImm_displacement
    (small : inst.smallDisplacement = true) :
    signedImm inst.displacement = inst.displacement := by
  obtain ⟨lower, upper⟩ := inst.smallDisplacement_iff.mp small
  exact signedImm_of_small lower upper

/-- The displacement that an access adds completes the address. -/
theorem partialAddress_add
    (op : Operand)
    (state : State) :
    inst.partialAddress op state + signedImm inst.operationDisplacement =
      inst.accessedAddress op state := by
  unfold partialAddress accessedAddress operationDisplacement
  by_cases small : inst.smallDisplacement = true
  · have masked : signedImm (inst.displacement &&& 0xffffffff) =
        signedImm inst.displacement := by
      have ones : (0xffffffff : BitVec 64).setWidth 12 =
          BitVec.allOnes 12 := by decide
      rw [signedImm, signedImm, BitVec.setWidth_and, ones,
        BitVec.and_allOnes]
    simp only [if_pos small, linearAddress]
    split
    · rw [inst.signedImm_displacement small]
    · rw [masked, inst.signedImm_displacement small]
  · have zero : signedImm (0 : BitVec 64) = 0#64 := by decide
    simp only [if_neg small, zero, BitVec.add_zero]

/-- The address that is accessed is not cut to the address size when the
displacement is small. -/
theorem accessedAddress_eq_iff
    (op : Operand)
    (state : State) :
    inst.accessedAddress op state = inst.operandAddress op state ↔
      (inst.smallDisplacement = true -> inst.addressSizeQword = false ->
        (inst.linearAddress op state).toNat < 2 ^ 32) := by
  have cut : ∀ address : Word,
      address = (address.setWidth 32).setWidth 64 ↔
        address.toNat < 2 ^ 32 := by
    intro address
    rw [BitVec.toNat_eq, BitVec.toNat_setWidth, BitVec.toNat_setWidth]
    omega
  unfold accessedAddress operandAddress truncateAddress
  by_cases small : inst.smallDisplacement = true
  · by_cases qword : inst.addressSizeQword = true
    · simp [small, qword]
    · simp only [if_pos small, if_neg qword, cut]
      simp [small, qword]
  · simp [small]

end Instruction
end Oxtra

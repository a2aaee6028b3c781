import Oxtra.Instruction.FieldSparing

/-!
# Code that does not load a field

The lazy information is loaded where a flag is evaluated.  The other parts of
the code load operands from the memory of the guest, and the bases of segments
from the context.
-/

namespace Oxtra

open RiscV
open Encoding
open Helper
open FlagInfo
open Fadec (Operand OperandSize)
open Instruction (UpdatesFields)

/-- Code that does not load a field through the register for the context. -/
abbrev IgnoresField (field : Field) (code : List Inst) : Prop :=
  LoadsBeside field.region code

section Parts

variable {field : Field} {code : List Inst}

theorem IgnoresField.computes
    {registers : List Register}
    (computes : ComputesInto registers code) :
    IgnoresField field code :=
  LoadsBeside.of_computesInto computes

/-- Code that stores to fields. -/
theorem IgnoresField.updates
    {temps : List Register}
    (updates : UpdatesFields temps code) :
    IgnoresField field code := by
  intro inst member
  rcases updates.each inst member with computes | stores
  · exact IgnoresField.computes (ComputesInto.cons_iff.mpr
      ⟨computes, ComputesInto.nil⟩) inst (by simp)
  · cases inst <;> first | rfl | cases stores

/-- An instruction that does not load through the register for the context. -/
theorem loadsBeside_of_base
    {inst : Inst}
    (other : inst.base ≠ some contextAddress) :
    inst.loadsBeside field.region = true := by
  cases inst
  case load kind rd rs1 imm =>
    have different : rs1 ≠ contextAddress :=
      fun same => other (congrArg some same)
    simp [Inst.loadsBeside, Field.region, different]
  all_goals rfl

end Parts

section Operands

variable {field : Field} (inst : Instruction)

theorem handleSegmentOverride_ignores (base temp : Register) :
    IgnoresField field (inst.handleSegmentOverride base temp).1 := by
  rw [Instruction.handleSegmentOverride_eq]
  split
  · refine LoadsBeside.cons_iff.mpr ⟨?_, ?_⟩
    · rename_i overrides
      revert overrides
      unfold Instruction.segmentOffset
      split <;> intro overrides
      case h_3 => exact absurd rfl overrides
      all_goals cases field <;> rfl
    · split <;> simp [Inst.loadsBeside, add]
  · exact LoadsBeside.nil

theorem loadOperand_ignores
    {base : Register}
    (free : Free base)
    (size : OperandSize)
    (signExtended : Bool)
    (rd : Register)
    (imm : BitVec 16) :
    (Instruction.loadOperand size signExtended rd base imm).loadsBeside
      field.region = true := by
  rw [Instruction.loadOperand_eq]
  exact loadsBeside_of_base fun same => free.2 (Option.some.inj same)

theorem readFromMemory_ignores
    (op : Operand)
    {dest temp : Register}
    (destFree : Free dest)
    (tempFree : Free temp)
    (signExtended : Bool) :
    IgnoresField field
      (inst.readFromMemory op dest temp signExtended).1 := by
  have base := readFromMemory_free inst op destFree tempFree signExtended
  have address : IgnoresField field (inst.readAddress op dest temp).1 :=
    .computes (inst.readAddress_computesInto dest temp)
  simp only [Instruction.readFromMemory, LoadsBeside.append_iff,
    LoadsBeside.cons_iff]
  exact ⟨⟨address, handleSegmentOverride_ignores inst _ _⟩,
    loadOperand_ignores base _ _ _ _, LoadsBeside.nil⟩

theorem writeToMemory_ignores
    (op : Operand)
    (src tempA tempB address : Register) :
    IgnoresField field (inst.writeToMemory op src tempA tempB address) := by
  have code : IgnoresField field
      (inst.writeAddress op tempA tempB address).1 :=
    .computes (inst.writeAddress_computesInto tempA tempB address)
  simp only [Instruction.writeToMemory, LoadsBeside.append_iff,
    LoadsBeside.cons_iff, Instruction.storeOperand_eq]
  exact ⟨⟨code, handleSegmentOverride_ignores inst _ _⟩, rfl,
    LoadsBeside.nil⟩

theorem translateOperand_ignores
    (op : Operand)
    {tempA tempB : Register}
    (freeA : Free tempA)
    (freeB : Free tempB)
    (modifiable fullLoad signExtend destination : Bool) :
    IgnoresField field
      (inst.translateOperand op tempA tempB modifiable fullLoad signExtend
        destination).code := by
  cases op with
  | mem size base =>
      exact readFromMemory_ignores inst _ freeA freeB signExtend
  | _ =>
      exact .computes (inst.translateOperand_computesInto rfl _ _ _ _ _ _)

theorem moveToRegister_ignores
    {dest src temp : Register}
    (access : RegisterAccess)
    (cleared : Bool) :
    IgnoresField field (moveToRegister dest src access temp cleared) :=
  .computes (moveToRegister_computesInto access cleared)

theorem translateDestination_ignores (reg address tempA tempB : Register) :
    IgnoresField field
      (inst.translateDestination reg address tempA tempB) := by
  unfold Instruction.translateDestination
  split
  · simp only
    split
    · exact moveToRegister_ignores _ _
    · exact LoadsBeside.nil
  · exact writeToMemory_ignores inst _ _ _ _ _
  all_goals exact LoadsBeside.nil

/-- The evaluation of the carry flag does not load the fields of other
flags. -/
theorem evaluateCarry_ignores (other : field.flag ≠ .carry) :
    IgnoresField field Instruction.evaluateCarry := by
  refine LoadsBeside.cons_iff.mpr ⟨?_, by simp [JumpTable.jumpTableOffset,
    Inst.loadsBeside, add, jalr]⟩
  cases field <;> first | exact absurd rfl other | rfl

end Operands
end Oxtra

import Oxtra.Helper.LoadImmediate
import Oxtra.Instruction.FlagUpdates
import Oxtra.Instruction.Operands

/-!
# Lengths of operands and updates

How many instructions the accesses to operands have, for any displacement, and
the updates of the lazy information, for any update set.
-/

namespace Oxtra

open RiscV
open Encoding
open Helper
open FlagInfo
open Fadec (Operand OperandSize)

namespace Helper

theorem moveToRegister_length
    (dest src : Register)
    (access : RegisterAccess)
    (temp : Register)
    (cleared : Bool) :
    (moveToRegister dest src access temp cleared).length ≤ 5 := by
  unfold moveToRegister
  cases access <;> simp only [] <;> try split
  all_goals simp

theorem loadFromRegister_length
    (src : Register)
    (access : RegisterAccess)
    (temp : Register)
    (modifiable fullLoad signExtend : Bool) :
    (loadFromRegister src access temp modifiable fullLoad
      signExtend).1.length ≤ 2 := by
  unfold loadFromRegister
  repeat' split
  all_goals simp

end Helper

namespace Instruction

variable (inst : Instruction)

/-! ## Operands -/

theorem translateIndex_length (hasBase : Bool) (dst temp : Register) :
    (inst.translateIndex hasBase dst temp).1.length ≤ 1 := by
  unfold translateIndex
  split
  · split <;> simp
  · simp

theorem translateBase_length
    (base : Option Fadec.Register)
    (dst result : Register) :
    (translateBase base dst result).1.length ≤ 1 := by
  unfold translateBase
  repeat' split
  all_goals simp

theorem translateDisplacement_length (dst temp result : Register) :
    (inst.translateDisplacement dst temp result).1.length ≤ 9 := by
  have toDst := length_loadImmediate_le inst.displacement dst
  have toTemp := length_loadImmediate_le inst.displacement temp
  unfold translateDisplacement
  repeat' split
  all_goals
    simp only [List.length_append, List.length_cons, List.length_nil]
    omega

theorem translateMemory_length
    (op : Operand)
    (dst temp : Register)
    (forceDst : Bool) :
    (inst.translateMemory op dst temp forceDst).1.length ≤ 13 := by
  have index := inst.translateIndex_length (baseRegister op).isSome dst temp
  have base := translateBase_length (baseRegister op) dst
    (inst.translateIndex (baseRegister op).isSome dst temp).2
  have displacement := inst.translateDisplacement_length dst temp
    (translateBase (baseRegister op) dst
      (inst.translateIndex (baseRegister op).isSome dst temp).2).2
  unfold translateMemory
  simp only []
  repeat' split
  all_goals
    simp only [List.length_append, List.length_cons, List.length_nil]
    omega

theorem handleSegmentOverride_length (base temp : Register) :
    (inst.handleSegmentOverride base temp).1.length ≤ 2 := by
  unfold handleSegmentOverride
  simp only []
  repeat' split
  all_goals simp

theorem readAddress_length (op : Operand) (dest temp : Register) :
    (inst.readAddress op dest temp).1.length ≤ 13 := by
  have computed := inst.translateMemory_length op temp dest false
  unfold readAddress
  repeat' split
  all_goals first
    | omega
    | simp only [List.length_cons, List.length_nil]; omega

theorem readFromMemory_length
    (op : Operand)
    (dest temp : Register)
    (signExtended : Bool) :
    (inst.readFromMemory op dest temp signExtended).1.length ≤ 16 := by
  have address := inst.readAddress_length op dest temp
  have segment := inst.handleSegmentOverride_length
    (inst.readAddress op dest temp).2
    (if (inst.readAddress op dest temp).2 = temp then dest else temp)
  simp only [readFromMemory, List.length_append, List.length_cons,
    List.length_nil]
  omega

theorem writeAddress_length (op : Operand) (tempA tempB address : Register) :
    (inst.writeAddress op tempA tempB address).1.length ≤ 13 := by
  have computed := inst.translateMemory_length op tempA tempB false
  unfold writeAddress
  repeat' split
  all_goals first
    | omega
    | simp only [List.length_cons, List.length_nil]; omega

theorem writeToMemory_length
    (op : Operand)
    (src tempA tempB address : Register) :
    (inst.writeToMemory op src tempA tempB address).length ≤ 16 := by
  have code := inst.writeAddress_length op tempA tempB address
  have segment := inst.handleSegmentOverride_length
    (inst.writeAddress op tempA tempB address).2
    (if (inst.writeAddress op tempA tempB address).2 = tempA then tempB
      else tempA)
  simp only [writeToMemory, List.length_append, List.length_cons,
    List.length_nil]
  omega

theorem translateOperand_length
    (op : Operand)
    (tempA tempB : Register)
    (modifiable fullLoad signExtend destination : Bool) :
    (inst.translateOperand op tempA tempB modifiable fullLoad signExtend
      destination).code.length ≤ 16 := by
  cases op with
  | none => exact Nat.zero_le _
  | mem size base => exact inst.readFromMemory_length _ tempA tempB signExtend
  | imm size =>
      have loaded := length_loadImmediate_le
        (inst.maskedImmediate size fullLoad signExtend) tempA
      simp only [translateOperand]
      omega
  | reg size register type =>
      have loaded := loadFromRegister_length (mapRegType register type)
        (RegisterAccess.ofType size type) tempA modifiable fullLoad signExtend
      unfold translateOperand
      simp only []
      split
      · exact Nat.zero_le _
      · simp only []
        omega

theorem translateDestination_length (reg address tempA tempB : Register) :
    (inst.translateDestination reg address tempA tempB).length ≤ 16 := by
  unfold translateDestination
  split
  · rename_i size register type _
    have moved := moveToRegister_length (mapRegType register type) reg
      (RegisterAccess.ofType size type) tempA false
    simp only []
    split
    · omega
    · exact Nat.zero_le _
  · exact inst.writeToMemory_length _ reg tempA tempB address
  · exact Nat.zero_le _
  · exact Nat.zero_le _

/-! ## Updates -/

theorem updating_length (flag : Flag) (code : List Inst) :
    (inst.updating flag code).length ≤ code.length := by
  unfold updating
  split
  · exact Nat.le_refl _
  · exact Nat.zero_le _

theorem updateZero_length (va : Register) (size : OperandSize) :
    (inst.updateZero va size).length ≤ 2 := by
  refine (inst.updating_length _ _).trans ?_
  cases size <;> simp

theorem updateSign_length
    (va : Register)
    (size : OperandSize)
    (temp : Register) :
    (inst.updateSign va size temp).length ≤ 3 :=
  inst.updating_length _ _

theorem updateParity_length (va : Register) :
    (inst.updateParity va).length ≤ 1 :=
  inst.updating_length _ _

theorem OperationFields.storeValue_length
    (fields : OperationFields)
    (index : BitVec 32)
    (value : Option Register) :
    (fields.storeValue index value).length ≤ 1 := by
  cases value <;> simp [storeValue]

theorem updateOperation_length
    (fields : OperationFields)
    (entry : Option JumpTable.Entry)
    (va vb : Option Register)
    (temp : Register) :
    (inst.updateOperation fields entry va vb temp).length ≤ 4 := by
  have first := fields.storeValue_length 0 va
  have second := fields.storeValue_length 1 vb
  refine (inst.updating_length _ _).trans ?_
  cases entry <;>
    simp only [OperationFields.storeEntry, List.length_append,
      List.length_cons, List.length_nil] <;>
    omega

theorem setCarry_length (set : Bool) (temp : Register) :
    (inst.setCarry set temp).length ≤ 2 :=
  inst.updating_length _ _

theorem setOverflow_length (set : Bool) (temp : Register) :
    (inst.setOverflow set temp).length ≤ 2 :=
  inst.updating_length _ _

theorem updateUnsupported_length
    (fields : OperationFields)
    (entry : JumpTable.Entry)
    (name : BitVec 64)
    (temp : Register) :
    (inst.updateUnsupported fields entry name temp).length ≤ 11 := by
  have loaded := length_loadImmediate_le name temp
  refine (inst.updating_length _ _).trans ?_
  simp only [OperationFields.storeEntry, List.length_append, List.length_cons,
    List.length_nil]
  omega

end Instruction
end Oxtra

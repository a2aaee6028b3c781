import Oxtra.Helper
import Oxtra.Instruction

/-!
# Access to the operands

An instruction object makes the code that loads an operand into a register and
that writes a register to its destination.  The registers it uses for the
result and for temporaries are chosen by the caller.
-/

namespace Oxtra
namespace Instruction

open RiscV
open Encoding
open Helper
open Fadec (Operand OperandSize)

variable (inst : Instruction)

/-! ## Addresses -/

/-- The displacement fits into an immediate of twelve bits. -/
def smallDisplacement : Bool :=
  (-0x800 : BitVec 64).sle inst.displacement && inst.displacement.slt 0x800

/-- The base register of a memory operand. -/
def baseRegister : Operand -> Option Fadec.Register
  | .mem _ base => base
  | _ => none

/-- Shift the index register by its scale. -/
def scaleIndex (dst : Register) (index : Fadec.Register) : Inst :=
  slli dst (mapReg index) (inst.indexScale.setWidth 8)

/-- The index in `translate_memory`, and the register that has it. -/
def translateIndex (hasBase : Bool) (dst temp : Register) :
    List Inst × Register :=
  match inst.indexRegister with
  | some index =>
      if inst.indexScale = 0 then
        ([], mapReg index)
      else
        -- The base may be the destination.
        let result := if hasBase then temp else dst
        ([inst.scaleIndex result index], result)
  | none => ([], .zero)

/-- The base in `translate_memory`, which is added to the index. -/
def translateBase
    (base : Option Fadec.Register)
    (dst result : Register) : List Inst × Register :=
  match base with
  | some base =>
      if result ≠ .zero then
        ([add dst result (mapReg base)], dst)
      else
        ([], mapReg base)
  | none => ([], result)

/-- The displacement in `translate_memory`. -/
def translateDisplacement (dst temp result : Register) :
    List Inst × Register :=
  if inst.displacement ≠ 0 then
    if inst.smallDisplacement then
      ([addi dst result (inst.displacement.setWidth 16)], dst)
    else if result = .zero then
      (loadImmediate inst.displacement dst, dst)
    else
      (loadImmediate inst.displacement temp ++ [add dst result temp], dst)
  else
    ([], result)

/-- `translate_memory` -/
def translateMemory
    (op : Operand)
    (dst temp : Register)
    (forceDst : Bool) : List Inst × Register :=
  let base := baseRegister op
  let (index, result) := inst.translateIndex base.isSome dst temp
  let (base, result) := translateBase base dst result
  let (displacement, result) := inst.translateDisplacement dst temp result
  let code := index ++ base ++ displacement
  if ¬inst.addressSizeQword then
    (code ++ [slli dst result 32, srli dst dst 32], dst)
  else if forceDst ∧ result ≠ dst then
    (code ++ [mv dst result], dst)
  else
    (code, result)

/-- `handle_segment_override` -/
def handleSegmentOverride (base temp : Register) : List Inst × Register :=
  let offset : BitVec 16 :=
    match inst.segment with
    | .fs => ExecutionContext.fsOffset
    | .gs => ExecutionContext.gsOffset
    | _ => 0
  if offset ≠ 0 then
    (ld temp contextAddress offset ::
      (if base ≠ .zero then [add temp base temp] else []), temp)
  else
    ([], base)

/-- The part of the displacement that an access adds by itself. -/
def operationDisplacement : BitVec 64 :=
  if inst.smallDisplacement then
    if inst.addressSizeQword then
      inst.displacement
    else
      inst.displacement &&& 0xffffffff
  else
    0

/-! ## Memory operands -/

/-- The address in `read_from_memory`, up to a small displacement. -/
def readAddress (op : Operand) (dest temp : Register) :
    List Inst × Register :=
  if inst.smallDisplacement then
    match (baseRegister op).map mapReg, inst.indexRegister with
    | base, none => ([], base.getD .zero)
    | some base, some index =>
        if inst.indexScale = 0 then
          ([add temp base (mapReg index)], temp)
        else
          ([inst.scaleIndex temp index, add temp temp base], temp)
    | none, some index =>
        if inst.indexScale = 0 then
          ([], mapReg index)
        else
          ([inst.scaleIndex temp index], temp)
  else
    inst.translateMemory op temp dest false

/-- The load of an operand. -/
def loadOperand
    (size : OperandSize)
    (signExtended : Bool) : Register -> Register -> BitVec 16 -> Inst :=
  match size with
  | .qword => ld
  | .dword => if signExtended then lw else lwu
  | .word => if signExtended then lh else lhu
  | .byte => if signExtended then lb else lbu

/-- The store of an operand. -/
def storeOperand (size : OperandSize) :
    Register -> Register -> BitVec 32 -> Inst :=
  match size with
  | .qword => sd
  | .dword => sw
  | .word => sh
  | .byte => sb

/-- `read_from_memory`, with the register that has the address. -/
def readFromMemory
    (op : Operand)
    (dest temp : Register)
    (signExtended : Bool) : List Inst × Register :=
  let (address, base) := inst.readAddress op dest temp
  let (segment, base) :=
    inst.handleSegmentOverride base (if base = temp then dest else temp)
  (address ++ segment ++
    [loadOperand op.size signExtended dest base
      (inst.operationDisplacement.setWidth 16)], base)

/-- The address in `write_to_memory`, up to a small displacement, unless it is
known from reading the operand. -/
def writeAddress (op : Operand) (tempA tempB address : Register) :
    List Inst × Register :=
  if address ≠ .zero then
    ([], address)
  else if inst.smallDisplacement then
    match (baseRegister op).map mapReg, inst.indexRegister with
    | base, none => ([], base.getD .zero)
    | some base, some index =>
        if inst.indexScale = 0 then
          ([add tempA base (mapReg index)], tempA)
        else
          ([inst.scaleIndex tempB index, add tempA tempB base], tempA)
    | none, some index =>
        if inst.indexScale = 0 then
          ([], mapReg index)
        else
          ([inst.scaleIndex tempA index], tempA)
  else
    inst.translateMemory op tempA tempB false

/-- `write_to_memory` -/
def writeToMemory
    (op : Operand)
    (src tempA tempB address : Register) : List Inst :=
  let (code, address) := inst.writeAddress op tempA tempB address
  let (segment, address) :=
    inst.handleSegmentOverride address
      (if address = tempA then tempB else tempA)
  code ++ segment ++
    [storeOperand op.size address src
      (inst.operationDisplacement.setWidth 32)]

/-! ## Any operands -/

/-- Code that loads an operand, the register that has the value, and the
register that has the address of an operand in memory. -/
structure Translation where
  code : List Inst
  value : Register
  address : Register := .zero
  deriving DecidableEq, Repr

/-- The immediate that an operand is loaded with. -/
def maskedImmediate
    (size : OperandSize)
    (fullLoad signExtend : Bool) : BitVec 64 :=
  if size ≠ .qword ∧ ¬signExtend ∧ ¬fullLoad then
    inst.immediate &&& (BitVec.allOnes 64 >>> (64 - size.bits))
  else
    inst.immediate

/-- `translate_operand` -/
def translateOperand
    (op : Operand)
    (tempA tempB : Register)
    (modifiable fullLoad signExtend destination : Bool) : Translation :=
  match op with
  | .mem .. =>
      let (code, address) := inst.readFromMemory op tempA tempB signExtend
      { code := code, value := tempA, address := address }
  | .reg size register type =>
      let mapped := mapRegType register type
      if destination ∧ 4 ≤ size.bytes ∧ (¬fullLoad ∨ size = .qword) then
        { code := [], value := mapped }
      else
        let (code, value) := loadFromRegister mapped
          (RegisterAccess.ofType size type) tempA modifiable fullLoad signExtend
        { code := code, value := value }
  | .imm size =>
      { code := loadImmediate
          (inst.maskedImmediate size fullLoad signExtend) tempA
        value := tempA }
  | .none => { code := [], value := .zero }

/-- `translate_destination` -/
def translateDestination (reg address tempA tempB : Register) : List Inst :=
  match inst.getOperand 0 with
  | .reg size register type =>
      let mapped := mapRegType register type
      if size ≠ .qword ∨ mapped ≠ reg then
        moveToRegister mapped reg (RegisterAccess.ofType size type) tempA false
      else
        []
  | .mem size base => inst.writeToMemory (.mem size base) reg tempA tempB address
  | .imm _ | .none => []

end Instruction
end Oxtra

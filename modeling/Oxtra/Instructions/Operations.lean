import Oxtra.FlagEvaluation.Dispatch
import Oxtra.Instruction.FlagUpdates
import Oxtra.Instruction.Operands

/-!
# Operations with a destination

The arithmetic and logical instructions with two operands or with one, and the
comparisons.  The base class loads the operands, updates the zero, sign and
parity flag and writes the result back; a subclass computes the result and
updates the carry and the overflow flag.
-/

namespace Oxtra

open RiscV
open Encoding
open Helper
open Fadec (OperandSize)

/-- The width of the accesses to operands of a size. -/
def Fadec.OperandSize.width : OperandSize -> Width
  | .byte => .byte
  | .word => .half
  | .dword => .word
  | .qword => .double

@[simp] theorem Fadec.OperandSize.width_bytes (size : OperandSize) :
    size.width.bytes = size.bytes := by
  cases size <;> rfl

namespace Instruction

variable (inst : Instruction)

/-- Size of the first operand. -/
def destinationSize : OperandSize := (inst.getOperand 0).size

/-- The register of the first operand, for an operand in a register. -/
def firstRegister : Register :=
  match inst.getOperand 0 with
  | .reg _ register _ => mapReg register
  | _ => rax

/-- `calculate_entries` for the size of the first operand. -/
def destinationEntries
    (carry overflow : Width -> JumpTable.Entry) :
    JumpTable.Entry × JumpTable.Entry :=
  (carry inst.destinationSize.width, overflow inst.destinationSize.width)

theorem calculateEntries_destination
    (carry overflow : Width -> JumpTable.Entry) :
    calculateEntries carry overflow inst.destinationSize.bytes =
      some (inst.destinationEntries carry overflow) := by
  unfold destinationEntries
  cases inst.destinationSize <;> rfl

/-- The immediate fits into an instruction. -/
def smallImmediate : Bool :=
  (-0x800 : BitVec 64).sle inst.immediate && inst.immediate.slt 0x800

/-- The second operand in a register, if it is not a small immediate. -/
def translateSource : Translation :=
  let src := inst.getOperand 1
  if src.isImm ∧ inst.smallImmediate then
    { code := [], value := .zero }
  else
    inst.translateOperand src .t2 .t3 false false false false

end Instruction

/-! ## Operations on two operands -/

namespace Add

/-- `Add::execute_operation` for a register. -/
def executeRegister (inst : Instruction) (dst src : Register) : List Inst :=
  let (carry, overflow) := inst.destinationEntries .carryAdd .overflowAdd
  inst.updateOverflow overflow src dst .t4 ++
    [add dst src dst] ++
    inst.updateCarry carry src dst .t4

/-- `Add::execute_operation` for an immediate. -/
def executeImmediate
    (inst : Instruction)
    (dst : Register)
    (imm : BitVec 64) : List Inst :=
  let (carry, overflow) :=
    if (0 : BitVec 64).sle imm then
      inst.destinationEntries .carryAdd .overflowAddPos
    else
      inst.destinationEntries .carryAdd .overflowAddNeg
  inst.updateCarry carry dst none .t4 ++
    inst.updateOverflow overflow dst none .t4 ++
    [addi dst dst (imm.setWidth 16)] ++
    inst.updateCarry none none dst .zero ++
    inst.updateOverflow none none dst .zero

end Add

namespace Adc

/-- The entries for the carry flag, which has been evaluated, are stored
relative to those of `Add`. -/
def storeOverflow (inst : Instruction) (dst src : Register) : List Inst :=
  let (_, overflow) := inst.destinationEntries .carryAdd .overflowAdd
  if Flag.overflow ∈ inst.updateFlags then
    addi .t6 .t5 overflow.offset ::
      Instruction.updateOverflowRegister .t6 src dst
  else
    []

@[inherit_doc storeOverflow]
def storeCarry (inst : Instruction) (dst src : Register) : List Inst :=
  let (carry, _) := inst.destinationEntries .carryAdd .overflowAdd
  if Flag.carry ∈ inst.updateFlags then
    addi .t4 .t5 carry.offset ::
      Instruction.updateCarryRegister .t4 src dst
  else
    []

/-- The sum with the carry flag in `t4`. -/
def addCarry (dst src : Register) : List Inst :=
  [add dst src dst, add dst .t4 dst]

/-- `Adc::execute_operation` for a register. -/
def executeRegister (inst : Instruction) (dst src : Register) : List Inst :=
  Instruction.evaluateCarry ++
    if Flag.carry ∈ inst.updateFlags ∨ Flag.overflow ∈ inst.updateFlags then
      slli .t5 .t4 4 ::
        (storeOverflow inst dst src ++ addCarry dst src ++
          storeCarry inst dst src)
    else
      addCarry dst src

/-- `Adc::execute_operation` for an immediate. -/
def executeImmediate
    (inst : Instruction)
    (dst : Register)
    (imm : BitVec 64) : List Inst :=
  addi .t3 .zero (imm.setWidth 16) :: executeRegister inst dst .t3

end Adc

namespace Sub

/-- `Sub::execute_operation` for a register. -/
def executeRegister (inst : Instruction) (dst src : Register) : List Inst :=
  let (carry, overflow) := inst.destinationEntries .carryAdd .overflowSub
  inst.updateCarry carry none dst .t4 ++
    inst.updateOverflow overflow src dst .t4 ++
    [sub dst dst src] ++
    inst.updateCarry none dst none .zero

/-- The entries for the subtraction of an immediate. -/
def immediateEntries (inst : Instruction) (imm : BitVec 64) :
    JumpTable.Entry × JumpTable.Entry :=
  if (0 : BitVec 64).sle imm then
    inst.destinationEntries .carryAdd .overflowAddNeg
  else
    inst.destinationEntries .carryAdd .overflowAddPos

/-- `Sub::execute_operation` for an immediate. -/
def executeImmediate
    (inst : Instruction)
    (dst : Register)
    (imm : BitVec 64) : List Inst :=
  let (carry, overflow) := immediateEntries inst imm
  inst.updateCarry carry none dst .t4 ++
    inst.updateOverflow overflow dst none .t4 ++
    (if imm = -0x800 then
      [addi dst dst 1, addi dst dst ((-imm - 1).setWidth 16)]
    else
      [addi dst dst ((-imm).setWidth 16)]) ++
    inst.updateCarry none dst none .zero ++
    inst.updateOverflow none none dst .zero

end Sub

namespace Logic

/-- The logical operations clear the carry and the overflow flag. -/
def clearFlags (inst : Instruction) : List Inst :=
  inst.setCarry false .t4 ++ inst.setOverflow false .t4

/-- `execute_operation` of a logical operation on a register or an
immediate. -/
def execute (inst : Instruction) (operation : Inst) : List Inst :=
  operation :: clearFlags inst

end Logic

namespace Shift

/-- `execute_operation` of a shift, after which the carry and the overflow
flag are not supported. -/
def execute
    (symbols : Instruction.HostSymbols)
    (inst : Instruction)
    (operation : Inst)
    (name : String) : List Inst :=
  operation ::
    (inst.updateOverflowUnsupported (symbols.text name) .t4 ++
      inst.updateCarryUnsupported (symbols.text name) .t4)

end Shift

namespace BinaryOperation

variable (symbols : Instruction.HostSymbols) (inst : Instruction)

/-- `execute_operation` for a register. -/
def executeRegister (dst src : Register) : BinaryOperation -> List Inst
  | add => Add.executeRegister inst dst src
  | adc => Adc.executeRegister inst dst src
  | sub => Sub.executeRegister inst dst src
  | and => Logic.execute inst (Encoding.and dst dst src)
  | or => Logic.execute inst (Encoding.or dst dst src)
  | xor => Logic.execute inst (Encoding.xor dst dst src)
  | shl => Shift.execute symbols inst (sll dst dst src) "SHL"
  | shr => Shift.execute symbols inst (srl dst dst src) "SHR"
  | sar => Shift.execute symbols inst (sra dst dst src) "SAR"

/-- `execute_operation` for an immediate. -/
def executeImmediate (dst : Register) (imm : BitVec 64) :
    BinaryOperation -> List Inst
  | add => Add.executeImmediate inst dst imm
  | adc => Adc.executeImmediate inst dst imm
  | sub => Sub.executeImmediate inst dst imm
  | and => Logic.execute inst (andi dst dst (imm.setWidth 16))
  | or => Logic.execute inst (ori dst dst (imm.setWidth 16))
  | xor => Logic.execute inst (xori dst dst (imm.setWidth 16))
  | shl => Shift.execute symbols inst (slli dst dst (imm.setWidth 8))
      "SHL - Imm"
  | shr => Shift.execute symbols inst (srli dst dst (imm.setWidth 8))
      "SHR - Imm"
  | sar => Shift.execute symbols inst (srai dst dst (imm.setWidth 8))
      "SAR - Imm"

/-- `BinaryOperation::generate`.  Every subclass uses the value of its
destination. -/
def generate (operation : BinaryOperation) : List Inst :=
  let size := inst.destinationSize
  let source := inst.translateSource
  let dest := inst.translateOperand (inst.getOperand 0) .t0 .t1
    true false false true
  source.code ++ dest.code ++
    (if source.value ≠ .zero then
      operation.executeRegister symbols inst dest.value source.value
    else
      operation.executeImmediate symbols inst dest.value inst.immediate) ++
    inst.updateZero dest.value size ++
    inst.updateSign dest.value size .t3 ++
    inst.updateParity dest.value ++
    inst.translateDestination dest.value dest.address .t2 .t3

end BinaryOperation

/-! ## Operations on one operand -/

namespace UnaryOperation

variable (inst : Instruction)

/-- `Inc::execute_operation` and `Dec::execute_operation`. -/
def increment
    (dst : Register)
    (overflow : Width -> JumpTable.Entry)
    (number : BitVec 16) : List Inst :=
  let (_, overflow) := inst.destinationEntries (fun _ => .carryClear) overflow
  inst.updateOverflow overflow dst none .t4 ++ [addi dst dst number]

/-- `Neg::execute_operation` -/
def negate (dst : Register) : List Inst :=
  let (carry, overflow) := inst.destinationEntries .carryNeg .overflowDecNeg
  inst.updateCarry carry dst none .t4 ++
    inst.updateOverflow overflow dst none .t4 ++ [Encoding.neg dst dst]

/-- `execute_operation` -/
def execute (dst : Register) : UnaryOperation -> List Inst
  | inc => increment inst dst .overflowInc 1
  | dec => increment inst dst .overflowDecNeg (-1)
  | neg => negate inst dst
  | not => [Encoding.not dst dst]

/-- `UnaryOperation::generate` -/
def generate (operation : UnaryOperation) : List Inst :=
  let size := inst.destinationSize
  let dest := inst.translateOperand (inst.getOperand 0) .t0 .t1
    true false false true
  dest.code ++ operation.execute inst dest.value ++
    inst.updateZero dest.value size ++
    inst.updateSign dest.value size .t2 ++
    inst.updateParity dest.value ++
    inst.translateDestination dest.value dest.address .t2 .t3

end UnaryOperation

/-! ## Comparisons -/

namespace Cmp

/-- `Cmp::execute_operation` for a register, with the register of the
result. -/
def executeRegister (inst : Instruction) (dst src : Register) :
    List Inst × Register :=
  let (carry, overflow) := inst.destinationEntries .carryAdd .overflowSub
  (inst.updateCarry carry none dst .t4 ++
    inst.updateOverflow overflow src dst .t4 ++
    [sub .t5 dst src] ++
    inst.updateCarry none (some .t5) none .zero, .t5)

/-- `Cmp::execute_operation` for an immediate, with the register of the
result.  Both instructions for the smallest immediate read the operand. -/
def executeImmediate
    (inst : Instruction)
    (dst : Register)
    (imm : BitVec 64) : List Inst × Register :=
  let (carry, overflow) := Sub.immediateEntries inst imm
  let result := if imm = 0 then dst else .t5
  (inst.updateCarry carry none dst .t4 ++
    inst.updateOverflow overflow dst none .t4 ++
    (if imm = 0 then
      []
    else if imm = -0x800 then
      [addi result dst 1, addi result dst ((-imm).setWidth 16)]
    else
      [addi result dst ((-imm).setWidth 16)]) ++
    inst.updateCarry none result none .zero ++
    inst.updateOverflow none none result .zero, result)

end Cmp

namespace Test

/-- `Test::execute_operation`, with the register of the result. -/
def execute (inst : Instruction) (operation : Inst) : List Inst × Register :=
  (Logic.execute inst operation, .t5)

end Test

namespace Comparable

variable (inst : Instruction)

/-- `execute_operation` for a register. -/
def executeRegister (dst src : Register) :
    Comparable -> List Inst × Register
  | cmp => Cmp.executeRegister inst dst src
  | test => Test.execute inst (Encoding.and .t5 dst src)

/-- `execute_operation` for an immediate. -/
def executeImmediate (dst : Register) (imm : BitVec 64) :
    Comparable -> List Inst × Register
  | cmp => Cmp.executeImmediate inst dst imm
  | test => Test.execute inst (andi .t5 dst (imm.setWidth 16))

/-- `Comparable::generate` -/
def generate (operation : Comparable) : List Inst :=
  let size := inst.destinationSize
  let source := inst.translateSource
  let dest := inst.translateOperand (inst.getOperand 0) .t0 .t1
    true false false true
  let (code, result) :=
    if source.value ≠ .zero then
      operation.executeRegister inst dest.value source.value
    else
      operation.executeImmediate inst dest.value inst.immediate
  source.code ++ dest.code ++ code ++
    inst.updateZero result size ++
    inst.updateSign result size .t3 ++
    inst.updateParity result

end Comparable
end Oxtra

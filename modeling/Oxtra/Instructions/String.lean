import Oxtra.Instructions.ControlFlow
import Oxtra.Instructions.Operations

/-!
# String instructions

The string instructions and their repetitions.  An address size of four bytes
is a fault.
-/

namespace Oxtra

open RiscV
open Encoding
open Helper
open Fadec (OperandSize)

/-- Advance a pointer by the operand size. -/
def advance (pointer : Register) (size : OperandSize) : Inst :=
  addi pointer pointer (BitVec.ofNat 16 size.bytes)

/-! ## Repetitions that do not compare -/

namespace Repeatable

open Instruction (loadOperand storeOperand)

/-- `Lods::execute_operation` -/
def lodsOperation (size : OperandSize) : List Inst :=
  match size with
  | .qword => [ld rax rsi 0, addi rsi rsi 8]
  | size =>
      loadOperand size false .t4 rsi 0 ::
        (moveToRegister rax .t4 (RegisterAccess.ofSize size) .t5 true ++
          [advance rsi size])

/-- `Movs::execute_operation` -/
def movsOperation (size : OperandSize) : List Inst :=
  [loadOperand size false .t4 rsi 0,
    storeOperand size rdi .t4 0,
    advance rsi size,
    advance rdi size]

/-- `Stos::execute_operation` -/
def stosOperation (size : OperandSize) : List Inst :=
  [storeOperand size rdi rax 0, advance rdi size]

/-- `execute_operation` -/
def execute (size : OperandSize) : Repeatable -> List Inst
  | lods => lodsOperation size
  | movs => movsOperation size
  | stos => stosOperation size

/-- The repetition of an operation. -/
def repeated (operation : List Inst) : List Inst :=
  let body := addi rcx rcx (-1) :: operation
  branchOver (beqz rcx) (body ++ [branchBack (bnqz rcx) body])

/-- `Repeatable::generate` -/
def generate (inst : Instruction) (operation : Repeatable) :
    Option (List Inst) :=
  if ¬inst.addressSizeQword then
    none
  else if inst.hasRep then
    some (repeated (operation.execute inst.operandSize))
  else
    some (operation.execute inst.operandSize)

end Repeatable

/-! ## Repetitions that compare -/

namespace RepeatableFlag

open Instruction (loadOperand)

def diffReg : Register := .t0
def srcReg : Register := .t1
def dstReg : Register := .t2

variable (inst : Instruction)

/-- `Cmps::execute_operation` -/
def cmpsOperation (size : OperandSize) : List Inst :=
  [loadOperand size false dstReg rsi 0,
    loadOperand size false srcReg rdi 0,
    sub diffReg dstReg srcReg,
    advance rsi size,
    advance rdi size]

/-- `Scas::execute_operation` -/
def scasOperation (size : OperandSize) : List Inst :=
  [loadOperand size false srcReg rdi 0,
    sub diffReg dstReg srcReg,
    advance rdi size]

/-- `execute_operation` -/
def execute (size : OperandSize) : RepeatableFlag -> List Inst
  | cmps => cmpsOperation size
  | scas => scasOperation size

/-- `update_flags` -/
def updateFlags : List Inst :=
  let size := inst.operandSize
  inst.updateZero diffReg size ++
    inst.updateSign diffReg size .t3 ++
    inst.updateParity diffReg ++
    inst.updateCarry (some (.carryAdd size.width)) diffReg dstReg .t3 ++
    inst.updateOverflow (some (.overflowSub size.width)) dstReg srcReg .t3

/-- The loop, whose second branch leaves it when the comparison decides. -/
def loop
    (operation : List Inst)
    (leave : Register -> BitVec 32 -> Inst) : List Inst :=
  let body := addi rcx rcx (-1) :: operation
  let leave := leave diffReg 8
  body ++ [leave, branchBack (bnqz rcx) (body ++ [leave])]

/-- `generate_loop` -/
def generateLoop (operation : List Inst) (z : Bool) : List Inst :=
  branchOver (beqz rcx)
    (loop operation (if z then bnqz else beqz) ++ updateFlags inst)

/-- `RepeatableFlag::generate` -/
def generateFlag (operation : List Inst) : Option (List Inst) :=
  if ¬inst.addressSizeQword then
    none
  else if inst.hasRep then
    some (generateLoop inst operation true)
  else if inst.hasRepnz then
    some (generateLoop inst operation false)
  else
    some (operation ++ updateFlags inst)

/-- `Scas::generate`, which loads the accumulator first, and
`Cmps::generate`. -/
def generate (operation : RepeatableFlag) : Option (List Inst) :=
  let code := generateFlag inst (operation.execute inst.operandSize)
  match operation with
  | cmps => code
  | scas =>
      let load := loadFromRegister rax (RegisterAccess.ofSize inst.operandSize)
        dstReg false true false
      code.map (load.1 ++ ·)

end RepeatableFlag
end Oxtra

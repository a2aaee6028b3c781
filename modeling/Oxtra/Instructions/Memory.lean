import Oxtra.Instructions.Operations

/-!
# Moves and the stack

The instructions that move values without an effect on the flags.
-/

namespace Oxtra

open RiscV
open Encoding
open Helper
open Fadec (OperandSize)

variable (inst : Instruction)

/-! ## Moves -/

/-- `Mov::generate` -/
def Mov.generate : List Inst :=
  let src := inst.getOperand 1
  match inst.getOperand 0 with
  | .reg .qword register _ =>
      (inst.translateOperand src (mapReg register) .t1
        true false false false).code
  | .reg .dword register _ =>
      let dst := mapReg register
      (inst.translateOperand src dst .t1 true false false false).code ++
        if src.isImm then [] else [slli dst dst 32, srli dst dst 32]
  | _ =>
      let source := inst.translateOperand src .t0 .t2 false false false false
      source.code ++ inst.translateDestination source.value .zero .t1 .t2

/-- `Movsx::generate` -/
def Movsx.generate : List Inst :=
  let dst := inst.firstRegister
  match inst.getOperand 1 with
  | .reg _ register .gph =>
      [slli dst (mapRegHigh register) 48, srai dst dst 56]
  | .reg size register .gpl => signExtendRegister dst (mapReg register) size
  | src => (inst.readFromMemory src dst .t0 true).1

/-- `Movzx::generate` -/
def Movzx.generate : List Inst :=
  let dst := inst.firstRegister
  match inst.getOperand 1 with
  | .reg size register type =>
      [slli dst (mapRegType register type)
        (match type with
        | .gph => 48
        | .gpl => BitVec.ofNat 8 (64 - size.bits)),
        srli dst dst (BitVec.ofNat 8 (64 - size.bits))]
  | src => (inst.readFromMemory src dst .t0 false).1

/-- `Lea::generate` -/
def Lea.generate : List Inst :=
  let dest := inst.firstRegister
  let op := inst.getOperand 1
  match inst.destinationSize with
  | .qword => (inst.translateMemory op dest .t1 true).1
  | .dword =>
      (inst.translateMemory op dest .t1 true).1 ++
        if inst.addressSizeQword then
          [slli dest dest 32, srli dest dest 32]
        else
          []
  | size =>
      let (code, lea) := inst.translateMemory op .t0 .t1 false
      code ++ moveToRegister dest lea (RegisterAccess.ofSize size) .t2 false

/-! ## Sign extensions of the accumulator -/

/-- The operand size with half of the bytes. -/
def Fadec.OperandSize.half : OperandSize -> OperandSize
  | .qword => .dword
  | .dword => .word
  | .word | .byte => .byte

/-- `Cex::generate` -/
def Cex.generate : List Inst :=
  match inst.operandSize with
  | .qword => signExtendRegister rax rax .dword
  | size =>
      signExtendRegister .t0 rax size.half ++
        moveToRegister rax .t0 (RegisterAccess.ofSize size) .t1 false

/-- `CSep::generate` -/
def CSep.generate : List Inst :=
  match inst.operandSize with
  | .qword => [srai rdx rax 63]
  | size =>
      [slli .t0 rax (BitVec.ofNat 8 (64 - size.bits)), srai .t0 .t0 63] ++
        moveToRegister rdx .t0 (RegisterAccess.ofSize size) .t1 false

/-! ## The stack -/

/-- `Leave::generate` -/
def Leave.generate : List Inst :=
  [addi rsp rbp 0, ld rbp rsp 0, addi rsp rsp 8]

namespace Push

/-- The store of the pushed value. -/
def storeValue (size : OperandSize) (value : Register) : List Inst :=
  match size with
  | .qword => [sd rsp value 0]
  | .dword => [sw rsp value 0]
  | .word => [sh rsp value 0]
  | .byte => []

/-- `Push::generate` -/
def generate : List Inst :=
  let operand := inst.getOperand 0
  let value := inst.translateOperand operand .t0 .t1 false false false false
  addi rsp rsp (BitVec.ofInt 16 (-operand.size.bytes)) ::
    (value.code ++ storeValue operand.size value.value)

end Push

namespace Pop

/-- Pop into a register. -/
def popRegister (size : OperandSize) (dest : Register) : List Inst :=
  match size with
  | .qword => [ld dest rsp 0]
  | .dword => lwu .t0 rsp 0 :: moveToRegister dest .t0 .dword .t1 true
  | .word => lhu .t0 rsp 0 :: moveToRegister dest .t0 .word .t1 true
  | .byte => []

/-- Pop to an address. -/
def popMemory (size : OperandSize) (address : Register) : List Inst :=
  match size with
  | .qword => [ld .t1 rsp 0, sd address .t1 0]
  | .dword => [lw .t1 rsp 0, sw address .t1 0]
  | .word => [lh .t1 rsp 0, sh address .t1 0]
  | .byte => []

/-- `Pop::generate` -/
def generate : List Inst :=
  let dst := inst.getOperand 0
  (match dst with
  | .reg size register _ => popRegister size (mapReg register)
  | .mem size base =>
      let (code, address) := inst.translateMemory (.mem size base) .t0 .t1 false
      code ++ popMemory size address
  | .imm _ | .none => []) ++
    [addi rsp rsp (BitVec.ofNat 16 dst.size.bytes)]

end Pop

/-- `Nop::generate` -/
def Nop.generate : List Inst := []

end Oxtra

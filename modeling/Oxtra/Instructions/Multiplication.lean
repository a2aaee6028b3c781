import Oxtra.Instructions.ControlFlow
import Oxtra.Instructions.Operations

/-!
# Multiplication and division

The instructions with the implicit operands in the registers rax and rdx, and
the signed multiplications with two and with three operands.
-/

namespace Oxtra

open RiscV
open Encoding
open Helper
open Fadec (OperandSize)

/-! ## Multiplication -/

namespace Mul

variable (symbols : Instruction.HostSymbols) (inst : Instruction)

/-- An operand as a whole register. -/
def translateFactor
    (op : Fadec.Operand)
    (temp : Register)
    (signed : Bool) : Instruction.Translation :=
  inst.translateOperand op temp .t4 false true signed false

/-- The two factors. -/
def sources : Instruction.Translation × Instruction.Translation :=
  match inst.type with
  | .imul2 =>
      (translateFactor inst (inst.getOperand 0) .t1 true,
        translateFactor inst (inst.getOperand 1) .t2 true)
  | .imul3 =>
      (translateFactor inst (inst.getOperand 1) .t1 true,
        translateFactor inst (inst.getOperand 2) .t2 true)
  | type =>
      let signed := type != .mul
      let (code, value) := loadFromRegister rax
        (RegisterAccess.ofSize inst.destinationSize) .t4 false true signed
      ({ code := code, value := value },
        translateFactor inst (inst.getOperand 0) .t2 signed)

/-- The product of two double words. -/
def multiplyLong (signed upper : Bool) (lower src1 src2 : Register) :
    List Inst :=
  let result := if rdx = src1 ∨ rdx = src2 then .t4 else rdx
  (if upper then
    [if signed then mulh result src1 src2 else mulhu result src1 src2]
  else
    []) ++
    mul lower src1 src2 ::
      (if upper ∧ result ≠ rdx then [mv rdx result] else [])

/-- The upper half of a short product. -/
def storeUpper (size : OperandSize) : List Inst :=
  if size = .dword then
    [srli rdx .t0 32]
  else
    srli .t0 .t0 (BitVec.ofNat 8 size.bits) ::
      moveToRegister rdx .t0 (RegisterAccess.ofSize size) .t4 false

/-- The product of two short operands. -/
def multiplyShort
    (size : OperandSize)
    (upper : Bool)
    (lower src1 src2 : Register) : List Inst :=
  mul .t0 src1 src2 ::
    if size = .byte then
      moveToRegister lower .t0 .word .t4 false
    else
      moveToRegister lower .t0 (RegisterAccess.ofSize size) .t4 false ++
        if upper then storeUpper size else []

/-- `Mul::generate` -/
def generate : List Inst :=
  let size := inst.destinationSize
  let signed := inst.type != .mul
  let upper := inst.type == .mul || inst.type == .imul
  let lower := if upper then rax else inst.firstRegister
  let (src1, src2) := sources inst
  src1.code ++ src2.code ++
    (if size = .qword then
      multiplyLong signed upper lower src1.value src2.value
    else
      multiplyShort size upper lower src1.value src2.value) ++
    inst.updateOverflowUnsupported (symbols.text "MUL") .t4 ++
    inst.updateCarryUnsupported (symbols.text "MUL") .t4

end Mul

/-! ## Division -/

namespace Idiv

def tmp : Register := .t4
def quotient : Register := .t3
def remainder : Register := .t2
def dividend : Register := .t1
def divisor : Register := .t0

variable (symbols : Instruction.HostSymbols) (inst : Instruction)

/-- The exception, unless it is skipped by a branch. -/
def raise : List Inst :=
  Instruction.callHighLevel symbols.divisionException

/-- The two halves of a short dividend. -/
def joinDividend (access : RegisterAccess) (shamt : BitVec 8) (signed : Bool) :
    List Inst :=
  (loadFromRegister rdx access dividend true true signed).1 ++
    slli dividend dividend shamt ::
      (loadFromRegister rax access tmp true false false).1 ++
        [add dividend dividend tmp]

/-- The dividend of a division. -/
def buildDividend (size : OperandSize) (signed : Bool) : List Inst :=
  match size with
  | .byte => (loadFromRegister rax .word dividend true true signed).1
  | .word => joinDividend .word 16 signed
  | .dword => joinDividend .dword 32 signed
  | .qword => [mv dividend rax]

/-- The smallest dividend of a signed division. -/
def smallestDividend : OperandSize -> BitVec 64
  | .byte => -32768
  | .word => -2147483648
  | .dword | .qword => 0x8000000000000000

/-- The check for an overflow of a signed division.  The exception is skipped
by both branches. -/
def checkOverflow (size : OperandSize) : List Inst :=
  loadImmediate (-1) tmp ++
    branchOver (bne tmp divisor)
      (loadImmediate (smallestDividend size) tmp ++
        branchOver (bne tmp dividend) (raise symbols))

/-- The division itself. -/
def divide (signed : Bool) : List Inst :=
  if signed then
    [div quotient dividend divisor, rem remainder dividend divisor]
  else
    [divu quotient dividend divisor, remu remainder dividend divisor]

/-- The results go to their registers. -/
def storeResult (size : OperandSize) : List Inst :=
  match size with
  | .byte =>
      moveToRegister rax quotient .lbyte tmp false ++
        moveToRegister rax remainder .hbyte tmp false
  | .word =>
      moveToRegister rax quotient .word tmp false ++
        moveToRegister rdx remainder .word tmp false
  | .dword =>
      moveToRegister rax quotient .dword tmp false ++
        moveToRegister rdx remainder .dword tmp false
  | .qword => [mv rax quotient, mv rdx remainder]

/-- `Idiv::generate` -/
def generate : List Inst :=
  let signed := inst.type == .idiv
  let size := inst.destinationSize
  (inst.translateOperand (inst.getOperand 0) divisor tmp
      true true signed false).code ++
    branchOver (bnqz divisor) (raise symbols) ++
    buildDividend size signed ++
    (if signed then checkOverflow symbols size else []) ++
    divide signed ++
    storeResult size

end Idiv
end Oxtra

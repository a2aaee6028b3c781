import Oxtra.Instructions.Operations

/-!
# Shifts by the register cl, and rotations

The carry and the overflow flag are not supported after these instructions.
-/

namespace Oxtra

open RiscV
open Encoding
open Helper
open Fadec (OperandSize)

namespace Helper

/-- The register that the byte register cl belongs to. -/
def cl : Register := mapReg 1

end Helper

/-! ## Shifts -/

namespace ShiftCl

variable (symbols : Instruction.HostSymbols) (inst : Instruction)

/-- `execute_operation` of a shift of a double word or a word. -/
def executeShift
    (long short : Register -> Register -> Register -> Inst)
    (dst src : Register)
    (name : String) : List Inst :=
  Shift.execute symbols inst
    (if inst.destinationSize = .qword then long dst src cl
    else short dst src cl) name

/-- `execute_operation` -/
def execute (dst src : Register) : ShiftCl -> List Inst
  | shlCl => executeShift symbols inst sll sllw dst src "SHL - Cl"
  | shrCl => executeShift symbols inst srl srlw dst src "SHR - Cl"
  | sarCl => executeShift symbols inst sra sraw dst src "SAR - Cl"

/-- The shift of a register. -/
def generateRegister
    (operation : ShiftCl)
    (size : OperandSize)
    (register : Fadec.Register)
    (type : Fadec.RegisterType) : List Inst :=
  let dst := mapRegType register type
  match size, type with
  | .qword, _ => operation.execute symbols inst dst dst
  | .dword, _ =>
      operation.execute symbols inst dst dst ++
        [slli dst dst 32, srli dst dst 32]
  | _, .gph =>
      srli .t0 dst 8 ::
        (operation.execute symbols inst .t0 .t0 ++
          moveToRegister dst .t0 .hbyte .t1 false)
  | size, .gpl =>
      operation.execute symbols inst .t0 dst ++
        moveToRegister dst .t0 (RegisterAccess.ofSize size) .t1 false

/-- `ShiftCl::generate` -/
def generate (operation : ShiftCl) : List Inst :=
  match inst.getOperand 0 with
  | .reg size register type =>
      operation.generateRegister symbols inst size register type
  | dst =>
      let (code, address) := inst.readFromMemory dst .t0 .t1 false
      code ++ operation.execute symbols inst .t0 .t0 ++
        inst.writeToMemory dst .t0 .t1 .t2 address

end ShiftCl

/-! ## Rotations -/

namespace Rotation

variable (symbols : Instruction.HostSymbols) (inst : Instruction)

/-- The rotated operand replaces a long operand; a short one is left in a
temporary. -/
def combine (size : OperandSize) (reg : Register) : List Inst × Register :=
  match size with
  | .dword | .qword => ([Encoding.or reg .t1 .t2], reg)
  | .byte | .word => ([Encoding.or .t1 .t1 .t2], .t1)

/-- The amount of a rotation by an immediate. -/
def amount (size : OperandSize) : Nat := inst.immediate.toNat % size.bits

/-- `RolImm::rotate` -/
def RolImm.rotate (size : OperandSize) (reg : Register) : List Inst × Register :=
  let amount := amount inst size
  let outer := BitVec.ofNat 8 (size.bits - amount)
  let (code, result) := combine size reg
  ((match size with
    | .dword => [srliw .t1 reg outer]
    | .qword => [srli .t1 reg outer]
    | .byte | .word =>
        [srli .t1 reg outer,
          slli .t1 .t1 (BitVec.ofNat 8 (64 - amount)),
          srli .t1 .t1 (BitVec.ofNat 8 (64 - amount))]) ++
    slli .t2 reg (BitVec.ofNat 8 amount) :: code, result)

/-- Clear the bits above a short operand. -/
def clearUpper (size : OperandSize) (reg : Register) : List Inst :=
  [slli .t1 reg (BitVec.ofNat 8 (64 - size.bits)),
    srli .t1 .t1 (BitVec.ofNat 8 (64 - size.bits))]

/-- The amount of a rotation in the other direction. -/
def opposite (size : OperandSize) : List Inst :=
  [addi .t4 .zero (BitVec.ofNat 16 size.bits), sub .t4 .t4 cl]

/-- `RolCl::rotate` -/
def RolCl.rotate (size : OperandSize) (reg : Register) : List Inst × Register :=
  match size with
  | .qword =>
      (opposite size ++
        [srl .t2 reg .t4, sll .t1 reg cl, Encoding.or reg .t1 .t2], reg)
  | .dword =>
      (opposite size ++
        [srlw .t2 reg .t4, sllw .t1 reg cl, Encoding.or reg .t1 .t2], reg)
  | .byte | .word =>
      (clearUpper size reg ++
        [andi .t3 cl (BitVec.ofNat 16 (size.bits - 1)),
          sll .t1 .t1 .t3,
          srli .t2 .t1 (BitVec.ofNat 8 size.bits),
          Encoding.or .t1 .t1 .t2], .t1)

/-- `RorImm::rotate` -/
def RorImm.rotate (size : OperandSize) (reg : Register) : List Inst × Register :=
  let amount := amount inst size
  let outer := BitVec.ofNat 8 (size.bits - amount)
  let (code, result) := combine size reg
  ((match size with
    | .dword =>
        [slliw .t1 reg outer, srliw .t2 reg (BitVec.ofNat 8 amount)]
    | .qword =>
        [slli .t1 reg outer, srli .t2 reg (BitVec.ofNat 8 amount)]
    | .byte | .word =>
        [slli .t1 reg outer,
          slli .t2 reg (BitVec.ofNat 8 (64 - size.bits)),
          srli .t2 .t2 (BitVec.ofNat 8 (64 - size.bits + amount))]) ++ code,
    result)

/-- `RorCl::rotate` -/
def RorCl.rotate (size : OperandSize) (reg : Register) : List Inst × Register :=
  let (code, result) := combine size reg
  (opposite size ++
    (match size with
    | .dword => [sllw .t2 reg .t4, srlw .t1 reg cl]
    | .qword => [sll .t2 reg .t4, srl .t1 reg cl]
    | .byte | .word =>
        clearUpper size reg ++ [sll .t2 .t1 .t4, srl .t1 reg cl]) ++ code,
    result)

/-- `rotate` -/
def rotate (reg : Register) : Rotation -> List Inst × Register
  | .rolImm => RolImm.rotate inst inst.destinationSize reg
  | .rolCl => RolCl.rotate inst.destinationSize reg
  | .rorImm => RorImm.rotate inst inst.destinationSize reg
  | .rorCl => RorCl.rotate inst.destinationSize reg

/-- The rotation of a register. -/
def generateRegister
    (operation : Rotation)
    (size : OperandSize)
    (register : Fadec.Register)
    (type : Fadec.RegisterType) : List Inst :=
  match type with
  | .gph =>
      let dst := mapRegHigh register
      let (code, result) := operation.rotate inst .t0
      srli .t0 dst 8 ::
        (code ++ moveToRegister dst result .hbyte .t6 false)
  | .gpl =>
      let dst := mapReg register
      let (code, result) := operation.rotate inst dst
      code ++
        moveToRegister dst result (RegisterAccess.ofSize size) .t6
          (dst == result)

/-- `Rotation::generate` -/
def generate (operation : Rotation) : List Inst :=
  (match inst.getOperand 0 with
  | .mem size base =>
      let (read, address) :=
        inst.readFromMemory (.mem size base) .t0 .t6 false
      let (code, result) := operation.rotate inst .t0
      read ++ code ++
        inst.writeToMemory (.mem size base) result .t5 .t6 address
  | .reg size register type =>
      operation.generateRegister inst size register type
  -- The operand is a register or in memory.
  | .imm _ | .none => []) ++
    inst.updateCarryUnsupported (symbols.text "Rotation") .t0 ++
    inst.updateOverflowUnsupported (symbols.text "Rotation") .t0

end Rotation
end Oxtra

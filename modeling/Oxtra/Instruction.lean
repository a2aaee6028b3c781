import Oxtra.Fadec
import Oxtra.Flags

/-!
# Instruction classes

`transformInstruction` turns a decoded instruction into an object of one of
the translator's instruction classes.  Here a class is a value, grouped by
the base class it inherits from; the constructor of a class fixes which flags
an instruction of the class updates and requires, and whether it ends a block.
-/

namespace Oxtra

/-- Conditions of the conditional jumps, sets and moves. -/
inductive Condition where
  | a | be | c | g | ge | l | le | nc | no | np | ns | nz | o | p | s | z
  deriving DecidableEq, Repr

/-- The flags that a condition is evaluated from. -/
def Condition.require : Condition -> BitVec 8
  | a | be => Flags.zero ||| Flags.carry
  | c | nc => Flags.carry
  | g | le => Flags.zero ||| Flags.sign ||| Flags.overflow
  | ge | l => Flags.sign ||| Flags.overflow
  | no | o => Flags.overflow
  | np | p => Flags.parity
  | ns | s => Flags.sign
  | nz | z => Flags.zero

/-- Subclasses of `BinaryOperation`. -/
inductive BinaryOperation where
  | add | adc | sub | and | or | xor | shl | shr | sar
  deriving DecidableEq, Repr

/-- Subclasses of `UnaryOperation`. -/
inductive UnaryOperation where
  | inc | dec | neg | not
  deriving DecidableEq, Repr

/-- Subclasses of `Comparable`. -/
inductive Comparable where
  | cmp | test
  deriving DecidableEq, Repr

/-- Subclasses of `ShiftCl`. -/
inductive ShiftCl where
  | shlCl | shrCl | sarCl
  deriving DecidableEq, Repr

/-- Subclasses of `Rotation`. -/
inductive Rotation where
  | rolImm | rolCl | rorImm | rorCl
  deriving DecidableEq, Repr

/-- Subclasses of `BitTest`. -/
inductive BitTest where
  | btc | btr | bts
  deriving DecidableEq, Repr

/-- Subclasses of `Repeatable`. -/
inductive Repeatable where
  | lods | movs | stos
  deriving DecidableEq, Repr

/-- Subclasses of `RepeatableFlag`. -/
inductive RepeatableFlag where
  | cmps | scas
  deriving DecidableEq, Repr

/-- The classes that `transformInstruction` chooses from. -/
inductive InstructionClass where
  | binaryOperation (operation : BinaryOperation)
  | unaryOperation (operation : UnaryOperation)
  | comparable (operation : Comparable)
  | mul
  | idiv
  | shiftCl (operation : ShiftCl)
  | rotation (operation : Rotation)
  | bt
  | bitTest (operation : BitTest)
  | clc
  | stc
  | mov
  | movsx
  | movzx
  | lea
  | leave
  | push
  | pop
  | cex
  | csep
  | nop
  | setcc (condition : Condition)
  | cmov (condition : Condition)
  | repeatable (operation : Repeatable)
  | repeatableFlag (operation : RepeatableFlag)
  | jcc (condition : Condition)
  | jcxz
  | jmp
  | call
  | ret
  | syscall
  | unsupported
  deriving DecidableEq, Repr

namespace InstructionClass

/-- The flags a class declares to update. -/
def declaredUpdate : InstructionClass -> BitVec 8
  | binaryOperation _ => Flags.all
  | unaryOperation .inc | unaryOperation .dec => Flags.all ^^^ Flags.carry
  | unaryOperation .neg => Flags.all
  | unaryOperation .not => Flags.none
  | comparable _ => Flags.all
  | mul | idiv => Flags.all
  | shiftCl _ => Flags.all
  | rotation _ => Flags.carry ||| Flags.overflow
  | bt | bitTest _ => Flags.carry
  | clc | stc => Flags.carry
  | mov | movsx | movzx | lea | leave | push | pop | cex | csep | nop =>
      Flags.none
  | setcc _ | cmov _ => Flags.none
  | repeatable _ => Flags.none
  | repeatableFlag _ => Flags.all
  | jcc _ | jcxz | jmp | call | ret => Flags.none
  | syscall | unsupported => Flags.all

/-- The flags a class requires. -/
def declaredRequire : InstructionClass -> BitVec 8
  | binaryOperation .adc => Flags.carry
  | setcc condition | cmov condition | jcc condition => condition.require
  | _ => Flags.none

/-- Whether the class ends a block. -/
def endsBlock : InstructionClass -> Bool
  | jmp | call | ret | syscall | unsupported => true
  | _ => false

/-- `control_flow_dimension` -/
def controlFlowDimension : InstructionClass -> Nat
  | jmp | call => 1
  | jcc _ | jcxz => 2
  | _ => 0

/-- Classes that may branch never declare an update. -/
theorem declaredUpdate_of_branch
    {instructionClass : InstructionClass}
    (branches : instructionClass.controlFlowDimension ≠ 0) :
    instructionClass.declaredUpdate = Flags.none := by
  cases instructionClass <;> first | rfl | exact absurd rfl branches

/-- The branching classes have dimension one or two, and those of dimension
one end their block. -/
theorem controlFlowDimension_cases (instructionClass : InstructionClass) :
    instructionClass.controlFlowDimension = 0 ∨
      instructionClass.controlFlowDimension = 1 ∧
        instructionClass.endsBlock = true ∨
      instructionClass.controlFlowDimension = 2 ∧
        instructionClass.endsBlock = false := by
  cases instructionClass <;> simp [controlFlowDimension, endsBlock]

end InstructionClass

/-- An instruction object: the decoded instruction, its class, and what the
constructor of the class initialized. -/
structure Instruction extends Fadec.Instruction where
  instructionClass : InstructionClass
  updateFlags : BitVec 8
  requireFlags : BitVec 8
  endOfBlock : Bool
  deriving DecidableEq, Repr

/-- The constructor of a class. -/
def InstructionClass.construct
    (instructionClass : InstructionClass)
    (entry : Fadec.Instruction) : Instruction where
  toInstruction := entry
  instructionClass := instructionClass
  updateFlags := instructionClass.declaredUpdate
  requireFlags := instructionClass.declaredRequire
  endOfBlock := instructionClass.endsBlock

/-- The class chosen for a mnemonic. -/
def Fadec.InstructionType.instructionClass :
    Fadec.InstructionType -> InstructionClass
  | .add | .addImm => .binaryOperation .add
  | .jz => .jcc .z
  | .jo => .jcc .o
  | .jc => .jcc .c
  | .js => .jcc .s
  | .jp => .jcc .p
  | .jnz => .jcc .nz
  | .jno => .jcc .no
  | .jnc => .jcc .nc
  | .jns => .jcc .ns
  | .jnp => .jcc .np
  | .ja => .jcc .a
  | .jbe => .jcc .be
  | .jg => .jcc .g
  | .jge => .jcc .ge
  | .jl => .jcc .l
  | .jle => .jcc .le
  | .jcxz => .jcxz
  | .cmova => .cmov .a
  | .cmovbe => .cmov .be
  | .cmovc => .cmov .c
  | .cmovg => .cmov .g
  | .cmovge => .cmov .ge
  | .cmovl => .cmov .l
  | .cmovle => .cmov .le
  | .cmovnc => .cmov .nc
  | .cmovno => .cmov .no
  | .cmovnp => .cmov .np
  | .cmovns => .cmov .ns
  | .cmovnz => .cmov .nz
  | .cmovo => .cmov .o
  | .cmovp => .cmov .p
  | .cmovs => .cmov .s
  | .cmovz => .cmov .z
  | .seta => .setcc .a
  | .setbe => .setcc .be
  | .setc => .setcc .c
  | .setg => .setcc .g
  | .setge => .setcc .ge
  | .setl => .setcc .l
  | .setle => .setcc .le
  | .setnc => .setcc .nc
  | .setno => .setcc .no
  | .setnp => .setcc .np
  | .setns => .setcc .ns
  | .setnz => .setcc .nz
  | .seto => .setcc .o
  | .setp => .setcc .p
  | .sets => .setcc .s
  | .setz => .setcc .z
  | .cmp | .cmpImm => .comparable .cmp
  | .test | .testImm => .comparable .test
  | .clc => .clc
  | .stc => .stc
  | .adc | .adcImm => .binaryOperation .adc
  | .sub | .subImm => .binaryOperation .sub
  | .dec => .unaryOperation .dec
  | .inc => .unaryOperation .inc
  | .neg => .unaryOperation .neg
  | .mul | .imul | .imul2 | .imul3 => .mul
  | .div | .idiv => .idiv
  | .movImm | .movabsImm | .mov => .mov
  | .and | .andImm => .binaryOperation .and
  | .or | .orImm => .binaryOperation .or
  | .not => .unaryOperation .not
  | .xor | .xorImm => .binaryOperation .xor
  | .shlCl => .shiftCl .shlCl
  | .shlImm => .binaryOperation .shl
  | .shrCl => .shiftCl .shrCl
  | .shrImm => .binaryOperation .shr
  | .sarCl => .shiftCl .sarCl
  | .sarImm => .binaryOperation .sar
  | .rolImm => .rotation .rolImm
  | .rolCl => .rotation .rolCl
  | .rorImm => .rotation .rorImm
  | .rorCl => .rotation .rorCl
  | .bt | .btImm => .bt
  | .btc | .btcImm => .bitTest .btc
  | .btr | .btrImm => .bitTest .btr
  | .bts | .btsImm => .bitTest .bts
  | .syscall => .syscall
  | .jmp | .jmpInd => .jmp
  | .call | .callInd => .call
  | .ret | .retImm => .ret
  | .leave => .leave
  | .push => .push
  | .pop => .pop
  | .movsx => .movsx
  | .movzx => .movzx
  | .nop | .fnop => .nop
  | .cEx => .cex
  | .cSep => .csep
  | .lea => .lea
  | .cmps => .repeatableFlag .cmps
  | .lods => .repeatable .lods
  | .movs => .repeatable .movs
  | .scas => .repeatableFlag .scas
  | .stos => .repeatable .stos
  | .other => .unsupported

/-- `transform_instruction` -/
def transformInstruction (entry : Fadec.Instruction) : Instruction :=
  entry.type.instructionClass.construct entry

namespace Instruction

/-- The direct branch address, or zero if there is none. -/
def branchAddress (inst : Instruction) : BitVec 64 :=
  match inst.instructionClass, inst.getOperand 0 with
  | .jmp, .imm _ | .call, .imm _ | .jcc _, .imm _ | .jcxz, .imm _ =>
      inst.immediate
  | _, _ => 0

/-- `control_flow_dimension` -/
def controlFlowDimension (inst : Instruction) : Nat :=
  inst.instructionClass.controlFlowDimension

/-- `set_update` -/
def setUpdate (inst : Instruction) (flags : BitVec 8) : Instruction :=
  { inst with updateFlags := flags }

section SetUpdate

variable (inst : Instruction) (flags : BitVec 8)

@[simp] theorem setUpdate_toInstruction :
    (inst.setUpdate flags).toInstruction = inst.toInstruction := rfl

@[simp] theorem setUpdate_instructionClass :
    (inst.setUpdate flags).instructionClass = inst.instructionClass := rfl

@[simp] theorem setUpdate_updateFlags :
    (inst.setUpdate flags).updateFlags = flags := rfl

@[simp] theorem setUpdate_requireFlags :
    (inst.setUpdate flags).requireFlags = inst.requireFlags := rfl

@[simp] theorem setUpdate_endOfBlock :
    (inst.setUpdate flags).endOfBlock = inst.endOfBlock := rfl

end SetUpdate

/-- Without a branch there is no branch address. -/
theorem branchAddress_of_dimension_zero
    {inst : Instruction}
    (dimension : inst.controlFlowDimension = 0) :
    inst.branchAddress = 0 := by
  unfold controlFlowDimension at dimension
  unfold branchAddress
  split <;> simp_all [InstructionClass.controlFlowDimension]

end Instruction

section Transform

variable (entry : Fadec.Instruction)

@[simp] theorem transformInstruction_toInstruction :
    (transformInstruction entry).toInstruction = entry := rfl

@[simp] theorem transformInstruction_instructionClass :
    (transformInstruction entry).instructionClass =
      entry.type.instructionClass := rfl

@[simp] theorem transformInstruction_updateFlags :
    (transformInstruction entry).updateFlags =
      entry.type.instructionClass.declaredUpdate := rfl

@[simp] theorem transformInstruction_requireFlags :
    (transformInstruction entry).requireFlags =
      entry.type.instructionClass.declaredRequire := rfl

@[simp] theorem transformInstruction_endOfBlock :
    (transformInstruction entry).endOfBlock =
      entry.type.instructionClass.endsBlock := rfl

end Transform
end Oxtra

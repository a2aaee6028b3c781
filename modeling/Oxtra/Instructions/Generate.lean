import Oxtra.Instructions.BitTest
import Oxtra.Instructions.Conditions
import Oxtra.Instructions.Memory
import Oxtra.Instructions.Multiplication
import Oxtra.Instructions.Shifts
import Oxtra.Instructions.String

/-!
# The code of an instruction

`generate` of every instruction class.  The code depends on addresses in the
translator, and the code of a call on the number of entries of the call table.
-/

namespace Oxtra

open RiscV
open Encoding
open Helper

/-- `Jmp::generate` -/
def Jmp.generate (inst : Instruction) : List Inst := Jcc.generateJump inst

/-- `Call::generate`, when the call table has this number of entries. -/
def Call.generate (entries : Nat) (inst : Instruction) : List Inst :=
  Call.pushOffset (Call.tableOffset entries) ++
    Call.pushReturnAddress (Call.tableOffset entries) ++ Jmp.generate inst

/-- The address behind the instruction. -/
def Instruction.nextAddress (inst : Instruction) : BitVec 64 :=
  inst.address + BitVec.ofNat 64 inst.size

/-- `Syscall::generate` -/
def Syscall.generate (inst : Instruction) : List Inst :=
  JumpTable.jumpTableEntry .virtualSyscall ++ appendEob inst.nextAddress

/-- `UnsupportedInstruction::generate` -/
def UnsupportedInstruction.generate (inst : Instruction) : List Inst :=
  loadImmediate inst.address .a0 ++
    JumpTable.jumpTableEntry .unsupportedInstruction

/-- `Clc::generate` -/
def Clc.generate (inst : Instruction) : List Inst := inst.setCarry false .t4

/-- `Stc::generate` -/
def Stc.generate (inst : Instruction) : List Inst := inst.setCarry true .t4

namespace Instruction

variable (symbols : HostSymbols) (entries : Nat) (inst : Instruction)

/-- `generate` -/
def generate : Option (List Inst) :=
  match inst.instructionClass with
  | .binaryOperation operation => some (operation.generate symbols inst)
  | .unaryOperation operation => some (operation.generate inst)
  | .comparable operation => some (operation.generate inst)
  | .mul => some (Mul.generate symbols inst)
  | .idiv => some (Idiv.generate symbols inst)
  | .shiftCl operation => some (operation.generate symbols inst)
  | .rotation operation => some (operation.generate symbols inst)
  | .bt => some (Bt.generate inst)
  | .bitTest operation => some (operation.generate inst)
  | .clc => some (Clc.generate inst)
  | .stc => some (Stc.generate inst)
  | .mov => some (Mov.generate inst)
  | .movsx => some (Movsx.generate inst)
  | .movzx => some (Movzx.generate inst)
  | .lea => some (Lea.generate inst)
  | .leave => some Leave.generate
  | .push => some (Push.generate inst)
  | .pop => some (Pop.generate inst)
  | .cex => some (Cex.generate inst)
  | .csep => some (CSep.generate inst)
  | .nop => some Nop.generate
  | .setcc condition => some (Setcc.generate inst condition)
  | .cmov condition => some (Cmov.generate inst condition)
  | .repeatable operation => operation.generate inst
  | .repeatableFlag operation => operation.generate inst
  | .jcc condition => some (Jcc.generate inst condition)
  | .jcxz => some (Jcxz.generate inst)
  | .jmp => some (Jmp.generate inst)
  | .call => some (Call.generate entries inst)
  | .ret => some (Ret.generate inst.immediate)
  | .syscall => some (Syscall.generate inst)
  | .unsupported => some (UnsupportedInstruction.generate inst)

end Instruction
end Oxtra

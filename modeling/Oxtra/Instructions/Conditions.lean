import Oxtra.Instructions.ControlFlow
import Oxtra.Instructions.Operations

/-!
# Conditional instructions

The conditional sets, moves and jumps.  Each of them evaluates the flags of
its condition with code of its own.
-/

namespace Oxtra

open RiscV
open Encoding
open Helper
open Instruction (evaluateZero evaluateSign evaluateParity evaluateCarry
  evaluateOverflow)
open Fadec (OperandSize)

/-! ## Conditional sets -/

namespace Setcc

/-- `set_value` -/
def setValue (inst : Instruction) (reg : Register) : List Inst :=
  match inst.getOperand 0 with
  | .reg _ register type =>
      moveToRegister (mapRegType register type) reg
        (match type with
        | .gph => .hbyte
        | .gpl => .lbyte) .t0 true
  | dst => inst.writeToMemory dst reg .t0 .t1 .zero

/-- The value of the condition, and the register that has it. -/
def evaluate : Condition -> List Inst × Register
  | .a =>
      (evaluateZero .t0 ++ evaluateCarry ++
        [Encoding.or .t0 .t0 .t4, seqz .t0 .t0], .t0)
  | .be =>
      (evaluateZero .t0 ++ evaluateCarry ++ [Encoding.or .t0 .t0 .t4], .t0)
  | .c => (evaluateCarry, .t4)
  | .g =>
      (evaluateSign .t0 .t5 ++ evaluateOverflow ++
        [Encoding.xor .t0 .t0 .t4] ++ evaluateZero .t4 ++
        [Encoding.or .t0 .t0 .t4, seqz .t0 .t0], .t0)
  | .ge =>
      (evaluateSign .t0 .t5 ++ evaluateOverflow ++
        [Encoding.xor .t0 .t0 .t4, seqz .t0 .t0], .t0)
  | .l =>
      (evaluateSign .t0 .t5 ++ evaluateOverflow ++
        [Encoding.xor .t0 .t0 .t4], .t0)
  | .le =>
      (evaluateSign .t0 .t5 ++ evaluateOverflow ++
        [Encoding.xor .t0 .t0 .t4] ++ evaluateZero .t4 ++
        [Encoding.or .t0 .t0 .t4], .t0)
  | .nc => (evaluateCarry ++ [seqz .t0 .t4], .t0)
  | .no => (evaluateOverflow ++ [seqz .t0 .t4], .t0)
  | .np => (evaluateParity .t4 .t5 ++ [seqz .t0 .t4], .t0)
  | .ns => (evaluateSign .t4 .t0 ++ [seqz .t0 .t4], .t0)
  | .nz => (evaluateZero .t4 ++ [seqz .t0 .t4], .t0)
  | .o => (evaluateOverflow, .t4)
  | .p => (evaluateParity .t4 .t5, .t4)
  | .s => (evaluateSign .t4 .t0, .t4)
  | .z => (evaluateZero .t4, .t4)

/-- `Setcc::generate` -/
def generate (inst : Instruction) (condition : Condition) : List Inst :=
  let (code, reg) := evaluate condition
  code ++ setValue inst reg

end Setcc

/-! ## Conditional moves -/

namespace Cmov

variable (inst : Instruction)

/-- `generate_move` -/
def generateMove : List Inst :=
  let size := inst.destinationSize
  let dst := inst.firstRegister
  match inst.getOperand 1 with
  | .mem srcSize base =>
      if size = .word then
        (inst.readFromMemory (.mem srcSize base) .t0 .t1 false).1 ++
          moveToRegister dst .t0 .word .t1 false
      else
        (inst.readFromMemory (.mem srcSize base) dst .t0 false).1
  | .reg _ register _ =>
      moveToRegister dst (mapReg register) (RegisterAccess.ofSize size) .t0
        false
  -- The operand is a register or in memory.
  | .imm _ | .none => []

/-- A branch whose target is behind some code. -/
def skip (branch : BitVec 32 -> Inst) (code : List Inst) : Inst :=
  branch (BitVec.ofNat 32 (4 * (1 + code.length)))

/-- `execute_operation` around the move. -/
def execute (move : List Inst) : Condition -> List Inst
  | .a =>
      evaluateZero .t4 ++
        branchOver (bnqz .t4)
          (evaluateCarry ++ branchOver (bnqz .t4) move)
  | .be =>
      evaluateZero .t4 ++
        branchOver (bnqz .t4) (evaluateCarry ++ [skip (beqz .t4) move]) ++
        move
  | .c => evaluateCarry ++ branchOver (beqz .t4) move
  | .g =>
      evaluateZero .t4 ++
        branchOver (bnqz .t4)
          (evaluateSign .t0 .t5 ++ evaluateOverflow ++
            branchOver (bne .t0 .t4) move)
  | .ge =>
      evaluateSign .t0 .t5 ++ evaluateOverflow ++
        branchOver (bne .t0 .t4) move
  | .l =>
      evaluateSign .t0 .t5 ++ evaluateOverflow ++
        branchOver (beq .t0 .t4) move
  | .le =>
      evaluateZero .t4 ++
        branchOver (bnqz .t4)
          (evaluateSign .t0 .t5 ++ evaluateOverflow ++
            [skip (beq .t0 .t4) move]) ++
        move
  | .nc => evaluateCarry ++ branchOver (bnqz .t4) move
  | .no => evaluateOverflow ++ branchOver (bnqz .t4) move
  | .np => evaluateParity .t4 .t5 ++ branchOver (bnqz .t4) move
  | .ns => evaluateSign .t4 .t0 ++ branchOver (bnqz .t4) move
  | .nz => evaluateZero .t4 ++ branchOver (bnqz .t4) move
  | .o => evaluateOverflow ++ branchOver (beqz .t4) move
  | .p => evaluateParity .t4 .t5 ++ branchOver (beqz .t4) move
  | .s => evaluateSign .t4 .t0 ++ branchOver (beqz .t4) move
  | .z => evaluateZero .t4 ++ branchOver (beqz .t4) move

/-- `Cmov::generate` -/
def generate (condition : Condition) : List Inst :=
  (if inst.destinationSize = .dword then
    [slli inst.firstRegister inst.firstRegister 32,
      srli inst.firstRegister inst.firstRegister 32]
  else
    []) ++ execute (generateMove inst) condition

end Cmov

/-! ## Conditional jumps -/

namespace Jcc

/-- `generate_jump`, and `Jmp::generate`. -/
def generateJump (inst : Instruction) : List Inst :=
  let target := inst.getOperand 0
  if target.isImm then
    appendEob inst.immediate
  else
    (inst.translateOperand target addressDestination .t0
      true false false false).code ++
      appendEobRegister addressDestination

/-- The jump is in front of the evaluation of further flags, and a branch
behind them goes back to it. -/
def jumpOrBack
    (jump further : List Inst)
    (branch : BitVec 32 -> Inst) : List Inst :=
  branchOver (beqz .t4) jump ++ further ++ [branchBack branch (jump ++ further)]

/-- `generate` around the jump. -/
def execute (jump : List Inst) : Condition -> List Inst
  | .a =>
      evaluateZero .t4 ++
        branchOver (bnqz .t4)
          (evaluateCarry ++ branchOver (bnqz .t4) jump)
  | .be =>
      evaluateZero .t4 ++ jumpOrBack jump evaluateCarry (bnqz .t4)
  | .c => evaluateCarry ++ branchOver (beqz .t4) jump
  | .g =>
      evaluateZero .t4 ++
        branchOver (bnqz .t4)
          (evaluateSign .t0 .t5 ++ evaluateOverflow ++
            branchOver (bne .t4 .t0) jump)
  | .ge =>
      evaluateSign .t0 .t5 ++ evaluateOverflow ++
        branchOver (bne .t4 .t0) jump
  | .l =>
      evaluateSign .t0 .t5 ++ evaluateOverflow ++
        branchOver (beq .t4 .t0) jump
  | .le =>
      evaluateZero .t4 ++
        jumpOrBack jump (evaluateSign .t0 .t5 ++ evaluateOverflow)
          (bne .t4 .t0)
  | .nc => evaluateCarry ++ branchOver (bnqz .t4) jump
  | .no => evaluateOverflow ++ branchOver (bnqz .t4) jump
  | .np => evaluateParity .t4 .t5 ++ branchOver (bnqz .t4) jump
  | .ns => evaluateSign .t4 .t0 ++ branchOver (bnqz .t4) jump
  | .nz => evaluateZero .t4 ++ branchOver (bnqz .t4) jump
  | .o => evaluateOverflow ++ branchOver (beqz .t4) jump
  | .p => evaluateParity .t4 .t5 ++ branchOver (beqz .t4) jump
  | .s => evaluateSign .t4 .t0 ++ branchOver (beqz .t4) jump
  | .z => evaluateZero .t4 ++ branchOver (beqz .t4) jump

/-- `Jcc::generate` -/
def generate (inst : Instruction) (condition : Condition) : List Inst :=
  execute (generateJump inst) condition

end Jcc

namespace Jcxz

/-- `Jcxz::generate`.  The branch tests `t4`, which is not the register that
the count is in. -/
def generate (inst : Instruction) : List Inst :=
  (if inst.addressSizeQword then
    []
  else
    [slli .t0 rcx 32, srli .t0 .t0 32]) ++
    branchOver (bnqz .t4) (Jcc.generateJump inst)

end Jcxz
end Oxtra

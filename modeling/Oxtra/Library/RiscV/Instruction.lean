import Mathlib.Data.BitVec

/-!
# The RV64IM instruction set

Registers and instructions of the 64-bit integer instruction set with
multiplication and division, without fences, breakpoints and control registers.
-/

namespace Oxtra
namespace RiscV

/-- The integer registers, by their conventional names. -/
inductive Register where
  | zero | ra | sp | gp | tp
  | t0 | t1 | t2
  | s0 | s1
  | a0 | a1 | a2 | a3 | a4 | a5 | a6 | a7
  | s2 | s3 | s4 | s5 | s6 | s7 | s8 | s9 | s10 | s11
  | t3 | t4 | t5 | t6
  deriving DecidableEq, Repr

namespace Register

/-- Number of the register in an instruction word. -/
def number : Register -> BitVec 5
  | zero => 0 | ra => 1 | sp => 2 | gp => 3 | tp => 4
  | t0 => 5 | t1 => 6 | t2 => 7
  | s0 => 8 | s1 => 9
  | a0 => 10 | a1 => 11 | a2 => 12 | a3 => 13
  | a4 => 14 | a5 => 15 | a6 => 16 | a7 => 17
  | s2 => 18 | s3 => 19 | s4 => 20 | s5 => 21 | s6 => 22
  | s7 => 23 | s8 => 24 | s9 => 25 | s10 => 26 | s11 => 27
  | t3 => 28 | t4 => 29 | t5 => 30 | t6 => 31

/-- The register with a number. -/
def ofNumber (number : BitVec 5) : Register :=
  match number.toNat with
  | 0 => zero | 1 => ra | 2 => sp | 3 => gp | 4 => tp
  | 5 => t0 | 6 => t1 | 7 => t2
  | 8 => s0 | 9 => s1
  | 10 => a0 | 11 => a1 | 12 => a2 | 13 => a3
  | 14 => a4 | 15 => a5 | 16 => a6 | 17 => a7
  | 18 => s2 | 19 => s3 | 20 => s4 | 21 => s5 | 22 => s6
  | 23 => s7 | 24 => s8 | 25 => s9 | 26 => s10 | 27 => s11
  | 28 => t3 | 29 => t4 | 30 => t5 | _ => t6

@[simp] theorem ofNumber_number (register : Register) :
    ofNumber register.number = register := by
  cases register <;> rfl

end Register

/-- Operations on two registers. -/
inductive Op where
  | add | sub | sll | slt | sltu | xor | srl | sra | or | and
  | mul | mulh | mulhsu | mulhu | div | divu | rem | remu
  deriving DecidableEq, Repr

/-- Operations on the low words of two registers. -/
inductive OpW where
  | addw | subw | sllw | srlw | sraw
  deriving DecidableEq, Repr

/-- Operations on a register and an immediate. -/
inductive OpImm where
  | addi | slti | sltiu | xori | ori | andi
  deriving DecidableEq, Repr

/-- Shifts by an immediate. -/
inductive Shift where
  | slli | srli | srai
  deriving DecidableEq, Repr

/-- Widths of the memory accesses. -/
inductive Width where
  | byte | half | word | double
  deriving DecidableEq, Repr

/-- Number of bytes of an access. -/
def Width.bytes : Width -> Nat
  | byte => 1
  | half => 2
  | word => 4
  | double => 8

/-- Number of bits of an access. -/
def Width.bits (width : Width) : Nat := 8 * width.bytes

theorem Width.bits_pos (width : Width) : 0 < width.bits := by
  cases width <;> decide

theorem Width.bytes_le (width : Width) : width.bytes ≤ 8 := by
  cases width <;> decide

theorem Width.two_pow_bits (width : Width) :
    2 ^ width.bits = 256 ^ width.bytes := by
  rw [Width.bits, Nat.pow_mul]

inductive Load where
  | lb | lh | lw | ld | lbu | lhu | lwu
  deriving DecidableEq, Repr

def Load.width : Load -> Width
  | lb | lbu => .byte
  | lh | lhu => .half
  | lw | lwu => .word
  | ld => .double

inductive Store where
  | sb | sh | sw | sd
  deriving DecidableEq, Repr

def Store.width : Store -> Width
  | sb => .byte
  | sh => .half
  | sw => .word
  | sd => .double

/-- Conditions of the branches. -/
inductive Branch where
  | beq | bne | blt | bge | bltu | bgeu
  deriving DecidableEq, Repr

/-- Instructions, with the immediates that their words hold.  The offsets of
branches and jumps are even: their lowest bit is not part of the word. -/
inductive Inst where
  | lui (rd : Register) (imm : BitVec 20)
  | auipc (rd : Register) (imm : BitVec 20)
  | jal (rd : Register) (offset : BitVec 20)
  | jalr (rd rs1 : Register) (offset : BitVec 12)
  | branch (op : Branch) (rs1 rs2 : Register) (offset : BitVec 12)
  | load (op : Load) (rd rs1 : Register) (imm : BitVec 12)
  | store (op : Store) (rs1 rs2 : Register) (imm : BitVec 12)
  | opImm (op : OpImm) (rd rs1 : Register) (imm : BitVec 12)
  | shift (op : Shift) (rd rs1 : Register) (shamt : BitVec 6)
  | op (op : Op) (rd rs1 rs2 : Register)
  | opW (op : OpW) (rd rs1 rs2 : Register)
  | shiftW (op : Shift) (rd rs1 : Register) (shamt : BitVec 5)
  | ecall
  deriving DecidableEq, Repr

end RiscV
end Oxtra

import Oxtra.Library.RiscV.Instruction

/-!
# Encoding of RISC-V instructions

The functions that the translation calls to make instructions.  The immediate
is cut to the width of its field in the instruction.
-/

namespace Oxtra
namespace Encoding

open RiscV

/-! ## Base instructions -/

def lui (rd : Register) (imm : BitVec 32) : Inst :=
  .lui rd (imm.setWidth 20)

def auipc (rd : Register) (imm : BitVec 32) : Inst :=
  .auipc rd (imm.setWidth 20)

/-- The lowest bit of the offset is not encoded. -/
def jal (rd : Register) (offset : BitVec 32) : Inst :=
  .jal rd (offset.extractLsb' 1 20)

def jalr (rd rs1 : Register) (offset : BitVec 16) : Inst :=
  .jalr rd rs1 (offset.setWidth 12)

/-- A branch without the lowest bit of its offset. -/
def btype
    (kind : Branch)
    (rs1 rs2 : Register)
    (offset : BitVec 32) : Inst :=
  .branch kind rs1 rs2 (offset.extractLsb' 1 12)

def beq : Register -> Register -> BitVec 32 -> Inst := btype .beq
def bne : Register -> Register -> BitVec 32 -> Inst := btype .bne
def blt : Register -> Register -> BitVec 32 -> Inst := btype .blt
def bge : Register -> Register -> BitVec 32 -> Inst := btype .bge
def bltu : Register -> Register -> BitVec 32 -> Inst := btype .bltu
def bgeu : Register -> Register -> BitVec 32 -> Inst := btype .bgeu

def load (kind : Load) (rd rs1 : Register) (imm : BitVec 16) : Inst :=
  .load kind rd rs1 (imm.setWidth 12)

def lb : Register -> Register -> BitVec 16 -> Inst := load .lb
def lh : Register -> Register -> BitVec 16 -> Inst := load .lh
def lw : Register -> Register -> BitVec 16 -> Inst := load .lw
def ld : Register -> Register -> BitVec 16 -> Inst := load .ld
def lbu : Register -> Register -> BitVec 16 -> Inst := load .lbu
def lhu : Register -> Register -> BitVec 16 -> Inst := load .lhu
def lwu : Register -> Register -> BitVec 16 -> Inst := load .lwu

/-- The base register comes first, then the register that is stored. -/
def store (kind : Store) (rs1 rs2 : Register) (imm : BitVec 32) : Inst :=
  .store kind rs1 rs2 (imm.setWidth 12)

def sb : Register -> Register -> BitVec 32 -> Inst := store .sb
def sh : Register -> Register -> BitVec 32 -> Inst := store .sh
def sw : Register -> Register -> BitVec 32 -> Inst := store .sw
def sd : Register -> Register -> BitVec 32 -> Inst := store .sd

def opImm (kind : OpImm) (rd rs1 : Register) (imm : BitVec 16) : Inst :=
  .opImm kind rd rs1 (imm.setWidth 12)

def addi : Register -> Register -> BitVec 16 -> Inst := opImm .addi
def slti : Register -> Register -> BitVec 16 -> Inst := opImm .slti
def sltiu : Register -> Register -> BitVec 16 -> Inst := opImm .sltiu
def xori : Register -> Register -> BitVec 16 -> Inst := opImm .xori
def ori : Register -> Register -> BitVec 16 -> Inst := opImm .ori
def andi : Register -> Register -> BitVec 16 -> Inst := opImm .andi

def shift (kind : Shift) (rd rs1 : Register) (shamt : BitVec 8) : Inst :=
  .shift kind rd rs1 (shamt.setWidth 6)

def slli : Register -> Register -> BitVec 8 -> Inst := shift .slli
def srli : Register -> Register -> BitVec 8 -> Inst := shift .srli
def srai : Register -> Register -> BitVec 8 -> Inst := shift .srai

def add : Register -> Register -> Register -> Inst := .op .add
def sub : Register -> Register -> Register -> Inst := .op .sub
def sll : Register -> Register -> Register -> Inst := .op .sll
def slt : Register -> Register -> Register -> Inst := .op .slt
def sltu : Register -> Register -> Register -> Inst := .op .sltu
def xor : Register -> Register -> Register -> Inst := .op .xor
def srl : Register -> Register -> Register -> Inst := .op .srl
def sra : Register -> Register -> Register -> Inst := .op .sra
def or : Register -> Register -> Register -> Inst := .op .or
def and : Register -> Register -> Register -> Inst := .op .and

/-! ## 64-bit instructions -/

def addw : Register -> Register -> Register -> Inst := .opW .addw
def subw : Register -> Register -> Register -> Inst := .opW .subw
def sllw : Register -> Register -> Register -> Inst := .opW .sllw
def srlw : Register -> Register -> Register -> Inst := .opW .srlw
def sraw : Register -> Register -> Register -> Inst := .opW .sraw

def shiftW (kind : Shift) (rd rs : Register) (shamt : BitVec 8) : Inst :=
  .shiftW kind rd rs (shamt.setWidth 5)

def slliw : Register -> Register -> BitVec 8 -> Inst := shiftW .slli
def srliw : Register -> Register -> BitVec 8 -> Inst := shiftW .srli
def sraiw : Register -> Register -> BitVec 8 -> Inst := shiftW .srai

/-! ## Multiplication and division -/

def mul : Register -> Register -> Register -> Inst := .op .mul
def mulh : Register -> Register -> Register -> Inst := .op .mulh
def mulhsu : Register -> Register -> Register -> Inst := .op .mulhsu
def mulhu : Register -> Register -> Register -> Inst := .op .mulhu
def div : Register -> Register -> Register -> Inst := .op .div
def divu : Register -> Register -> Register -> Inst := .op .divu
def rem : Register -> Register -> Register -> Inst := .op .rem
def remu : Register -> Register -> Register -> Inst := .op .remu

/-! ## Pseudoinstructions -/

def nop : Inst := addi .zero .zero 0

def mv (rd rs : Register) : Inst := addi rd rs 0

def not (rd rs : Register) : Inst := xori rd rs (-1)

def neg (rd rs : Register) : Inst := sub rd .zero rs

def seqz (rd rs : Register) : Inst := sltiu rd rs 1

def snez (rd rs : Register) : Inst := sltu rd .zero rs

def sltz (rd rs : Register) : Inst := slt rd rs .zero

def sgtz (rd rs : Register) : Inst := slt rd .zero rs

def beqz (rs : Register) (offset : BitVec 32) : Inst := beq rs .zero offset

def bnqz (rs : Register) (offset : BitVec 32) : Inst := bne rs .zero offset

def blez (rs : Register) (offset : BitVec 32) : Inst := bge .zero rs offset

def bgez (rs : Register) (offset : BitVec 32) : Inst := bge rs .zero offset

def bltz (rs : Register) (offset : BitVec 32) : Inst := blt rs .zero offset

def bgtz (rs : Register) (offset : BitVec 32) : Inst := beq .zero rs offset

def bgt (rs1 rs2 : Register) (offset : BitVec 32) : Inst := blt rs2 rs1 offset

def ble (rs1 rs2 : Register) (offset : BitVec 32) : Inst := bge rs2 rs1 offset

def bgtu (rs1 rs2 : Register) (offset : BitVec 32) : Inst :=
  bltu rs2 rs1 offset

def bleu (rs1 rs2 : Register) (offset : BitVec 32) : Inst :=
  bgeu rs2 rs1 offset

def j (offset : BitVec 32) : Inst := jal .zero offset

/-- Return to the address in `ra`. -/
def ret : Inst := jalr .zero .ra 0

end Encoding
end Oxtra

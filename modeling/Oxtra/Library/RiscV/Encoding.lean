import Oxtra.Library.RiscV.Instruction

/-!
# Instruction words

The words of the instructions in the six formats of the instruction set, and
the instruction of a word.  A word that is made from an instruction is decoded
to that instruction.
-/

namespace Oxtra
namespace RiscV

/-! ## Formats -/

namespace Format

def rtype
    (opcode : BitVec 7)
    (rd : BitVec 5)
    (funct3 : BitVec 3)
    (rs1 rs2 : BitVec 5)
    (funct7 : BitVec 7) : BitVec 32 :=
  funct7 ++ (rs2 ++ (rs1 ++ (funct3 ++ (rd ++ opcode))))

def itype
    (opcode : BitVec 7)
    (rd : BitVec 5)
    (funct3 : BitVec 3)
    (rs1 : BitVec 5)
    (imm : BitVec 12) : BitVec 32 :=
  imm ++ (rs1 ++ (funct3 ++ (rd ++ opcode)))

def utype
    (opcode : BitVec 7)
    (rd : BitVec 5)
    (imm : BitVec 20) : BitVec 32 :=
  imm ++ (rd ++ opcode)

def opcode (word : BitVec 32) : BitVec 7 := word.extractLsb' 0 7
def rd (word : BitVec 32) : BitVec 5 := word.extractLsb' 7 5
def funct3 (word : BitVec 32) : BitVec 3 := word.extractLsb' 12 3
def rs1 (word : BitVec 32) : BitVec 5 := word.extractLsb' 15 5
def rs2 (word : BitVec 32) : BitVec 5 := word.extractLsb' 20 5
def funct7 (word : BitVec 32) : BitVec 7 := word.extractLsb' 25 7
def immI (word : BitVec 32) : BitVec 12 := word.extractLsb' 20 12
def immU (word : BitVec 32) : BitVec 20 := word.extractLsb' 12 20

/-- Appended fields as a number. -/
theorem toNat_append
    {high low : Nat}
    (x : BitVec high)
    (y : BitVec low) :
    (x ++ y).toNat = x.toNat * 2 ^ low + y.toNat := by
  rw [BitVec.toNat_append, ← Nat.shiftLeft_add_eq_or_of_lt y.isLt,
    Nat.shiftLeft_eq]

theorem toNat_extractLsb'
    {width : Nat}
    (start length : Nat)
    (x : BitVec width) :
    (x.extractLsb' start length).toNat =
      x.toNat / 2 ^ start % 2 ^ length := by
  rw [BitVec.extractLsb'_toNat, Nat.shiftRight_eq_div_pow]

theorem extract_eq
    {width start length : Nat}
    {x : BitVec width}
    {field : BitVec length}
    (content : x.toNat / 2 ^ start % 2 ^ length = field.toNat) :
    x.extractLsb' start length = field :=
  BitVec.eq_of_toNat_eq ((toNat_extractLsb' start length x).trans content)

section Fields

variable
  (op : BitVec 7)
  (d a b : BitVec 5)
  (f : BitVec 3)
  (g : BitVec 7)
  (i : BitVec 12)
  (u : BitVec 20)

theorem rtype_toNat :
    (rtype op d f a b g).toNat =
      op.toNat + 2 ^ 7 * (d.toNat + 2 ^ 5 * (f.toNat + 2 ^ 3 * (a.toNat +
        2 ^ 5 * (b.toNat + 2 ^ 5 * g.toNat)))) := by
  rw [rtype, toNat_append, toNat_append, toNat_append, toNat_append,
    toNat_append]
  omega

theorem itype_toNat :
    (itype op d f a i).toNat =
      op.toNat + 2 ^ 7 * (d.toNat + 2 ^ 5 * (f.toNat + 2 ^ 3 * (a.toNat +
        2 ^ 5 * i.toNat))) := by
  rw [itype, toNat_append, toNat_append, toNat_append, toNat_append]
  omega

theorem utype_toNat :
    (utype op d u).toNat =
      op.toNat + 2 ^ 7 * (d.toNat + 2 ^ 5 * u.toNat) := by
  rw [utype, toNat_append, toNat_append]
  omega

@[simp] theorem opcode_rtype : opcode (rtype op d f a b g) = op :=
  extract_eq (by rw [rtype_toNat]; omega)

@[simp] theorem rd_rtype : rd (rtype op d f a b g) = d :=
  extract_eq (by rw [rtype_toNat]; omega)

@[simp] theorem funct3_rtype : funct3 (rtype op d f a b g) = f :=
  extract_eq (by rw [rtype_toNat]; omega)

@[simp] theorem rs1_rtype : rs1 (rtype op d f a b g) = a :=
  extract_eq (by rw [rtype_toNat]; omega)

@[simp] theorem rs2_rtype : rs2 (rtype op d f a b g) = b :=
  extract_eq (by rw [rtype_toNat]; omega)

@[simp] theorem funct7_rtype : funct7 (rtype op d f a b g) = g :=
  extract_eq (by rw [rtype_toNat]; omega)

@[simp] theorem opcode_itype : opcode (itype op d f a i) = op :=
  extract_eq (by rw [itype_toNat]; omega)

@[simp] theorem rd_itype : rd (itype op d f a i) = d :=
  extract_eq (by rw [itype_toNat]; omega)

@[simp] theorem funct3_itype : funct3 (itype op d f a i) = f :=
  extract_eq (by rw [itype_toNat]; omega)

@[simp] theorem rs1_itype : rs1 (itype op d f a i) = a :=
  extract_eq (by rw [itype_toNat]; omega)

@[simp] theorem immI_itype : immI (itype op d f a i) = i :=
  extract_eq (by rw [itype_toNat]; omega)

@[simp] theorem opcode_utype : opcode (utype op d u) = op :=
  extract_eq (by rw [utype_toNat]; omega)

@[simp] theorem rd_utype : rd (utype op d u) = d :=
  extract_eq (by rw [utype_toNat]; omega)

@[simp] theorem immU_utype : immU (utype op d u) = u :=
  extract_eq (by rw [utype_toNat]; omega)

end Fields

/-- The parts of the offset of a branch, in the order of the word. -/
def branchHigh (offset : BitVec 12) : BitVec 7 :=
  offset.extractLsb' 11 1 ++ offset.extractLsb' 4 6

@[inherit_doc branchHigh] def branchLow (offset : BitVec 12) : BitVec 5 :=
  offset.extractLsb' 0 4 ++ offset.extractLsb' 10 1

def branchOffset (high : BitVec 7) (low : BitVec 5) : BitVec 12 :=
  high.extractLsb' 6 1 ++ (low.extractLsb' 0 1 ++
    (high.extractLsb' 0 6 ++ low.extractLsb' 1 4))

theorem branchOffset_append
    (a c : BitVec 1)
    (b : BitVec 6)
    (d : BitVec 4) :
    branchOffset (a ++ b) (d ++ c) = a ++ (c ++ (b ++ d)) := by
  apply BitVec.eq_of_toNat_eq
  simp only [branchOffset, toNat_append, toNat_extractLsb']
  omega

theorem branchOffset_split (offset : BitVec 12) :
    branchOffset (branchHigh offset) (branchLow offset) = offset := by
  rw [branchHigh, branchLow, branchOffset_append]
  apply BitVec.eq_of_toNat_eq
  have bound := offset.isLt
  simp only [toNat_append, toNat_extractLsb']
  omega

/-- The parts of the offset of a jump, in the order of the word. -/
def jumpParts (offset : BitVec 20) : BitVec 20 :=
  offset.extractLsb' 19 1 ++ (offset.extractLsb' 0 10 ++
    (offset.extractLsb' 10 1 ++ offset.extractLsb' 11 8))

def jumpOffset (parts : BitVec 20) : BitVec 20 :=
  parts.extractLsb' 19 1 ++ (parts.extractLsb' 0 8 ++
    (parts.extractLsb' 8 1 ++ parts.extractLsb' 9 10))

theorem jumpOffset_append
    (a c : BitVec 1)
    (b : BitVec 10)
    (d : BitVec 8) :
    jumpOffset (a ++ (b ++ (c ++ d))) = a ++ (d ++ (c ++ b)) := by
  apply BitVec.eq_of_toNat_eq
  simp only [jumpOffset, toNat_append, toNat_extractLsb']
  omega

theorem jumpOffset_parts (offset : BitVec 20) :
    jumpOffset (jumpParts offset) = offset := by
  rw [jumpParts, jumpOffset_append]
  apply BitVec.eq_of_toNat_eq
  have bound := offset.isLt
  simp only [toNat_append, toNat_extractLsb']
  omega

/-- The two parts of an immediate that is split at bit five. -/
theorem split_imm (imm : BitVec 12) :
    (imm.extractLsb' 5 7 ++ imm.extractLsb' 0 5 : BitVec 12) = imm := by
  apply BitVec.eq_of_toNat_eq
  have bound := imm.isLt
  rw [toNat_append, toNat_extractLsb', toNat_extractLsb']
  omega

end Format

/-! ## Selectors -/

namespace Op

def funct3 : Op -> BitVec 3
  | add | sub | mul => 0
  | sll | mulh => 1
  | slt | mulhsu => 2
  | sltu | mulhu => 3
  | xor | div => 4
  | srl | sra | divu => 5
  | or | rem => 6
  | and | remu => 7

def funct7 : Op -> BitVec 7
  | sub | sra => 0x20
  | mul | mulh | mulhsu | mulhu | div | divu | rem | remu => 1
  | _ => 0

def ofFuncts (funct3 : BitVec 3) (funct7 : BitVec 7) : Option Op :=
  [add, sub, sll, slt, sltu, xor, srl, sra, or, and, mul, mulh, mulhsu, mulhu,
    div, divu, rem, remu].find? fun op =>
      op.funct3 = funct3 && op.funct7 = funct7

@[simp] theorem ofFuncts_functs (op : Op) :
    ofFuncts op.funct3 op.funct7 = some op := by
  cases op <;> decide

end Op

namespace OpW

def funct3 : OpW -> BitVec 3
  | addw | subw => 0
  | sllw => 1
  | srlw | sraw => 5

def funct7 : OpW -> BitVec 7
  | subw | sraw => 0x20
  | _ => 0

def ofFuncts (funct3 : BitVec 3) (funct7 : BitVec 7) : Option OpW :=
  [addw, subw, sllw, srlw, sraw].find? fun op =>
    op.funct3 = funct3 && op.funct7 = funct7

@[simp] theorem ofFuncts_functs (op : OpW) :
    ofFuncts op.funct3 op.funct7 = some op := by
  cases op <;> decide

end OpW

namespace OpImm

def funct3 : OpImm -> BitVec 3
  | addi => 0
  | slti => 2
  | sltiu => 3
  | xori => 4
  | ori => 6
  | andi => 7

def ofFunct3 (funct3 : BitVec 3) : Option OpImm :=
  [addi, slti, sltiu, xori, ori, andi].find? fun op => op.funct3 = funct3

@[simp] theorem ofFunct3_funct3 (op : OpImm) :
    ofFunct3 op.funct3 = some op := by
  cases op <;> decide

end OpImm

namespace Shift

def funct3 : Shift -> BitVec 3
  | slli => 1
  | srli | srai => 5

/-- The upper bits of the immediate of a shift. -/
def funct6 : Shift -> BitVec 6
  | srai => 0x10
  | _ => 0

def ofFuncts (funct3 : BitVec 3) (funct6 : BitVec 6) : Option Shift :=
  [slli, srli, srai].find? fun op =>
    op.funct3 = funct3 && op.funct6 = funct6

@[simp] theorem ofFuncts_functs (op : Shift) :
    ofFuncts op.funct3 op.funct6 = some op := by
  cases op <;> decide

end Shift

namespace Load

def funct3 : Load -> BitVec 3
  | lb => 0
  | lh => 1
  | lw => 2
  | ld => 3
  | lbu => 4
  | lhu => 5
  | lwu => 6

def ofFunct3 (funct3 : BitVec 3) : Option Load :=
  [lb, lh, lw, ld, lbu, lhu, lwu].find? fun op => op.funct3 = funct3

@[simp] theorem ofFunct3_funct3 (op : Load) :
    ofFunct3 op.funct3 = some op := by
  cases op <;> decide

end Load

namespace Store

def funct3 : Store -> BitVec 3
  | sb => 0
  | sh => 1
  | sw => 2
  | sd => 3

def ofFunct3 (funct3 : BitVec 3) : Option Store :=
  [sb, sh, sw, sd].find? fun op => op.funct3 = funct3

@[simp] theorem ofFunct3_funct3 (op : Store) :
    ofFunct3 op.funct3 = some op := by
  cases op <;> decide

end Store

namespace Branch

def funct3 : Branch -> BitVec 3
  | beq => 0
  | bne => 1
  | blt => 4
  | bge => 5
  | bltu => 6
  | bgeu => 7

def ofFunct3 (funct3 : BitVec 3) : Option Branch :=
  [beq, bne, blt, bge, bltu, bgeu].find? fun op => op.funct3 = funct3

@[simp] theorem ofFunct3_funct3 (op : Branch) :
    ofFunct3 op.funct3 = some op := by
  cases op <;> decide

end Branch

/-! ## Words -/

namespace Inst

open Format

/-- The word of an instruction. -/
def encode : Inst -> BitVec 32
  | lui rd imm => utype 55 rd.number imm
  | auipc rd imm => utype 23 rd.number imm
  | jal rd offset => utype 111 rd.number (jumpParts offset)
  | jalr rd rs1 offset => itype 103 rd.number 0 rs1.number offset
  | branch kind rs1 rs2 offset =>
      rtype 99 (branchLow offset) kind.funct3 rs1.number rs2.number
        (branchHigh offset)
  | load kind rd rs1 imm => itype 3 rd.number kind.funct3 rs1.number imm
  | store kind rs1 rs2 imm =>
      rtype 35 (imm.extractLsb' 0 5) kind.funct3 rs1.number rs2.number
        (imm.extractLsb' 5 7)
  | opImm kind rd rs1 imm => itype 19 rd.number kind.funct3 rs1.number imm
  | shift kind rd rs1 shamt =>
      itype 19 rd.number kind.funct3 rs1.number (kind.funct6 ++ shamt)
  | op kind rd rs1 rs2 =>
      rtype 51 rd.number kind.funct3 rs1.number rs2.number kind.funct7
  | opW kind rd rs1 rs2 =>
      rtype 59 rd.number kind.funct3 rs1.number rs2.number kind.funct7
  | shiftW kind rd rs1 shamt =>
      rtype 27 rd.number kind.funct3 rs1.number shamt (kind.funct6 ++ 0#1)
  | ecall => itype 115 0 0 0 0

/-- The instruction of a word with the opcode of operations on an
immediate. -/
def decodeImm (word : BitVec 32) : Option Inst :=
  let rd := Register.ofNumber (rd word)
  let rs1 := Register.ofNumber (rs1 word)
  match OpImm.ofFunct3 (funct3 word) with
  | some kind => some (opImm kind rd rs1 (immI word))
  | none =>
      (Shift.ofFuncts (funct3 word) ((immI word).extractLsb' 6 6)).map
        fun kind => shift kind rd rs1 ((immI word).extractLsb' 0 6)

/-- The instruction of a word. -/
def decode (word : BitVec 32) : Option Inst :=
  let rd := Register.ofNumber (Format.rd word)
  let rs1 := Register.ofNumber (Format.rs1 word)
  let rs2 := Register.ofNumber (Format.rs2 word)
  match (opcode word).toNat with
  | 55 => some (lui rd (immU word))
  | 23 => some (auipc rd (immU word))
  | 111 => some (jal rd (jumpOffset (immU word)))
  | 103 =>
      if funct3 word = 0 then some (jalr rd rs1 (immI word)) else none
  | 99 =>
      (Branch.ofFunct3 (funct3 word)).map fun op =>
        branch op rs1 rs2 (branchOffset (funct7 word) (Format.rd word))
  | 3 =>
      (Load.ofFunct3 (funct3 word)).map fun op => load op rd rs1 (immI word)
  | 35 =>
      (Store.ofFunct3 (funct3 word)).map fun op =>
        store op rs1 rs2 (funct7 word ++ Format.rd word : BitVec 12)
  | 19 => decodeImm word
  | 51 =>
      (Op.ofFuncts (funct3 word) (funct7 word)).map fun kind =>
        op kind rd rs1 rs2
  | 59 =>
      (OpW.ofFuncts (funct3 word) (funct7 word)).map fun kind =>
        opW kind rd rs1 rs2
  | 27 =>
      (Shift.ofFuncts (funct3 word) ((funct7 word).extractLsb' 1 6)).map
        fun kind => shiftW kind rd rs1 (Format.rs2 word)
  | 115 => if word = itype 115 0 0 0 0 then some ecall else none
  | _ => none

theorem ofFunct3_shift (op : Shift) : OpImm.ofFunct3 op.funct3 = none := by
  cases op <;> decide

theorem shift_high (high : BitVec 6) (shamt : BitVec 6) :
    (high ++ shamt : BitVec 12).extractLsb' 6 6 = high :=
  BitVec.extractLsb'_append_eq_left

theorem shift_low (high : BitVec 6) (shamt : BitVec 6) :
    (high ++ shamt : BitVec 12).extractLsb' 0 6 = shamt :=
  BitVec.extractLsb'_append_eq_right

theorem shiftW_high (high : BitVec 6) :
    (high ++ 0#1 : BitVec 7).extractLsb' 1 6 = high :=
  BitVec.extractLsb'_append_eq_left

/-- The word of an instruction is decoded to the instruction. -/
theorem decode_encode (inst : Inst) : decode inst.encode = some inst := by
  cases inst with
  | lui rd imm => simp [encode, decode]
  | auipc rd imm => simp [encode, decode]
  | jal rd offset => simp [encode, decode, jumpOffset_parts]
  | jalr rd rs1 offset => simp [encode, decode]
  | branch kind rs1 rs2 offset => simp [encode, decode, branchOffset_split]
  | load kind rd rs1 imm => simp [encode, decode]
  | store kind rs1 rs2 imm => simp [encode, decode, split_imm]
  | opImm kind rd rs1 imm => simp [encode, decode, decodeImm]
  | shift kind rd rs1 shamt =>
      simp [encode, decode, decodeImm, ofFunct3_shift, shift_high, shift_low]
  | op kind rd rs1 rs2 => simp [encode, decode]
  | opW kind rd rs1 rs2 => simp [encode, decode]
  | shiftW kind rd rs1 shamt => simp [encode, decode, shiftW_high]
  | ecall => rfl

/-- Different instructions have different words. -/
theorem encode_injective
    {first second : Inst}
    (same : first.encode = second.encode) :
    first = second := by
  have decoded := congrArg decode same
  rw [decode_encode, decode_encode] at decoded
  exact Option.some.inj decoded

end Inst

end RiscV
end Oxtra

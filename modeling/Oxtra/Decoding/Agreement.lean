import Oxtra.Decoding
import Mathlib.Data.List.Find

/-!
# The encoders agree with the printer

The text of an encoded instruction is its mnemonic with the operands that the
encoder was called with, and calls with different operands make different
words.
-/

namespace Oxtra
namespace Decoding

open RiscV

/-! ## Fields of a word -/

theorem splitOff_eq
    (word : BitVec 32)
    (offset : Nat)
    {size : Nat}
    (fits : size ≤ 32) :
    splitOff word offset size =
      (word.extractLsb' offset size).setWidth 32 := by
  ext index inside
  simp only [splitOff, BitVec.getElem_and, BitVec.getElem_ushiftRight,
    BitVec.getElem_setWidth, BitVec.getLsbD_extractLsb']
  have mask : (0xFFFFFFFF#32).getLsbD (32 - size + index) =
      decide (index < size) := by
    change (BitVec.allOnes 32).getLsbD _ = _
    rw [BitVec.getLsbD_allOnes]
    simp only [decide_eq_decide]
    omega
  rw [mask, Bool.and_comm]

section Fields

variable (word : BitVec 32)

theorem splitOff_opcode :
    splitOff word 0 7 = (Format.opcode word).setWidth 32 :=
  splitOff_eq word 0 (by decide)

theorem splitOff_rd : splitOff word 7 5 = (Format.rd word).setWidth 32 :=
  splitOff_eq word 7 (by decide)

theorem splitOff_funct3 :
    splitOff word 12 3 = (Format.funct3 word).setWidth 32 :=
  splitOff_eq word 12 (by decide)

theorem splitOff_rs1 : splitOff word 15 5 = (Format.rs1 word).setWidth 32 :=
  splitOff_eq word 15 (by decide)

theorem splitOff_rs2 : splitOff word 20 5 = (Format.rs2 word).setWidth 32 :=
  splitOff_eq word 20 (by decide)

theorem splitOff_funct7 :
    splitOff word 25 7 = (Format.funct7 word).setWidth 32 :=
  splitOff_eq word 25 (by decide)

theorem splitOff_immI : splitOff word 20 12 = (Format.immI word).setWidth 32 :=
  splitOff_eq word 20 (by decide)

theorem splitOff_immU : splitOff word 12 20 = (Format.immU word).setWidth 32 :=
  splitOff_eq word 12 (by decide)

/-- A part of a field. -/
theorem splitOff_part
    (start length offset : Nat)
    {size : Nat}
    (inside : offset + size ≤ length)
    (fits : size ≤ 32) :
    splitOff word (start + offset) size =
      ((word.extractLsb' start length).extractLsb' offset size).setWidth
        32 := by
  rw [splitOff_eq word _ fits]
  congr 1
  ext index bound
  simp only [BitVec.getElem_extractLsb', BitVec.getLsbD_extractLsb']
  rw [decide_eq_true (by omega : offset + index < length), Bool.true_and,
    Nat.add_assoc]

end Fields

/-! ## Numbers -/

/-- A number as it is printed. -/
def numberText (value : Nat) : String :=
  " 0x" ++ hexString value ++ "(" ++ toString value ++ ")"

/-- An immediate with its sign. -/
def immediateText (value : Int) : String :=
  if value < 0 then
    " -0x" ++ hexString value.natAbs ++ "(-" ++ toString value.natAbs ++ ")"
  else
    numberText value.natAbs

/-- An offset behind its base. -/
def offsetText (value : Int) : String :=
  if value = 0 then
    ""
  else if value < 0 then
    " -" ++ numberText value.natAbs
  else
    " +" ++ numberText value.natAbs

theorem parseNumber_eq (nbr : BitVec 32) :
    parseNumber nbr false = numberText nbr.toNat :=
  rfl

theorem parseNumber_negative (nbr : BitVec 32) :
    parseNumber nbr true =
      " -0x" ++ hexString nbr.toNat ++ "(-" ++ toString nbr.toNat ++ ")" :=
  rfl

section Signs

variable {field width : Nat} (x : BitVec (field + 1))

/-- The sign of a field is its highest bit. -/
theorem sign_ne_zero (wide : field + 1 ≤ width) :
    x.setWidth width &&& BitVec.twoPow width field ≠ 0 ↔ x.toInt < 0 := by
  have sign : (x.setWidth width).getLsbD field = x.msb := by
    rw [BitVec.getLsbD_setWidth, decide_eq_true (by omega), Bool.true_and,
      BitVec.msb_eq_getLsbD_last]
    rfl
  rw [BitVec.and_twoPow, sign, ← decide_eq_true_iff (p := x.toInt < 0),
    ← BitVec.msb_eq_toInt]
  cases x.msb with
  | false => simp
  | true =>
      have inside : (BitVec.twoPow width field).toNat ≠ 0 := by
        rw [BitVec.toNat_twoPow, Nat.mod_eq_of_lt
          (Nat.pow_lt_pow_right (by decide) wide)]
        exact Nat.two_pow_pos field |>.ne'
      simp only [if_true, iff_true]
      exact fun zero => inside (congrArg BitVec.toNat zero)

/-- The bits above a field with a sign complete the sign extension. -/
theorem extended_eq
    (negative : x.toInt < 0) :
    x.setWidth width ||| BitVec.allOnes width <<< (field + 1) =
      BitVec.ofInt width x.toInt := by
  have msb : x.msb = true := by
    rw [BitVec.msb_eq_toInt]
    exact decide_eq_true negative
  change _ = x.signExtend width
  ext index inside
  simp only [BitVec.getElem_or, BitVec.getElem_setWidth,
    BitVec.getElem_shiftLeft, BitVec.getElem_signExtend, msb,
    BitVec.getElem_allOnes]
  by_cases low : index < field + 1
  · simp [low, BitVec.getLsbD_eq_getElem]
  · simp [low]

/-- The number that is printed after the minus sign. -/
theorem negated_toNat
    (wide : field + 1 ≤ width)
    (negative : x.toInt < 0) :
    (~~~(x.setWidth width ||| BitVec.allOnes width <<< (field + 1)) +
      1).toNat = x.toInt.natAbs := by
  have lower := BitVec.le_toInt x
  have power : (2 : Int) ^ field < 2 ^ width := by
    exact_mod_cast Nat.pow_lt_pow_right (by decide) wide
  have flipped (y : BitVec width) : ~~~y + 1 = -y :=
    (BitVec.neg_eq_not_add y).symm
  rw [extended_eq x negative, flipped, ← BitVec.ofInt_neg,
    BitVec.toNat_ofInt, Int.emod_eq_of_lt (by omega)]
  · omega
  · simp only [Nat.add_sub_cancel] at lower
    push_cast
    omega

theorem positive_toNat
    (wide : field + 1 ≤ width)
    (notNegative : ¬x.toInt < 0) :
    (x.setWidth width).toNat = x.toInt.natAbs := by
  have msb : x.msb = false := by
    rw [BitVec.msb_eq_toInt]
    exact decide_eq_false notNegative
  rw [BitVec.toNat_setWidth_of_le wide, BitVec.toInt_eq_toNat_of_msb msb]
  rfl

/-- The printed offset of a field. -/
theorem parseOffset_eq
    (wide : field + 1 ≤ width)
    (fits : width ≤ 32) :
    parseOffset (x.setWidth width) (BitVec.twoPow width field)
        (BitVec.allOnes width <<< (field + 1)) =
      offsetText x.toInt := by
  have zero : 0 < x.setWidth width ↔ x.toInt ≠ 0 := by
    have same : x.toInt = (0 : BitVec (field + 1)).toInt ↔ x.toNat = 0 := by
      rw [BitVec.toInt_inj, ← BitVec.toNat_inj]
      rfl
    rw [show (0 : BitVec (field + 1)).toInt = 0 from BitVec.toInt_zero] at same
    rw [BitVec.lt_def, BitVec.toNat_setWidth_of_le wide, Ne, same]
    exact Nat.pos_iff_ne_zero
  rw [parseOffset, offsetText]
  by_cases none : x.toInt = 0
  · rw [if_neg (fun positive => zero.mp positive none), if_pos none]
  · rw [if_pos (zero.mpr none), if_neg none]
    by_cases negative : x.toInt < 0
    · rw [if_pos ((sign_ne_zero x wide).mpr negative), if_pos negative,
        parseNumber_eq, BitVec.toNat_setWidth_of_le fits,
        negated_toNat x wide negative]
    · rw [if_neg (fun sign => negative ((sign_ne_zero x wide).mp sign)),
        if_neg negative, parseNumber_eq, BitVec.toNat_setWidth_of_le fits,
        positive_toNat x wide negative]

end Signs

/-- The printed immediate of an instruction. -/
theorem parseImmediate_eq (imm : BitVec 12) :
    (if imm.setWidth 16 &&& 0x0800 ≠ 0 then
        parseNumber ((~~~(imm.setWidth 16 ||| 0xf000) + 1).setWidth 32) true
      else
        parseNumber ((imm.setWidth 16).setWidth 32) false) =
      immediateText imm.toInt := by
  have sign := @sign_ne_zero 11 16 imm (by decide)
  have mask : (0x0800 : BitVec 16) = BitVec.twoPow 16 11 := by decide
  have extension : (0xf000 : BitVec 16) =
      BitVec.allOnes 16 <<< (11 + 1) := by decide
  rw [immediateText, mask, extension]
  by_cases negative : imm.toInt < 0
  · have value := @negated_toNat 11 16 imm (by decide) negative
    rw [if_pos (sign.mpr negative), if_pos negative, parseNumber_negative,
      BitVec.toNat_setWidth_of_le (by decide)]
    exact congrArg (fun number =>
      " -0x" ++ hexString number ++ "(-" ++ toString number ++ ")") value
  · have value := @positive_toNat 11 16 imm (by decide) negative
    rw [if_neg (fun nonzero => negative (sign.mp nonzero)), if_neg negative,
      parseNumber_eq, BitVec.toNat_setWidth_of_le (by decide)]
    exact congrArg numberText value

/-! ## Scattered offsets -/

/-- A field that is put above another. -/
theorem or_shiftLeft_eq
    {low high : Nat}
    (x : BitVec low)
    (y : BitVec high)
    (width : Nat) :
    x.setWidth width ||| y.setWidth width <<< low =
      (y ++ x).setWidth width := by
  ext index inside
  simp only [BitVec.getElem_or, BitVec.getElem_setWidth,
    BitVec.getElem_shiftLeft, BitVec.getLsbD_append]
  by_cases below : index < low
  · simp [below]
  · simp [below, BitVec.getLsbD_of_ge x index (by omega)]

theorem shiftLeft_eq
    {high : Nat}
    (low : Nat)
    (y : BitVec high)
    (width : Nat) :
    y.setWidth width <<< low = (y ++ BitVec.ofNat low 0).setWidth width := by
  rw [← or_shiftLeft_eq, BitVec.setWidth_zero, BitVec.zero_or]

theorem branch_pieces
    (a c : BitVec 1)
    (b : BitVec 6)
    (d : BitVec 4) :
    (a ++ (c ++ (b ++ (d ++ 0#1))) : BitVec 13) =
      ((a ++ (c ++ (b ++ d)) : BitVec 12) ++ 0#1 : BitVec 13) := by
  apply BitVec.eq_of_toNat_eq
  simp only [Format.toNat_append]
  omega

theorem jump_pieces
    (a c : BitVec 1)
    (b : BitVec 8)
    (d : BitVec 10) :
    (a ++ (b ++ (c ++ (d ++ 0#1))) : BitVec 21) =
      ((a ++ (b ++ (c ++ d)) : BitVec 20) ++ 0#1 : BitVec 21) := by
  apply BitVec.eq_of_toNat_eq
  simp only [Format.toNat_append]
  omega

section Scattered

variable (word : BitVec 32)

theorem storeOffset_eq :
    (splitOff word 7 5 ||| (splitOff word 25 7 <<< 5)).setWidth 16 =
      (Format.funct7 word ++ Format.rd word : BitVec 12).setWidth 16 := by
  rw [splitOff_rd, splitOff_funct7, or_shiftLeft_eq,
    BitVec.setWidth_setWidth_of_le _ (by decide)]

theorem branchOffset_eq :
    ((splitOff word 8 4 <<< 1) ||| (splitOff word 25 6 <<< 5) |||
        (splitOff word 7 1 <<< 11) |||
        (splitOff word 31 1 <<< 12)).setWidth 16 =
      (Format.branchOffset (Format.funct7 word) (Format.rd word) ++
        0#1 : BitVec 13).setWidth 16 := by
  rw [splitOff_part word 7 5 1 (by decide) (by decide),
    splitOff_part word 25 7 0 (by decide) (by decide),
    splitOff_part word 7 5 0 (by decide) (by decide),
    splitOff_part word 25 7 6 (by decide) (by decide),
    shiftLeft_eq, or_shiftLeft_eq, or_shiftLeft_eq, or_shiftLeft_eq,
    BitVec.setWidth_setWidth_of_le _ (by decide)]
  exact congrArg (BitVec.setWidth 16) (branch_pieces _ _ _ _)

theorem jumpOffset_eq :
    (splitOff word 21 10 <<< 1) ||| (splitOff word 20 1 <<< 11) |||
        (splitOff word 12 8 <<< 12) ||| (splitOff word 31 1 <<< 20) =
      (Format.jumpOffset (Format.immU word) ++ 0#1 : BitVec 21).setWidth
        32 := by
  rw [splitOff_part word 12 20 9 (by decide) (by decide),
    splitOff_part word 12 20 8 (by decide) (by decide),
    splitOff_part word 12 20 0 (by decide) (by decide),
    splitOff_part word 12 20 19 (by decide) (by decide),
    shiftLeft_eq, or_shiftLeft_eq, or_shiftLeft_eq, or_shiftLeft_eq]
  exact congrArg (BitVec.setWidth 32) (jump_pieces _ _ _ _)

end Scattered

/-! ## Texts of the operands -/

/-- The name that a register is printed with. -/
def registerText (register : Register) : String :=
  registerStrings.getD register.number.toNat ""

/-- Different registers have different names. -/
theorem registerText_injective : Function.Injective registerText := by
  have distinct : registerStrings.Nodup := by decide +kernel
  have bound (register : Register) :
      register.number.toNat < registerStrings.length :=
    register.number.isLt
  intro first second same
  rw [registerText, registerText, List.getD_eq_getElem?_getD,
    List.getD_eq_getElem?_getD, List.getElem?_eq_getElem (bound first),
    List.getElem?_eq_getElem (bound second), Option.getD_some,
    Option.getD_some, distinct.getElem_inj_iff, BitVec.toNat_inj] at same
  rw [← Register.ofNumber_number first, same, Register.ofNumber_number]

theorem registerString_number (register : Register) :
    registerString (register.number.setWidth 32) = registerText register := by
  rw [registerString, registerText, BitVec.toNat_setWidth_of_le (by decide)]

/-- The name of a field of the flag information, by its offset. -/
def fieldName (value : Int) : Option String :=
  (contextNames.find? fun entry => (entry.1.toNat : Int) = value).map Prod.snd

/-- A field of the flag information or an offset behind a register. -/
def addressText (base : Register) (value : Int) : String :=
  match if base = .s11 then fieldName value else none with
  | some name => name
  | none => registerText base ++ offsetText value

theorem contextNames_small :
    ∀ entry ∈ contextNames, entry.1.toNat < 2048 := by
  decide

/-- An offset with a name is not negative. -/
theorem handleContextAddressing_eq (base : Register) (imm : BitVec 12) :
    handleContextAddressing (base.number.setWidth 32)
        ((imm.setWidth 16).setWidth 32) =
      if base = .s11 then fieldName imm.toInt else none := by
  have number : base.number.setWidth 32 = Register.s11.number.setWidth 32 ↔
      base = .s11 := by
    cases base <;> decide
  rw [handleContextAddressing]
  by_cases context : base = .s11
  · rw [if_neg (not_not_intro (number.mpr context)), if_pos context, fieldName]
    congr 1
    apply List.find?_congr
    intro entry member
    have small := contextNames_small entry member
    have bound := imm.isLt
    rw [decide_eq_decide, ← BitVec.toNat_inj,
      BitVec.toNat_setWidth_of_le (by decide),
      BitVec.toNat_setWidth_of_le (by decide), BitVec.toInt_eq_toNat_cond]
    split <;> omega
  · rw [if_pos (fun same => context (number.mp same)), if_neg context]

theorem parseAddress_eq (base : Register) (imm : BitVec 12) :
    parseAddress (base.number.setWidth 32) (imm.setWidth 16) =
      addressText base imm.toInt := by
  have offset := @parseOffset_eq 11 16 imm (by decide) (by decide)
  rw [parseAddress, handleContextAddressing_eq, addressText,
    registerString_number, ← offset]
  rfl

/-! ## Mnemonics -/

/-- The names of the instructions in assembly. -/
def mnemonic : RiscVOpcode -> String
  | .lui => "lui" | .auipc => "auipc"
  | .lb => "lb" | .lh => "lh" | .lw => "lw" | .lbu => "lbu" | .lhu => "lhu"
  | .lwu => "lwu" | .ld => "ld"
  | .addi => "addi" | .slti => "slti" | .sltiu => "sltiu" | .xori => "xori"
  | .ori => "ori" | .andi => "andi"
  | .flw => "flw" | .fld => "fld"
  | .addiw => "addiw" | .slliw => "slliw" | .srliw => "srliw"
  | .sraiw => "sraiw"
  | .slli => "slli" | .srli => "srli" | .srai => "srai"
  | .sb => "sb" | .sh => "sh" | .sw => "sw" | .sd => "sd"
  | .mul => "mul" | .mulh => "mulh" | .mulhsu => "mulhsu" | .mulhu => "mulhu"
  | .div => "div" | .divu => "divu" | .rem => "rem" | .remu => "remu"
  | .add => "add" | .sub => "sub" | .sll => "sll" | .slt => "slt"
  | .sltu => "sltu" | .xor => "xor" | .srl => "srl" | .sra => "sra"
  | .or => "or" | .and => "and"
  | .mulw => "mulw" | .divw => "divw" | .divuw => "divuw" | .remw => "remw"
  | .remuw => "remuw"
  | .addw => "addw" | .subw => "subw" | .sllw => "sllw" | .srlw => "srlw"
  | .sraw => "sraw"
  | .jal => "jal" | .jalr => "jalr"
  | .beq => "beq" | .bne => "bne" | .blt => "blt" | .bge => "bge"
  | .bltu => "bltu" | .bgeu => "bgeu"
  | .ecall => "ecall"

/-- The table of the mnemonics follows the numbering. -/
theorem opcodeString_eq (opcode : RiscVOpcode) :
    opcodeString opcode = mnemonic opcode := by
  cases opcode <;> rfl

/-- The opcode of the instructions of a kind, under which their mnemonic is
found. -/
def branchOpcode : Branch -> RiscVOpcode
  | .beq => .beq
  | .bne => .bne
  | .blt => .blt
  | .bge => .bge
  | .bltu => .bltu
  | .bgeu => .bgeu

@[inherit_doc branchOpcode] def loadOpcode : Load -> RiscVOpcode
  | .lb => .lb
  | .lh => .lh
  | .lw => .lw
  | .ld => .ld
  | .lbu => .lbu
  | .lhu => .lhu
  | .lwu => .lwu

@[inherit_doc branchOpcode] def storeOpcode : Store -> RiscVOpcode
  | .sb => .sb
  | .sh => .sh
  | .sw => .sw
  | .sd => .sd

@[inherit_doc branchOpcode] def immOpcode : OpImm -> RiscVOpcode
  | .addi => .addi
  | .slti => .slti
  | .sltiu => .sltiu
  | .xori => .xori
  | .ori => .ori
  | .andi => .andi

@[inherit_doc branchOpcode] def shiftOpcode : Shift -> RiscVOpcode
  | .slli => .slli
  | .srli => .srli
  | .srai => .srai

@[inherit_doc branchOpcode] def shiftWOpcode : Shift -> RiscVOpcode
  | .slli => .slliw
  | .srli => .srliw
  | .srai => .sraiw

@[inherit_doc branchOpcode] def opOpcode : Op -> RiscVOpcode
  | .add => .add
  | .sub => .sub
  | .sll => .sll
  | .slt => .slt
  | .sltu => .sltu
  | .xor => .xor
  | .srl => .srl
  | .sra => .sra
  | .or => .or
  | .and => .and
  | .mul => .mul
  | .mulh => .mulh
  | .mulhsu => .mulhsu
  | .mulhu => .mulhu
  | .div => .div
  | .divu => .divu
  | .rem => .rem
  | .remu => .remu

@[inherit_doc branchOpcode] def opWOpcode : OpW -> RiscVOpcode
  | .addw => .addw
  | .subw => .subw
  | .sllw => .sllw
  | .srlw => .srlw
  | .sraw => .sraw

/-! ## Opcodes -/

section Opcodes

variable {word : BitVec 32}

theorem parseRiscv_lui (opcode : Format.opcode word = 55) :
    parseRiscv word = parseUtype .lui word := by
  simp [parseRiscv, splitOff_opcode, opcode]

theorem parseRiscv_auipc (opcode : Format.opcode word = 23) :
    parseRiscv word = parseUtype .auipc word := by
  simp [parseRiscv, splitOff_opcode, opcode]

theorem parseRiscv_jal (opcode : Format.opcode word = 111) :
    parseRiscv word = parseJtype .jal word := by
  simp [parseRiscv, splitOff_opcode, opcode]

theorem parseRiscv_jalr
    (opcode : Format.opcode word = 103)
    (funct3 : Format.funct3 word = 0) :
    parseRiscv word = parseRelative .jalr word := by
  simp [parseRiscv, splitOff_opcode, splitOff_funct3, opcode, funct3]

theorem parseRiscv_branch
    (kind : Branch)
    (opcode : Format.opcode word = 99)
    (funct3 : Format.funct3 word = kind.funct3) :
    parseRiscv word = parseBtype (branchOpcode kind) word := by
  cases kind <;>
    simp [parseRiscv, splitOff_opcode, splitOff_funct3, opcode, funct3,
      Branch.funct3, branchOpcode]

theorem parseRiscv_load
    (kind : Load)
    (opcode : Format.opcode word = 3)
    (funct3 : Format.funct3 word = kind.funct3) :
    parseRiscv word = parseLoad (loadOpcode kind) word := by
  cases kind <;>
    simp [parseRiscv, splitOff_opcode, splitOff_funct3, opcode, funct3,
      Load.funct3, loadOpcode]

theorem parseRiscv_store
    (kind : Store)
    (opcode : Format.opcode word = 35)
    (funct3 : Format.funct3 word = kind.funct3) :
    parseRiscv word = parseStore (storeOpcode kind) word := by
  cases kind <;>
    simp [parseRiscv, splitOff_opcode, splitOff_funct3, opcode, funct3,
      Store.funct3, storeOpcode]

theorem parseRiscv_opImm
    (kind : OpImm)
    (opcode : Format.opcode word = 19)
    (funct3 : Format.funct3 word = kind.funct3) :
    parseRiscv word = parseItype (immOpcode kind) word := by
  cases kind <;>
    simp [parseRiscv, splitOff_opcode, splitOff_funct3, opcode, funct3,
      OpImm.funct3, immOpcode]

/-- The lowest of the upper bits of a shift belongs to its amount. -/
theorem parseRiscv_shift
    (kind : Shift)
    (low : BitVec 1)
    (opcode : Format.opcode word = 19)
    (funct3 : Format.funct3 word = kind.funct3)
    (funct7 : Format.funct7 word = kind.funct6 ++ low) :
    parseRiscv word = parseShift (shiftOpcode kind) word := by
  have values : ∀ bit : BitVec 1, bit = 0 ∨ bit = 1 := by decide
  obtain rfl | rfl := values low
  all_goals
    cases kind <;>
      simp [parseRiscv, splitOff_opcode, splitOff_funct3, splitOff_funct7,
        opcode, funct3, funct7, Shift.funct3, Shift.funct6, shiftOpcode]

theorem parseRiscv_shiftW
    (kind : Shift)
    (opcode : Format.opcode word = 27)
    (funct3 : Format.funct3 word = kind.funct3)
    (funct7 : Format.funct7 word = kind.funct6 ++ 0#1) :
    parseRiscv word = parseShift (shiftWOpcode kind) word := by
  cases kind <;>
    simp [parseRiscv, splitOff_opcode, splitOff_funct3, splitOff_funct7,
      opcode, funct3, funct7, Shift.funct3, Shift.funct6, shiftWOpcode]

theorem parseRiscv_op
    (kind : Op)
    (opcode : Format.opcode word = 51)
    (funct3 : Format.funct3 word = kind.funct3)
    (funct7 : Format.funct7 word = kind.funct7) :
    parseRiscv word = parseRtype (opOpcode kind) word := by
  cases kind <;>
    simp [parseRiscv, splitOff_opcode, splitOff_funct3, splitOff_funct7,
      opcode, funct3, funct7, Op.funct3, Op.funct7, opOpcode]

theorem parseRiscv_opW
    (kind : OpW)
    (opcode : Format.opcode word = 59)
    (funct3 : Format.funct3 word = kind.funct3)
    (funct7 : Format.funct7 word = kind.funct7) :
    parseRiscv word = parseRtype (opWOpcode kind) word := by
  cases kind <;>
    simp [parseRiscv, splitOff_opcode, splitOff_funct3, splitOff_funct7,
      opcode, funct3, funct7, OpW.funct3, OpW.funct7, opWOpcode]

end Opcodes

/-! ## Calls of the encoders -/

/-- A call of an encoder, with the numbers that are written in it. -/
inductive Call where
  | lui (rd : Register) (imm : Int)
  | auipc (rd : Register) (imm : Int)
  | jal (rd : Register) (offset : Int)
  | jalr (rd rs1 : Register) (offset : Int)
  | branch (kind : Branch) (rs1 rs2 : Register) (offset : Int)
  | load (kind : Load) (rd rs1 : Register) (imm : Int)
  | store (kind : Store) (rs1 rs2 : Register) (imm : Int)
  | opImm (kind : OpImm) (rd rs1 : Register) (imm : Int)
  | shift (kind : Shift) (rd rs1 : Register) (shamt : Int)
  | op (kind : Op) (rd rs1 rs2 : Register)
  | opW (kind : OpW) (rd rs1 rs2 : Register)
  | shiftW (kind : Shift) (rd rs1 : Register) (shamt : Int)
  | ecall
  deriving DecidableEq

namespace Call

/-- The instruction of a call.  The numbers are converted to the types of the
parameters. -/
def inst : Call -> Inst
  | lui rd imm => Encoding.lui rd (.ofInt 32 imm)
  | auipc rd imm => Encoding.auipc rd (.ofInt 32 imm)
  | jal rd offset => Encoding.jal rd (.ofInt 32 offset)
  | jalr rd rs1 offset => Encoding.jalr rd rs1 (.ofInt 16 offset)
  | branch kind rs1 rs2 offset =>
      Encoding.btype kind rs1 rs2 (.ofInt 32 offset)
  | load kind rd rs1 imm => Encoding.load kind rd rs1 (.ofInt 16 imm)
  | store kind rs1 rs2 imm => Encoding.store kind rs1 rs2 (.ofInt 32 imm)
  | opImm kind rd rs1 imm => Encoding.opImm kind rd rs1 (.ofInt 16 imm)
  | shift kind rd rs1 shamt => Encoding.shift kind rd rs1 (.ofInt 8 shamt)
  | op kind rd rs1 rs2 => .op kind rd rs1 rs2
  | opW kind rd rs1 rs2 => .opW kind rd rs1 rs2
  | shiftW kind rd rs1 shamt => Encoding.shiftW kind rd rs1 (.ofInt 8 shamt)
  | ecall => .ecall

/-- The word that the encoder returns. -/
def word (call : Call) : BitVec 32 := call.inst.encode

/-- The numbers that the format of the instruction can represent. -/
def Representable : Call -> Prop
  | lui _ imm | auipc _ imm => 0 ≤ imm ∧ imm < 2 ^ 20
  | jal _ offset => -2 ^ 20 ≤ offset ∧ offset < 2 ^ 20 ∧ offset % 2 = 0
  | branch _ _ _ offset =>
      -2 ^ 12 ≤ offset ∧ offset < 2 ^ 12 ∧ offset % 2 = 0
  | jalr _ _ imm | load _ _ _ imm | store _ _ _ imm | opImm _ _ _ imm =>
      -2 ^ 11 ≤ imm ∧ imm < 2 ^ 11
  | shift _ _ _ shamt => 0 ≤ shamt ∧ shamt < 2 ^ 6
  | shiftW _ _ _ shamt => 0 ≤ shamt ∧ shamt < 2 ^ 5
  | op .. | opW .. | ecall => True

/-- The text of a call. -/
def text : Call -> String
  | lui rd imm => "lui" ++ immediateText imm ++ " -> " ++ registerText rd
  | auipc rd imm => "auipc" ++ immediateText imm ++ " -> " ++ registerText rd
  | jal rd offset =>
      "jal [pc" ++ offsetText offset ++ "] -> " ++ registerText rd
  | jalr rd rs1 offset =>
      "jalr [" ++ registerText rs1 ++ offsetText offset ++ "] -> " ++
        registerText rd
  | branch kind rs1 rs2 offset =>
      mnemonic (branchOpcode kind) ++ " (" ++ registerText rs1 ++ ", " ++
        registerText rs2 ++ ") ? " ++ "[pc" ++ offsetText offset ++ "]"
  | load kind rd rs1 imm =>
      mnemonic (loadOpcode kind) ++ " [" ++ addressText rs1 imm ++ "] -> " ++
        registerText rd
  | store kind rs1 rs2 imm =>
      mnemonic (storeOpcode kind) ++ " " ++ registerText rs2 ++ " -> [" ++
        addressText rs1 imm ++ "]"
  | opImm kind rd rs1 imm =>
      mnemonic (immOpcode kind) ++ " " ++ registerText rs1 ++ "," ++
        immediateText imm ++ " -> " ++ registerText rd
  | shift kind rd rs1 shamt =>
      mnemonic (shiftOpcode kind) ++ " " ++ registerText rs1 ++ "," ++
        immediateText shamt ++ " -> " ++ registerText rd
  | shiftW kind rd rs1 shamt =>
      mnemonic (shiftWOpcode kind) ++ " " ++ registerText rs1 ++ "," ++
        immediateText shamt ++ " -> " ++ registerText rd
  | op kind rd rs1 rs2 =>
      mnemonic (opOpcode kind) ++ " " ++ registerText rs1 ++ ", " ++
        registerText rs2 ++ " -> " ++ registerText rd
  | opW kind rd rs1 rs2 =>
      mnemonic (opWOpcode kind) ++ " " ++ registerText rs1 ++ ", " ++
        registerText rs2 ++ " -> " ++ registerText rd
  | ecall => "ecall"

/-- The call that an instruction comes from. -/
def ofInst : Inst -> Call
  | .lui rd imm => lui rd imm.toNat
  | .auipc rd imm => auipc rd imm.toNat
  | .jal rd offset => jal rd (offset ++ 0#1).toInt
  | .jalr rd rs1 offset => jalr rd rs1 offset.toInt
  | .branch kind rs1 rs2 offset => branch kind rs1 rs2 (offset ++ 0#1).toInt
  | .load kind rd rs1 imm => load kind rd rs1 imm.toInt
  | .store kind rs1 rs2 imm => store kind rs1 rs2 imm.toInt
  | .opImm kind rd rs1 imm => opImm kind rd rs1 imm.toInt
  | .shift kind rd rs1 shamt => shift kind rd rs1 shamt.toNat
  | .op kind rd rs1 rs2 => op kind rd rs1 rs2
  | .opW kind rd rs1 rs2 => opW kind rd rs1 rs2
  | .shiftW kind rd rs1 shamt => shiftW kind rd rs1 shamt.toNat
  | .ecall => ecall

/-! ## Conversions of the numbers -/

theorem setWidth_ofInt
    {wide narrow : Nat}
    (value : Int)
    (fits : narrow ≤ wide) :
    (BitVec.ofInt wide value).setWidth narrow = BitVec.ofInt narrow value := by
  have divides : (2 : Int) ^ narrow ∣ 2 ^ wide := pow_dvd_pow 2 fits
  have nonneg (width : Nat) : 0 ≤ value % (2 : Int) ^ width :=
    Int.emod_nonneg _ (pow_ne_zero _ (by decide))
  apply BitVec.eq_of_toNat_eq
  rw [BitVec.toNat_setWidth, BitVec.toNat_ofInt, BitVec.toNat_ofInt,
    ← Int.natCast_inj]
  push_cast
  rw [Int.toNat_of_nonneg (nonneg wide), Int.toNat_of_nonneg (nonneg narrow),
    Int.emod_emod_of_dvd _ divides]

/-- Numbers in the range of a signed field. -/
theorem toInt_ofInt
    {width : Nat}
    {value : Int}
    (lower : -2 ^ width ≤ value)
    (upper : value < 2 ^ width) :
    (BitVec.ofInt (width + 1) value).toInt = value := by
  rw [BitVec.toInt_ofInt, Int.bmod_eq_of_le] <;> push_cast <;> omega

/-- Numbers in the range of an unsigned field. -/
theorem toNat_ofInt
    {width : Nat}
    {value : Int}
    (lower : 0 ≤ value)
    (upper : value < 2 ^ width) :
    ((BitVec.ofInt width value).toNat : Int) = value := by
  rw [BitVec.toNat_ofInt, Int.emod_eq_of_lt lower (by exact_mod_cast upper),
    Int.toNat_of_nonneg lower]

/-- The lowest bit of an even offset is not needed. -/
theorem extract_append_ofInt
    {width : Nat}
    {value : Int}
    (fits : width + 1 ≤ 32)
    (even : value % 2 = 0) :
    ((BitVec.ofInt 32 value).extractLsb' 1 width ++ 0#1 :
        BitVec (width + 1)) =
      BitVec.ofInt (width + 1) value := by
  have lowest : (BitVec.ofInt 32 value).getLsbD 0 = false := by
    have rest := Int.emod_emod_of_dvd value (by decide : (2 : Int) ∣ 2 ^ 32)
    rw [← BitVec.testBit_toNat, Nat.testBit_zero, BitVec.toNat_ofInt]
    push_cast
    simp only [decide_eq_false_iff_not]
    omega
  rw [← setWidth_ofInt value fits]
  ext index inside
  rw [BitVec.getElem_append, BitVec.getElem_setWidth]
  cases index with
  | zero => simpa using lowest.symm
  | succ index =>
      rw [dif_neg (by omega), BitVec.getElem_extractLsb', Nat.add_sub_cancel,
        Nat.add_comm]

/-- The call of an instruction of a call. -/
theorem ofInst_inst
    (call : Call)
    (representable : call.Representable) :
    ofInst call.inst = call := by
  cases call with
  | lui rd imm =>
      rw [inst, Encoding.lui, setWidth_ofInt imm (by decide), ofInst,
        toNat_ofInt representable.1 representable.2]
  | auipc rd imm =>
      rw [inst, Encoding.auipc, setWidth_ofInt imm (by decide), ofInst,
        toNat_ofInt representable.1 representable.2]
  | jal rd offset =>
      obtain ⟨lower, upper, even⟩ := representable
      rw [inst, Encoding.jal, ofInst, extract_append_ofInt (by decide) even,
        toInt_ofInt lower upper]
  | branch kind rs1 rs2 offset =>
      obtain ⟨lower, upper, even⟩ := representable
      rw [inst, Encoding.btype, ofInst, extract_append_ofInt (by decide) even,
        toInt_ofInt lower upper]
  | jalr rd rs1 imm =>
      rw [inst, Encoding.jalr, setWidth_ofInt imm (by decide), ofInst,
        toInt_ofInt representable.1 representable.2]
  | load kind rd rs1 imm =>
      rw [inst, Encoding.load, setWidth_ofInt imm (by decide), ofInst,
        toInt_ofInt representable.1 representable.2]
  | store kind rs1 rs2 imm =>
      rw [inst, Encoding.store, setWidth_ofInt imm (by decide), ofInst,
        toInt_ofInt representable.1 representable.2]
  | opImm kind rd rs1 imm =>
      rw [inst, Encoding.opImm, setWidth_ofInt imm (by decide), ofInst,
        toInt_ofInt representable.1 representable.2]
  | shift kind rd rs1 shamt =>
      rw [inst, Encoding.shift, setWidth_ofInt shamt (by decide), ofInst,
        toNat_ofInt representable.1 representable.2]
  | shiftW kind rd rs1 shamt =>
      rw [inst, Encoding.shiftW, setWidth_ofInt shamt (by decide), ofInst,
        toNat_ofInt representable.1 representable.2]
  | op kind rd rs1 rs2 => rfl
  | opW kind rd rs1 rs2 => rfl
  | ecall => rfl

end Call

/-! ## Agreement -/

theorem immediateText_natCast (value : Nat) :
    immediateText value = numberText value := by
  rw [immediateText, if_neg (Int.not_lt.mpr (Int.natCast_nonneg value)),
    Int.natAbs_natCast]

section Texts

variable
  (opcode : RiscVOpcode)
  (op : BitVec 7)
  (rd rs1 rs2 : Register)
  (funct3 : BitVec 3)
  (funct7 : BitVec 7)
  (imm : BitVec 12)

theorem parseRtype_eq :
    parseRtype opcode
        (Format.rtype op rd.number funct3 rs1.number rs2.number funct7) =
      mnemonic opcode ++ " " ++ registerText rs1 ++ ", " ++
        registerText rs2 ++ " -> " ++ registerText rd := by
  simp only [parseRtype, splitOff_rd, splitOff_rs1, splitOff_rs2,
    Format.rd_rtype, Format.rs1_rtype, Format.rs2_rtype,
    registerString_number, opcodeString_eq]

theorem parseItype_eq :
    parseItype opcode (Format.itype op rd.number funct3 rs1.number imm) =
      mnemonic opcode ++ " " ++ registerText rs1 ++ "," ++
        immediateText imm.toInt ++ " -> " ++ registerText rd := by
  simp only [parseItype, splitOff_rd, splitOff_rs1, splitOff_immI,
    Format.rd_itype, Format.rs1_itype, Format.immI_itype,
    registerString_number, opcodeString_eq,
    BitVec.setWidth_setWidth_of_le _ (by decide : 16 ≤ 32),
    parseImmediate_eq]

theorem parseUtype_eq (upper : BitVec 20) :
    parseUtype opcode (Format.utype op rd.number upper) =
      mnemonic opcode ++ numberText upper.toNat ++ " -> " ++
        registerText rd := by
  simp only [parseUtype, splitOff_rd, splitOff_immU, Format.rd_utype,
    Format.immU_utype, registerString_number, opcodeString_eq,
    parseNumber_eq, BitVec.toNat_setWidth_of_le (by decide : 20 ≤ 32)]

theorem parseLoad_eq :
    parseLoad opcode (Format.itype op rd.number funct3 rs1.number imm) =
      mnemonic opcode ++ " [" ++ addressText rs1 imm.toInt ++ "] -> " ++
        registerText rd := by
  simp only [parseLoad, splitOff_rd, splitOff_rs1, splitOff_immI,
    Format.rd_itype, Format.rs1_itype, Format.immI_itype,
    registerString_number, opcodeString_eq,
    BitVec.setWidth_setWidth_of_le _ (by decide : 16 ≤ 32), parseAddress_eq]

theorem parseStore_eq :
    parseStore opcode
        (Format.rtype op (imm.extractLsb' 0 5) funct3 rs1.number rs2.number
          (imm.extractLsb' 5 7)) =
      mnemonic opcode ++ " " ++ registerText rs2 ++ " -> [" ++
        addressText rs1 imm.toInt ++ "]" := by
  simp only [parseStore, storeOffset_eq, splitOff_rs1, splitOff_rs2,
    Format.rd_rtype, Format.rs1_rtype, Format.rs2_rtype, Format.funct7_rtype,
    Format.split_imm, registerString_number, opcodeString_eq,
    parseAddress_eq]

/-- The upper bits of an immediate in the place of the second function
code. -/
theorem funct7_itype (high : BitVec 6) (shamt : BitVec 6) :
    Format.funct7 (Format.itype op rd.number funct3 rs1.number
        (high ++ shamt)) =
      high ++ shamt.extractLsb' 5 1 := by
  apply Format.extract_eq
  rw [Format.itype_toNat, Format.toNat_append, Format.toNat_append,
    Format.toNat_extractLsb']
  omega

theorem parseShift_eq (high : BitVec 6) (shamt : BitVec 6) :
    parseShift opcode
        (Format.itype op rd.number funct3 rs1.number (high ++ shamt)) =
      mnemonic opcode ++ " " ++ registerText rs1 ++ "," ++
        numberText shamt.toNat ++ " -> " ++ registerText rd := by
  have amount : splitOff (Format.itype op rd.number funct3 rs1.number
      (high ++ shamt)) 20 6 = shamt.setWidth 32 := by
    rw [splitOff_part _ 20 12 0 (by decide) (by decide)]
    change ((Format.immI _).extractLsb' 0 6).setWidth 32 = _
    rw [Format.immI_itype, Inst.shift_low]
  simp only [parseShift, amount, splitOff_rd, splitOff_rs1, Format.rd_itype,
    Format.rs1_itype, registerString_number, opcodeString_eq, parseNumber_eq,
    BitVec.toNat_setWidth_of_le (by decide : 6 ≤ 32)]

/-- The bit above the amount of a shift of words is clear. -/
theorem parseShift_word_eq (high : BitVec 6) (shamt : BitVec 5) :
    parseShift opcode
        (Format.rtype op rd.number funct3 rs1.number shamt (high ++ 0#1)) =
      mnemonic opcode ++ " " ++ registerText rs1 ++ "," ++
        numberText shamt.toNat ++ " -> " ++ registerText rd := by
  have amount : (splitOff (Format.rtype op rd.number funct3 rs1.number shamt
      (high ++ 0#1)) 20 6).toNat = shamt.toNat := by
    rw [splitOff_eq _ _ (by decide), BitVec.toNat_setWidth_of_le (by decide),
      Format.toNat_extractLsb', Format.rtype_toNat, Format.toNat_append,
      BitVec.toNat_ofNat]
    omega
  simp only [parseShift, amount, splitOff_rd, splitOff_rs1, Format.rd_rtype,
    Format.rs1_rtype, registerString_number, opcodeString_eq, parseNumber_eq]

theorem parseRelative_eq :
    parseRelative opcode (Format.itype op rd.number funct3 rs1.number imm) =
      mnemonic opcode ++ " [" ++ registerText rs1 ++ offsetText imm.toInt ++
        "] -> " ++ registerText rd := by
  have offset := @parseOffset_eq 11 16 imm (by decide) (by decide)
  simp only [parseRelative, splitOff_rd, splitOff_rs1, splitOff_immI,
    Format.rd_itype, Format.rs1_itype, Format.immI_itype,
    registerString_number, opcodeString_eq,
    BitVec.setWidth_setWidth_of_le _ (by decide : 16 ≤ 32), ← offset]
  rfl

theorem parseBtype_eq :
    parseBtype opcode
        (Format.rtype op (Format.branchLow imm) funct3 rs1.number rs2.number
          (Format.branchHigh imm)) =
      mnemonic opcode ++ " (" ++ registerText rs1 ++ ", " ++
        registerText rs2 ++ ") ? " ++ "[pc" ++
        offsetText (imm ++ 0#1).toInt ++ "]" := by
  have offset := @parseOffset_eq 12 16 (imm ++ 0#1) (by decide) (by decide)
  simp only [parseBtype, branchOffset_eq, splitOff_rs1, splitOff_rs2,
    Format.rd_rtype, Format.rs1_rtype, Format.rs2_rtype, Format.funct7_rtype,
    Format.branchOffset_split, registerString_number, opcodeString_eq,
    ← offset]
  rfl

theorem parseJtype_eq (parts : BitVec 20) :
    parseJtype opcode (Format.utype op rd.number (Format.jumpParts parts)) =
      mnemonic opcode ++ " [pc" ++ offsetText (parts ++ 0#1).toInt ++
        "] -> " ++ registerText rd := by
  have offset := @parseOffset_eq 20 32 (parts ++ 0#1) (by decide) (by decide)
  simp only [parseJtype, jumpOffset_eq, splitOff_rd, Format.rd_utype,
    Format.immU_utype, Format.jumpOffset_parts, registerString_number,
    opcodeString_eq, ← offset]
  rfl

end Texts

/-- An instruction is printed with the operands of its call. -/
theorem parseRiscv_encode (inst : Inst) :
    parseRiscv inst.encode = (Call.ofInst inst).text := by
  cases inst with
  | lui rd imm =>
      rw [Inst.encode, parseRiscv_lui (by simp), parseUtype_eq, Call.ofInst,
        Call.text, immediateText_natCast, mnemonic]
  | auipc rd imm =>
      rw [Inst.encode, parseRiscv_auipc (by simp), parseUtype_eq, Call.ofInst,
        Call.text, immediateText_natCast, mnemonic]
  | jal rd offset =>
      rw [Inst.encode, parseRiscv_jal (by simp), parseJtype_eq]
      rfl
  | jalr rd rs1 offset =>
      rw [Inst.encode, parseRiscv_jalr (by simp) (by simp), parseRelative_eq]
      rfl
  | branch kind rs1 rs2 offset =>
      rw [Inst.encode, parseRiscv_branch kind (by simp) (by simp),
        parseBtype_eq, Call.ofInst, Call.text]
  | load kind rd rs1 imm =>
      rw [Inst.encode, parseRiscv_load kind (by simp) (by simp),
        parseLoad_eq, Call.ofInst, Call.text]
  | store kind rs1 rs2 imm =>
      rw [Inst.encode, parseRiscv_store kind (by simp) (by simp),
        parseStore_eq, Call.ofInst, Call.text]
  | opImm kind rd rs1 imm =>
      rw [Inst.encode, parseRiscv_opImm kind (by simp) (by simp),
        parseItype_eq, Call.ofInst, Call.text]
  | shift kind rd rs1 shamt =>
      rw [Inst.encode, parseRiscv_shift kind _ (by simp) (by simp)
          (funct7_itype ..), parseShift_eq, Call.ofInst, Call.text,
        immediateText_natCast]
  | op kind rd rs1 rs2 =>
      rw [Inst.encode, parseRiscv_op kind (by simp) (by simp) (by simp),
        parseRtype_eq, Call.ofInst, Call.text]
  | opW kind rd rs1 rs2 =>
      rw [Inst.encode, parseRiscv_opW kind (by simp) (by simp) (by simp),
        parseRtype_eq, Call.ofInst, Call.text]
  | shiftW kind rd rs1 shamt =>
      rw [Inst.encode, parseRiscv_shiftW kind (by simp) (by simp) (by simp),
        parseShift_word_eq, Call.ofInst, Call.text, immediateText_natCast]
  | ecall => rfl

/-- The encoders and the printer agree.  The printed text is the call, and
different calls make different words. -/
theorem parseRiscv_agrees :
    (∀ call : Call, call.Representable -> parseRiscv call.word = call.text) ∧
      ∀ first second : Call, first.Representable -> second.Representable ->
        first ≠ second -> first.word ≠ second.word := by
  refine ⟨?_, ?_⟩
  · intro call representable
    rw [Call.word, parseRiscv_encode, Call.ofInst_inst call representable]
  · intro first second firstRepresentable secondRepresentable different same
    apply different
    rw [← Call.ofInst_inst first firstRepresentable,
      Inst.encode_injective same, Call.ofInst_inst second secondRepresentable]

/-- A negative immediate, a field of the flag information and two jumps over
the same distance in both directions. -/
theorem parseRiscv_agrees_instances :
    parseRiscv (Call.opImm .xori .a1 .zero (-2)).word =
        "xori zero, -0x2(-2) -> rsi" ∧
      parseRiscv (Call.load .lbu .t4 .s11 0x245).word =
        "lbu [parity_value] -> Vt4" ∧
      (Call.jal .ra 0x800).word ≠ (Call.jal .ra (-0x800)).word :=
  ⟨(parseRiscv_agrees.1 (.opImm .xori .a1 .zero (-2))
        ⟨by decide, by decide⟩).trans (by decide +kernel),
    (parseRiscv_agrees.1 (.load .lbu .t4 .s11 0x245)
        ⟨by decide, by decide⟩).trans (by decide +kernel),
    parseRiscv_agrees.2 _ _ ⟨by decide, by decide, by decide⟩
      ⟨by decide, by decide, by decide⟩ (by decide)⟩

end Decoding
end Oxtra

import Oxtra.Encoding
import Oxtra.ExecutionContext
import Oxtra.Library.RiscV.Encoding

/-!
# Printing of RISC-V instructions

The text of an instruction word, as the debugger and the logger print it.  The
text of a word that an encoder made names that encoder and its operands.
-/

namespace Oxtra
namespace Decoding

open RiscV

/-! ## Names -/

/-- The mnemonics, as they are numbered. -/
inductive RiscVOpcode where
  | lui | auipc
  | lb | lh | lw | lbu | lhu | lwu | ld
  | addi | slti | sltiu | xori | ori | andi
  | flw | fld
  | addiw | slliw | srliw | sraiw
  | slli | srli | srai
  | sb | sh | sw | sd
  | mul | mulh | mulhsu | mulhu | div | divu | rem | remu
  | add | sub | sll | slt | sltu | xor | srl | sra | or | and
  | mulw | divw | divuw | remw | remuw
  | addw | subw | sllw | srlw | sraw
  | jal | jalr
  | beq | bne | blt | bge | bltu | bgeu
  | ecall
  deriving DecidableEq, Repr

def registerStrings : List String :=
  ["zero", "Vra", "rsp", "Vgp", "Vtp", "Vt0", "Vt1", "Vt2", "rbp",
    "return_stack", "rdi", "rsi", "rdx", "r10", "r8", "r9", "rcx", "rax",
    "rbx", "r11", "r12", "r13", "r14", "r15", "call_table", "tlb",
    "jump_table", "context", "Vt3", "Vt4", "Vt5", "Vt6"]

def opcodeStrings : List String :=
  ["lui", "auipc", "lb", "lh", "lw", "lbu", "lhu", "lwu", "ld",
    "addi", "slti", "sltiu", "xori", "ori", "andi", "flw", "fld",
    "addiw", "slliw", "srliw", "sraiw", "slli", "srli", "srai", "sb",
    "sh", "sw", "sd", "mul", "mulh", "mulhsu", "mulhu", "div", "divu",
    "rem", "remu", "add", "sub", "sll", "slt", "sltu", "xor", "srl",
    "sra", "or", "and", "mulw", "divw", "divuw", "remw", "remuw",
    "addw", "subw", "sllw", "srlw", "sraw", "jal", "jalr", "beq",
    "bne", "blt", "bge", "bltu", "bgeu", "ecall"]

def errorString : String := "unknown instruction"

def registerString (register : BitVec 32) : String :=
  registerStrings.getD register.toNat ""

def opcodeString (opcode : RiscVOpcode) : String :=
  opcodeStrings.getD opcode.ctorIdx ""

/-- The names of the offsets in the execution context. -/
def contextNames : List (BitVec 32 × String) :=
  [(FlagInfo.zeroValueOffset, "zero_value"),
    (FlagInfo.signValueOffset, "sign_value"),
    (FlagInfo.overflowValuesOffset, "overflow_value1"),
    (FlagInfo.overflowValuesOffset + 8, "overflow_value2"),
    (FlagInfo.carryValuesOffset, "carry_value1"),
    (FlagInfo.carryValuesOffset + 8, "carry_value2"),
    (FlagInfo.overflowPtrOffset, "overflow_ptr"),
    (FlagInfo.carryPtrOffset, "carry_ptr"),
    (FlagInfo.overflowOperationOffset, "overflow_op"),
    (FlagInfo.carryOperationOffset, "carry_op"),
    (FlagInfo.signSizeOffset, "sign_shift"),
    (FlagInfo.parityValueOffset, "parity_value")]

/-- The name of an offset from the execution context. -/
def handleContextAddressing (reg offset : BitVec 32) : Option String :=
  if reg ≠ Register.s11.number.setWidth 32 then
    none
  else
    (contextNames.find? fun entry => entry.1 = offset).map Prod.snd

/-! ## Operands -/

/-- A number of bits of the word, from an offset. -/
def splitOff (instruction : BitVec 32) (offset size : Nat) : BitVec 32 :=
  (instruction >>> offset) &&& (0xFFFFFFFF#32 >>> (32 - size))

/-- Hexadecimal digits of a number. -/
def hexString (number : Nat) : String :=
  String.ofList (Nat.toDigits 16 number)

def parseNumber (nbr : BitVec 32) (sign : Bool) : String :=
  (if sign then " -" else " ") ++ "0x" ++ hexString nbr.toNat ++
    (if sign then "(-" else "(") ++ toString nbr.toNat ++ ")"

/-- An offset behind a base, with its sign.  The bit `negative` is the sign,
and `extension` the bits above the field. -/
def parseOffset
    {width : Nat}
    (offset negative extension : BitVec width) : String :=
  if 0 < offset then
    if offset &&& negative ≠ 0 then
      " -" ++ parseNumber ((~~~(offset ||| extension) + 1).setWidth 32) false
    else
      " +" ++ parseNumber (offset.setWidth 32) false
  else
    ""

/-- The address of a load or a store. -/
def parseAddress (base : BitVec 32) (offset : BitVec 16) : String :=
  match handleContextAddressing base (offset.setWidth 32) with
  | some name => name
  | none => registerString base ++ parseOffset offset 0x0800 0xf000

/-! ## Formats -/

def parseRtype (opcode : RiscVOpcode) (instruction : BitVec 32) : String :=
  opcodeString opcode ++ " " ++ registerString (splitOff instruction 15 5) ++
    ", " ++ registerString (splitOff instruction 20 5) ++
    " -> " ++ registerString (splitOff instruction 7 5)

def parseShift (opcode : RiscVOpcode) (instruction : BitVec 32) : String :=
  opcodeString opcode ++ " " ++ registerString (splitOff instruction 15 5) ++
    "," ++ parseNumber (splitOff instruction 20 6) false ++
    " -> " ++ registerString (splitOff instruction 7 5)

def parseItype (opcode : RiscVOpcode) (instruction : BitVec 32) : String :=
  let immediate : BitVec 16 := (splitOff instruction 20 12).setWidth 16
  opcodeString opcode ++ " " ++ registerString (splitOff instruction 15 5) ++
    "," ++
    (if immediate &&& 0x0800 ≠ 0 then
      parseNumber ((~~~(immediate ||| 0xf000) + 1).setWidth 32) true
    else
      parseNumber (immediate.setWidth 32) false) ++
    " -> " ++ registerString (splitOff instruction 7 5)

def parseUtype (opcode : RiscVOpcode) (instruction : BitVec 32) : String :=
  opcodeString opcode ++ parseNumber (splitOff instruction 12 20) false ++
    " -> " ++ registerString (splitOff instruction 7 5)

def parseLoad (opcode : RiscVOpcode) (instruction : BitVec 32) : String :=
  let base := splitOff instruction 15 5
  let offset : BitVec 16 := (splitOff instruction 20 12).setWidth 16
  opcodeString opcode ++ " [" ++ parseAddress base offset ++ "] -> " ++
    registerString (splitOff instruction 7 5)

def parseStore (opcode : RiscVOpcode) (instruction : BitVec 32) : String :=
  let base := splitOff instruction 15 5
  let offset : BitVec 16 :=
    (splitOff instruction 7 5 ||| (splitOff instruction 25 7 <<< 5)).setWidth 16
  opcodeString opcode ++ " " ++ registerString (splitOff instruction 20 5) ++
    " -> [" ++ parseAddress base offset ++ "]"

def parseJtype (opcode : RiscVOpcode) (instruction : BitVec 32) : String :=
  let offset : BitVec 32 :=
    (splitOff instruction 21 10 <<< 1) ||| (splitOff instruction 20 1 <<< 11) |||
      (splitOff instruction 12 8 <<< 12) ||| (splitOff instruction 31 1 <<< 20)
  opcodeString opcode ++ " [pc" ++ parseOffset offset 0x100000 0xffe00000 ++
    "] -> " ++ registerString (splitOff instruction 7 5)

def parseRelative (opcode : RiscVOpcode) (instruction : BitVec 32) : String :=
  let offset : BitVec 16 := (splitOff instruction 20 12).setWidth 16
  opcodeString opcode ++ " [" ++ registerString (splitOff instruction 15 5) ++
    parseOffset offset 0x0800 0xf000 ++ "] -> " ++
    registerString (splitOff instruction 7 5)

def parseBtype (opcode : RiscVOpcode) (instruction : BitVec 32) : String :=
  let offset : BitVec 16 :=
    ((splitOff instruction 8 4 <<< 1) ||| (splitOff instruction 25 6 <<< 5) |||
      (splitOff instruction 7 1 <<< 11) |||
      (splitOff instruction 31 1 <<< 12)).setWidth 16
  opcodeString opcode ++ " (" ++ registerString (splitOff instruction 15 5) ++
    ", " ++ registerString (splitOff instruction 20 5) ++ ") ? " ++
    "[pc" ++ parseOffset offset 0x1000 0xe000 ++ "]"

/-! ## Words -/

/-- The text of an instruction word. -/
def parseRiscv (instruction : BitVec 32) : String :=
  let opcode : BitVec 8 := (splitOff instruction 0 7).setWidth 8
  let func3 : BitVec 8 := (splitOff instruction 12 3).setWidth 8
  let func7 : BitVec 8 := (splitOff instruction 25 7).setWidth 8
  match opcode.toNat with
  | 0x67 =>
      if func3 = 0 then parseRelative .jalr instruction else errorString
  | 0x6f => parseJtype .jal instruction
  | 0x63 =>
      match func3.toNat with
      | 0x00 => parseBtype .beq instruction
      | 0x01 => parseBtype .bne instruction
      | 0x04 => parseBtype .blt instruction
      | 0x05 => parseBtype .bge instruction
      | 0x06 => parseBtype .bltu instruction
      | 0x07 => parseBtype .bgeu instruction
      | _ => errorString
  | 0x37 => parseUtype .lui instruction
  | 0x17 => parseUtype .auipc instruction
  | 0x23 =>
      match func3.toNat with
      | 0x00 => parseStore .sb instruction
      | 0x01 => parseStore .sh instruction
      | 0x02 => parseStore .sw instruction
      | 0x03 => parseStore .sd instruction
      | _ => errorString
  | 0x03 =>
      match func3.toNat with
      | 0x00 => parseLoad .lb instruction
      | 0x01 => parseLoad .lh instruction
      | 0x02 => parseLoad .lw instruction
      | 0x03 => parseLoad .ld instruction
      | 0x04 => parseLoad .lbu instruction
      | 0x05 => parseLoad .lhu instruction
      | 0x06 => parseLoad .lwu instruction
      | _ => errorString
  | 0x07 =>
      if func3 = 0x02 then
        parseLoad .flw instruction
      else if func3 = 0x03 then
        parseLoad .fld instruction
      else
        errorString
  | 0x13 =>
      match func3.toNat with
      | 0x00 => parseItype .addi instruction
      | 0x01 =>
          if func7 = 0x00 ∨ func7 = 0x01 then
            parseShift .slli instruction
          else
            errorString
      | 0x02 => parseItype .slti instruction
      | 0x03 => parseItype .sltiu instruction
      | 0x04 => parseItype .xori instruction
      | 0x05 =>
          if func7 = 0x00 ∨ func7 = 0x01 then
            parseShift .srli instruction
          else if func7 = 0x20 ∨ func7 = 0x21 then
            parseShift .srai instruction
          else
            errorString
      | 0x06 => parseItype .ori instruction
      | 0x07 => parseItype .andi instruction
      | _ => errorString
  | 0x1b =>
      match func3.toNat with
      | 0x00 => parseItype .addiw instruction
      | 0x01 =>
          if func7 = 0x00 then parseShift .slliw instruction else errorString
      | 0x05 =>
          if func7 = 0x00 then
            parseShift .srliw instruction
          else if func7 = 0x20 then
            parseShift .sraiw instruction
          else
            errorString
      | _ => errorString
  | 0x73 =>
      if splitOff instruction 7 25 = 0 then
        opcodeString .ecall
      else
        errorString
  | 0x33 =>
      if func7 = 0x01 then
        match func3.toNat with
        | 0x00 => parseRtype .mul instruction
        | 0x01 => parseRtype .mulh instruction
        | 0x02 => parseRtype .mulhsu instruction
        | 0x03 => parseRtype .mulhu instruction
        | 0x04 => parseRtype .div instruction
        | 0x05 => parseRtype .divu instruction
        | 0x06 => parseRtype .rem instruction
        | 0x07 => parseRtype .remu instruction
        | _ => errorString
      else
        match func3.toNat with
        | 0x00 =>
            if func7 = 0x00 then
              parseRtype .add instruction
            else if func7 = 0x20 then
              parseRtype .sub instruction
            else
              errorString
        | 0x01 =>
            if func7 = 0x00 then parseRtype .sll instruction else errorString
        | 0x02 =>
            if func7 = 0x00 then parseRtype .slt instruction else errorString
        | 0x03 =>
            if func7 = 0x00 then parseRtype .sltu instruction else errorString
        | 0x04 =>
            if func7 = 0x00 then parseRtype .xor instruction else errorString
        | 0x05 =>
            if func7 = 0x00 then
              parseRtype .srl instruction
            else if func7 = 0x20 then
              parseRtype .sra instruction
            else
              errorString
        | 0x06 =>
            if func7 = 0x00 then parseRtype .or instruction else errorString
        | 0x07 =>
            if func7 = 0x00 then parseRtype .and instruction else errorString
        | _ => errorString
  | 0x3b =>
      if func7 = 0x01 then
        match func3.toNat with
        | 0x00 => parseRtype .mulw instruction
        | 0x04 => parseRtype .divw instruction
        | 0x05 => parseRtype .divuw instruction
        | 0x06 => parseRtype .remw instruction
        | 0x07 => parseRtype .remuw instruction
        | _ => errorString
      else
        match func3.toNat with
        | 0x00 =>
            if func7 = 0x00 then
              parseRtype .addw instruction
            else if func7 = 0x20 then
              parseRtype .subw instruction
            else
              errorString
        | 0x01 =>
            if func7 = 0x00 then parseRtype .sllw instruction else errorString
        | 0x05 =>
            if func7 = 0x00 then
              parseRtype .srlw instruction
            else if func7 = 0x20 then
              parseRtype .sraw instruction
            else
              errorString
        | _ => errorString
  | _ => errorString

end Decoding
end Oxtra

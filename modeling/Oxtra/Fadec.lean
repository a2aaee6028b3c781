import Mathlib.Data.BitVec

/-!
# Decoded x86 instructions

This is what the translator reads of the instructions that the vendored
decoder produces.  The decoder itself is a parameter: a function of the bytes
it may look at and of the address they were fetched from.
-/

namespace Oxtra
namespace Fadec

/-- Operand sizes of the integer instructions, in bytes 1, 2, 4 and 8. -/
inductive OperandSize where
  | byte
  | word
  | dword
  | qword
  deriving DecidableEq, Repr

namespace OperandSize

def bytes : OperandSize -> Nat
  | byte => 1
  | word => 2
  | dword => 4
  | qword => 8

def bits (size : OperandSize) : Nat := 8 * size.bytes

end OperandSize

/-- One of the sixteen general purpose registers, by its x86 number. -/
abbrev Register := Fin 16

instance neZero_registerCount : NeZero 16 := ⟨by decide⟩

/-- Low register, or the second byte of one of the first four registers; the
number of a high register is four above the register it belongs to. -/
inductive RegisterType where
  | gpl
  | gph
  deriving DecidableEq, Repr

/-- Segment override of the instruction. -/
inductive Segment where
  | none
  | es
  | cs
  | ss
  | ds
  | fs
  | gs
  deriving DecidableEq, Repr

/-- An operand.  The immediate itself, and the index register, the scale and
the displacement of a memory operand, belong to the instruction. -/
inductive Operand where
  | none
  | reg (size : OperandSize) (register : Register) (type : RegisterType)
  | mem (size : OperandSize) (base : Option Register)
  | imm (size : OperandSize)
  deriving DecidableEq, Repr

namespace Operand

def isReg : Operand -> Bool
  | reg .. => true
  | _ => false

def isMem : Operand -> Bool
  | mem .. => true
  | _ => false

def isImm : Operand -> Bool
  | imm .. => true
  | _ => false

/-- A register or a memory operand. -/
def isRm (operand : Operand) : Bool := operand.isReg || operand.isMem

/-- `get_size` -/
def size : Operand -> OperandSize
  | none => .byte
  | reg size .. => size
  | mem size _ => size
  | imm size => size

/-- The high registers are the second bytes of the first four registers. -/
def valid : Operand -> Bool
  | reg size register .gph => size == .byte && 4 ≤ register && register < 8
  | _ => true

end Operand

/-- Mnemonics that the translator distinguishes; `other` is every mnemonic
it does not know. -/
inductive InstructionType where
  | add | addImm | adc | adcImm | sub | subImm | cmp | cmpImm
  | and | andImm | or | orImm | xor | xorImm | test | testImm
  | inc | dec | neg | not | mul | imul | imul2 | imul3 | div | idiv
  | jz | jo | jc | js | jp | jnz | jno | jnc | jns | jnp
  | ja | jbe | jg | jge | jl | jle | jcxz
  | cmova | cmovbe | cmovc | cmovg | cmovge | cmovl | cmovle | cmovnc
  | cmovno | cmovnp | cmovns | cmovnz | cmovo | cmovp | cmovs | cmovz
  | seta | setbe | setc | setg | setge | setl | setle | setnc
  | setno | setnp | setns | setnz | seto | setp | sets | setz
  | clc | stc | movImm | movabsImm | mov | movsx | movzx | lea | leave
  | shlCl | shlImm | shrCl | shrImm | sarCl | sarImm
  | rolImm | rolCl | rorImm | rorCl
  | bt | btImm | btc | btcImm | btr | btrImm | bts | btsImm
  | syscall | jmp | jmpInd | call | callInd | ret | retImm
  | push | pop | nop | fnop | cEx | cSep
  | cmps | lods | movs | scas | stos
  | other
  deriving DecidableEq, Repr

/-! The operand forms of the encodings. -/

namespace OperandForm

def empty : List Operand -> Bool
  | [] => true
  | _ => false

def rm : List Operand -> Bool
  | [operand] => operand.isRm
  | _ => false

def imm : List Operand -> Bool
  | [operand] => operand.isImm
  | _ => false

def rmReg : List Operand -> Bool
  | [first, second] => first.isRm && second.isReg && first.size == second.size
  | _ => false

def regRm : List Operand -> Bool
  | [first, second] => first.isReg && second.isRm && first.size == second.size
  | _ => false

def rmImm : List Operand -> Bool
  | [first, second] => first.isRm && second.isImm
  | _ => false

def regImm : List Operand -> Bool
  | [first, second] => first.isReg && second.isImm
  | _ => false

def regRmImm : List Operand -> Bool
  | [first, second, third] =>
      first.isReg && second.isRm && first.size == second.size && third.isImm
  | _ => false

/-- A register and an operand of another size. -/
def regRmExtended : List Operand -> Bool
  | [first, second] => first.isReg && second.isRm
  | _ => false

/-- None of the operands has the size. -/
def noneOfSize (size : OperandSize) (operands : List Operand) : Bool :=
  operands.all fun operand => operand.size != size

/-- All of the operands have the size. -/
def allOfSize (size : OperandSize) (operands : List Operand) : Bool :=
  operands.all fun operand => operand.size == size

end OperandForm

open OperandForm in
/-- The operands that the encodings of a mnemonic have. -/
def InstructionType.hasForm
    (type : InstructionType)
    (operands : List Operand) : Bool :=
  match type with
  | .add | .adc | .sub | .cmp | .and | .or | .xor | .mov =>
      rmReg operands || regRm operands
  | .test => rmReg operands
  | .addImm | .adcImm | .subImm | .cmpImm | .andImm | .orImm | .xorImm
  | .testImm | .movImm | .shlImm | .shrImm | .sarImm | .rolImm | .rorImm =>
      rmImm operands
  | .movabsImm => regImm operands
  | .inc | .dec | .neg | .not | .mul | .imul | .div | .idiv
  | .shlCl | .shrCl | .sarCl | .rolCl | .rorCl => rm operands
  | .imul2 | .lea
  | .cmova | .cmovbe | .cmovc | .cmovg | .cmovge | .cmovl | .cmovle | .cmovnc
  | .cmovno | .cmovnp | .cmovns | .cmovnz | .cmovo | .cmovp | .cmovs | .cmovz =>
      regRm operands && noneOfSize .byte operands
  | .imul3 => regRmImm operands
  | .jz | .jo | .jc | .js | .jp | .jnz | .jno | .jnc | .jns | .jnp
  | .ja | .jbe | .jg | .jge | .jl | .jle | .jcxz | .jmp | .call =>
      imm operands
  | .jmpInd | .callInd =>
      rm operands && noneOfSize .byte operands && noneOfSize .dword operands
  | .seta | .setbe | .setc | .setg | .setge | .setl | .setle | .setnc
  | .setno | .setnp | .setns | .setnz | .seto | .setp | .sets | .setz =>
      rm operands && allOfSize .byte operands
  | .movsx | .movzx => regRmExtended operands
  | .bt | .btc | .btr | .bts => rmReg operands && noneOfSize .byte operands
  | .btImm | .btcImm | .btrImm | .btsImm =>
      rmImm operands && noneOfSize .byte (operands.take 1)
  | .push =>
      (rm operands || imm operands) && noneOfSize .byte operands &&
        noneOfSize .dword operands
  | .pop =>
      rm operands && noneOfSize .byte operands && noneOfSize .dword operands
  | .retImm => imm operands
  | .nop => empty operands || rm operands
  | .clc | .stc | .leave | .syscall | .ret | .fnop | .cEx | .cSep
  | .cmps | .lods | .movs | .scas | .stos => empty operands
  | .other => true

/-- A decoded instruction. -/
structure Instruction where
  type : InstructionType
  /-- Number of bytes of the instruction. -/
  size : Nat := 0
  address : BitVec 64 := 0
  operands : List Operand := []
  operandSize : OperandSize := .dword
  /-- The address size is 8 bytes, or 4 with an address-size prefix. -/
  addressSizeQword : Bool := true
  segment : Segment := .none
  indexRegister : Option Register := Option.none
  indexScale : BitVec 2 := 0
  displacement : BitVec 64 := 0
  immediate : BitVec 64 := 0
  hasRep : Bool := false
  hasRepnz : Bool := false
  deriving DecidableEq, Repr

/-- The operand at an index; operands that the instruction does not have are
of type `none`. -/
def Instruction.getOperand (inst : Instruction) (index : Nat) : Operand :=
  inst.operands.getD index .none

/-- What the encodings of the decode table allow: the operands of the
mnemonic, one repeat prefix at most, and no byte-sized sign extension. -/
def Instruction.wellFormed (inst : Instruction) : Bool :=
  inst.type.hasForm inst.operands && inst.operands.all Operand.valid &&
    !(inst.hasRep && inst.hasRepnz) &&
    !((inst.type == .cEx || inst.type == .cSep) && inst.operandSize == .byte)

/-- An instruction never has more bytes than this. -/
def maxInstructionSize : Nat := 15

/-- The decoder, with what the translator relies on: an instruction is not
empty, lies within the bytes given, knows its address, and has the form that
the decode table gives it. -/
structure Decoder where
  decode : List (BitVec 8) -> BitVec 64 -> Option Instruction
  size_pos {bytes : List (BitVec 8)} {address : BitVec 64}
    {inst : Instruction} :
      decode bytes address = some inst -> 0 < inst.size
  size_le {bytes : List (BitVec 8)} {address : BitVec 64}
    {inst : Instruction} :
      decode bytes address = some inst -> inst.size ≤ bytes.length
  address_eq {bytes : List (BitVec 8)} {address : BitVec 64}
    {inst : Instruction} :
      decode bytes address = some inst -> inst.address = address
  wellFormed {bytes : List (BitVec 8)} {address : BitVec 64}
    {inst : Instruction} :
      decode bytes address = some inst -> inst.wellFormed = true

/-! ## Decoders of a few encodings -/

/-- The bytes of an instruction, and what they decode to at an address. -/
structure Encoding where
  head : BitVec 8
  tail : List (BitVec 8) := []
  /-- The decoded instruction, up to its size and address. -/
  inst : BitVec 64 -> Instruction
  wellFormed (address : BitVec 64) : (inst address).wellFormed = true

namespace Encoding

def bytes (encoding : Encoding) : List (BitVec 8) :=
  encoding.head :: encoding.tail

/-- The instruction an encoding stands for at an address. -/
def decodedAt (encoding : Encoding) (address : BitVec 64) : Instruction :=
  { encoding.inst address with
    size := encoding.bytes.length
    address := address }

private def eax : Operand := .reg .dword 0 .gpl

/-- `cmp eax, eax` -/
def cmpEaxEax : Encoding where
  head := 0x39
  tail := [0xc0]
  inst _ := { type := .cmp, operands := [eax, eax] }
  wellFormed _ := by decide

/-- `not eax` -/
def notEax : Encoding where
  head := 0xf7
  tail := [0xd0]
  inst _ := { type := .not, operands := [eax] }
  wellFormed _ := by decide

/-- `setz al` -/
def setzAl : Encoding where
  head := 0x0f
  tail := [0x94, 0xc0]
  inst _ := { type := .setz, operands := [.reg .byte 0 .gpl] }
  wellFormed _ := by decide

/-- `mov eax, imm32`, for one immediate. -/
def movEaxImm (b0 b1 b2 b3 : BitVec 8) : Encoding where
  head := 0xb8
  tail := [b0, b1, b2, b3]
  inst _ :=
    { type := .movabsImm, operands := [eax, .imm .dword],
      immediate := (b3 ++ b2 ++ b1 ++ b0).signExtend 64 }
  wellFormed _ := by simp [Instruction.wellFormed]; decide

/-- `nop` -/
def nop : Encoding where
  head := 0x90
  inst _ := { type := .nop }
  wellFormed _ := by decide

/-- `ret` -/
def ret : Encoding where
  head := 0xc3
  inst _ := { type := .ret }
  wellFormed _ := by decide

end Encoding

namespace Decoder

/-- The decoder that knows the listed encodings and nothing else. -/
def ofEncodings (encodings : List Encoding) : Decoder where
  decode bytes address :=
    (encodings.find? fun encoding => encoding.bytes.isPrefixOf bytes).map
      fun encoding => encoding.decodedAt address
  size_pos := by
    intro bytes address inst decoded
    obtain ⟨encoding, _, rfl⟩ := Option.map_eq_some_iff.mp decoded
    simp [Encoding.decodedAt, Encoding.bytes]
  size_le := by
    intro bytes address inst decoded
    obtain ⟨encoding, found, rfl⟩ := Option.map_eq_some_iff.mp decoded
    have isPrefix := List.find?_some found
    exact (List.isPrefixOf_iff_prefix.mp isPrefix).length_le
  address_eq := by
    intro bytes address inst decoded
    obtain ⟨encoding, _, rfl⟩ := Option.map_eq_some_iff.mp decoded
    rfl
  wellFormed := by
    intro bytes address inst decoded
    obtain ⟨encoding, _, rfl⟩ := Option.map_eq_some_iff.mp decoded
    exact encoding.wellFormed address

end Decoder
end Fadec
end Oxtra

import Oxtra.Helper
import Oxtra.Instruction

/-!
# Lazy information about the flags

An instruction does not compute the flags it changes.  It stores what they can
be computed from, for the flags of its update set, and the flags are evaluated
where an instruction requires them.  The code that evaluates the carry and the
overflow flag is with the routines that they call.
-/

namespace Oxtra
namespace Instruction

open RiscV
open Encoding
open Helper
open FlagInfo
open Fadec (OperandSize)

/-! ## Evaluation -/

/-- `evaluate_zero` -/
def evaluateZero (dest : Register) : List Inst :=
  [ld dest contextAddress (zeroValueOffset.setWidth 16),
    seqz dest dest]

/-- `evaluate_sign` -/
def evaluateSign (dest temp : Register) : List Inst :=
  [lbu temp contextAddress (signSizeOffset.setWidth 16),
    ld dest contextAddress (signValueOffset.setWidth 16),
    srl dest dest temp,
    andi dest dest 1]

/-- `evaluate_parity` -/
def evaluateParity (dest temp : Register) : List Inst :=
  [lbu dest contextAddress (parityValueOffset.setWidth 16),
    srli temp dest 4,
    xor dest dest temp,
    srli temp dest 2,
    xor dest dest temp,
    srli temp dest 1,
    xor dest dest temp,
    andi dest dest 1,
    seqz dest dest]

variable (inst : Instruction)

/-- The code of an update, if the flag is one of the update set. -/
def updating (flag : Flag) (code : List Inst) : List Inst :=
  if flag ∈ inst.updateFlags then code else []

/-! ## Zero, sign and parity -/

/-- `update_zero` for the value of a register of some size. -/
def updateZero (va : Register) (size : OperandSize) : List Inst :=
  inst.updating .zero
    (match size with
    | .qword => [sd contextAddress va zeroValueOffset]
    | .byte =>
        [sd contextAddress .zero zeroValueOffset,
          sb contextAddress va zeroValueOffset]
    | .word =>
        [sd contextAddress .zero zeroValueOffset,
          sh contextAddress va zeroValueOffset]
    | .dword =>
        [sd contextAddress .zero zeroValueOffset,
          sw contextAddress va zeroValueOffset])

/-- `update_sign` for the value of a register of some size. -/
def updateSign (va : Register) (size : OperandSize) (temp : Register) :
    List Inst :=
  inst.updating .sign
    [sd contextAddress va signValueOffset,
      addi temp .zero (BitVec.ofNat 16 (size.bits - 1)),
      sb contextAddress temp signSizeOffset]

/-- `update_parity` for the value of a register. -/
def updateParity (va : Register) : List Inst :=
  inst.updating .parity [sb contextAddress va parityValueOffset]

/-! ## Carry and overflow -/

/-- Where the information about a flag is that is evaluated by a routine. -/
structure OperationFields where
  flag : Flag
  values : BitVec 32
  pointer : BitVec 32
  operation : BitVec 32

/-- The fields of a flag. -/
def overflowFields : OperationFields where
  flag := .overflow
  values := overflowValuesOffset
  pointer := overflowPtrOffset
  operation := overflowOperationOffset

@[inherit_doc overflowFields] def carryFields : OperationFields where
  flag := .carry
  values := carryValuesOffset
  pointer := carryPtrOffset
  operation := carryOperationOffset

namespace OperationFields

/-- Store the entry of a routine. -/
def storeEntry
    (fields : OperationFields)
    (entry : JumpTable.Entry)
    (temp : Register) : List Inst :=
  [addi temp .zero entry.offset,
    sh contextAddress temp fields.operation]

/-- Store the value of a register, if there is one. -/
def storeValue
    (fields : OperationFields)
    (index : BitVec 32) : Option Register -> List Inst
  | some value => [sd contextAddress value (fields.values + 8 * index)]
  | none => []

/-- Store an entry that is in a register, with its values. -/
def storeRegister
    (fields : OperationFields)
    (entry va vb : Register) : List Inst :=
  [sd contextAddress va fields.values,
    sd contextAddress vb (fields.values + 8),
    sh contextAddress entry fields.operation]

end OperationFields

/-- Store the entry and the values that there are. -/
def updateOperation
    (fields : OperationFields)
    (entry : Option JumpTable.Entry)
    (va vb : Option Register)
    (temp : Register) : List Inst :=
  inst.updating fields.flag
    ((match entry with
      | some entry => fields.storeEntry entry temp
      | none => []) ++
        fields.storeValue 0 va ++ fields.storeValue 1 vb)

/-- `update_overflow` -/
def updateOverflow
    (entry : Option JumpTable.Entry)
    (va vb : Option Register)
    (temp : Register) : List Inst :=
  inst.updateOperation overflowFields entry va vb temp

/-- `update_carry` -/
def updateCarry
    (entry : Option JumpTable.Entry)
    (va vb : Option Register)
    (temp : Register) : List Inst :=
  inst.updateOperation carryFields entry va vb temp

/-- `update_overflow` for a known value of the flag. -/
def setOverflow (set : Bool) (temp : Register) : List Inst :=
  inst.updating .overflow
    (overflowFields.storeEntry
      (if set then .overflowSet else .overflowClear) temp)

/-- `update_carry` for a known value of the flag. -/
def setCarry (set : Bool) (temp : Register) : List Inst :=
  inst.updating .carry
    (carryFields.storeEntry (if set then .carrySet else .carryClear) temp)

/-- `update_overflow` for an entry in a register.  It does not look at the
update set. -/
def updateOverflowRegister (entry va vb : Register) : List Inst :=
  overflowFields.storeRegister entry va vb

/-- `update_carry` for an entry in a register, with values.  It does not look
at the update set. -/
def updateCarryRegister (entry va vb : Register) : List Inst :=
  carryFields.storeRegister entry va vb

/-- `update_carry` for an entry in a register.  It does not look at the update
set. -/
def updateCarryEntry (entry : Register) : List Inst :=
  [sh contextAddress entry carryOperationOffset]

/-! ## Unsupported flags -/

/-- Addresses in the translator that emitted code refers to: the texts with
the names of instructions, and the callback for the division exception. -/
structure HostSymbols where
  text : String -> BitVec 64
  divisionException : BitVec 64

/-- Store the entry that reports the flag as unsupported, and the name. -/
def updateUnsupported
    (fields : OperationFields)
    (entry : JumpTable.Entry)
    (name : BitVec 64)
    (temp : Register) : List Inst :=
  inst.updating fields.flag
    (fields.storeEntry entry temp ++ loadImmediate name temp ++
      [sd contextAddress temp fields.pointer])

/-- `update_carry_unsupported` -/
def updateCarryUnsupported (name : BitVec 64) (temp : Register) : List Inst :=
  inst.updateUnsupported carryFields .unsupportedCarry name temp

/-- `update_overflow_unsupported` -/
def updateOverflowUnsupported (name : BitVec 64) (temp : Register) :
    List Inst :=
  inst.updateUnsupported overflowFields .unsupportedOverflow name temp

/-- `call_high_level` -/
def callHighLevel (callback : BitVec 64) : List Inst :=
  loadImmediate callback .t4 ++ JumpTable.jumpTableEntry .cWrapper

end Instruction
end Oxtra

import Oxtra.Instructions.Operations

/-!
# Bit tests

The tested bit becomes the carry flag: the entry to store is computed from the
bit.  For a bit offset in a register the shifts of the operands are made but
not added to the code.
-/

namespace Oxtra

open RiscV
open Encoding
open Helper
open Fadec (OperandSize)

/-- The register of a register operand, and otherwise the temporary that the
operand is read into. -/
def bitBaseRegister : Fadec.Operand -> Register
  | .reg _ register _ => mapReg register
  | _ => .t0

/-- The code that reads the operand with the bits, and the register that has
the address of an operand in memory. -/
def readBitBase (inst : Instruction) (temp : Register) :
    List Inst × Register :=
  match inst.getOperand 0 with
  | .reg .. => ([], .zero)
  | bitBase => inst.readFromMemory bitBase .t0 temp false

/-- The offset of the bit, if it is an immediate. -/
def immediateBitOffset (inst : Instruction) : Nat :=
  inst.immediate.toNat % inst.destinationSize.bits

/-- Store the entry for the carry flag that belongs to the bit in a
register. -/
def storeBit (bitValue : Register) : List Inst :=
  [slli bitValue bitValue 2,
    addi bitValue bitValue JumpTable.Entry.carryClear.offset] ++
    Instruction.updateCarryEntry bitValue

namespace BitTest

def bitValueReg : Register := .t1
def maskReg : Register := .t2

variable (inst : Instruction)

/-- The mask of the bit.  For an offset in a register only the one that was to
be shifted is loaded. -/
def loadMask : List Inst :=
  if (inst.getOperand 1).isImm then
    let amount := immediateBitOffset inst
    if amount < 11 then
      [addi maskReg .zero (BitVec.ofNat 16 (2 ^ amount))]
    else if 11 < amount ∧ amount < 31 then
      [lui maskReg (BitVec.ofNat 32 (2 ^ (amount - 12)))]
    else
      [addi maskReg .zero 1, slli maskReg maskReg (BitVec.ofNat 8 amount)]
  else
    [addi maskReg .zero 1]

/-- `manipulate_bit` -/
def manipulateBit (bitBase : Register) : BitTest -> List Inst
  | btc => [Encoding.xor bitBase bitBase maskReg]
  | btr =>
      [Encoding.not maskReg maskReg, Encoding.and bitBase bitBase maskReg]
  | bts => [Encoding.or bitBase bitBase maskReg]

/-- `BitTest::generate` -/
def generate (operation : BitTest) : List Inst :=
  let bitBase := inst.getOperand 0
  let bitBaseReg := bitBaseRegister bitBase
  let (read, address) := readBitBase inst .t3
  read ++ loadMask inst ++
    [Encoding.and bitValueReg bitBaseReg maskReg,
      snez bitValueReg bitValueReg] ++
    storeBit bitValueReg ++ operation.manipulateBit bitBaseReg ++
    if bitBase.isMem then
      inst.writeToMemory bitBase bitBaseReg .t1 .t2 address
    else
      []

end BitTest

namespace Bt

variable (inst : Instruction)

/-- `Bt::generate` -/
def generate : List Inst :=
  (readBitBase inst .t1).1 ++
    (if (inst.getOperand 1).isImm then
      [srli .t1 (bitBaseRegister (inst.getOperand 0))
        (BitVec.ofNat 8 (immediateBitOffset inst))]
    else
      []) ++
    andi .t1 .t1 1 :: storeBit .t1

end Bt
end Oxtra

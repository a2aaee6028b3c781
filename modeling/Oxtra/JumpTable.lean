import Oxtra.Encoding
import Oxtra.ExecutionContext
import Oxtra.Library.RiscV.Program

/-!
# The jump table

Generated code reaches the routines of the runtime through a table of jumps
whose address is in the register `s10`.
-/

namespace Oxtra

open RiscV

namespace Helper

/-! ## Reserved registers -/

def addressDestination : Register := .t3
def returnStack : Register := .s1
def callTableAddress : Register := .s8
def jumpTableAddress : Register := .s10
def contextAddress : Register := .s11

end Helper

namespace JumpTable

/-! ## Entries -/

/-- The entries of the table.  The routines that evaluate a flag exist for
every width of the operands. -/
inductive Entry where
  | virtualSyscall
  | rerouteStatic
  | rerouteDynamic
  | rerouteReturn
  | debugCallback
  | debugCallbackRiscv
  | cWrapper
  | unsupportedInstruction
  | unsupportedCarry
  | unsupportedOverflow
  | highLevelCarry
  | highLevelOverflow
  | carryClear
  | carrySet
  | overflowClear
  | overflowSet
  | carryAdd (width : Width)
  | carryAdc (width : Width)
  | carryNeg (width : Width)
  | overflowAdd (width : Width)
  | overflowAdc (width : Width)
  | overflowAddPos (width : Width)
  | overflowAddNeg (width : Width)
  | overflowSub (width : Width)
  | overflowInc (width : Width)
  | overflowDecNeg (width : Width)
  deriving DecidableEq, Repr

/-- Position of a width within a group of entries. -/
def widthIndex : Width -> BitVec 16
  | .byte => 0
  | .half => 1
  | .word => 2
  | .double => 3

/-- Number of an entry. -/
def Entry.number : Entry -> BitVec 16
  | virtualSyscall => 0
  | rerouteStatic => 1
  | rerouteDynamic => 2
  | rerouteReturn => 3
  | debugCallback => 4
  | debugCallbackRiscv => 5
  | cWrapper => 6
  | unsupportedInstruction => 7
  | unsupportedCarry => 8
  | unsupportedOverflow => 9
  | highLevelCarry => 10
  | highLevelOverflow => 11
  | carryClear => 12
  | carrySet => 13
  | overflowClear => 14
  | overflowSet => 15
  | carryAdd width => 16 + widthIndex width
  | carryAdc width => 20 + widthIndex width
  | carryNeg width => 24 + widthIndex width
  | overflowAdd width => 28 + widthIndex width
  | overflowAdc width => 32 + widthIndex width
  | overflowAddPos width => 36 + widthIndex width
  | overflowAddNeg width => 40 + widthIndex width
  | overflowSub width => 44 + widthIndex width
  | overflowInc width => 48 + widthIndex width
  | overflowDecNeg width => 52 + widthIndex width

/-- Offset of an entry in the table. -/
def Entry.offset (entry : Entry) : BitVec 16 := entry.number * 4

/-! ## Jumps into the table -/

/-- Jump to an entry. -/
def jumpTableEntry (entry : Entry) : List Inst :=
  [Encoding.jalr .ra Helper.jumpTableAddress entry.offset]

/-- Jump to the entry whose offset is in a register. -/
def jumpTableOffset (offset : Register) : List Inst :=
  [Encoding.add offset Helper.jumpTableAddress offset,
    Encoding.jalr .ra offset 0]

end JumpTable

namespace Helper

open JumpTable

/-- The entries for the carry and the overflow flag that belong to a size of
the operands.  Another size is a fault. -/
def calculateEntries
    (carry overflow : Width -> Entry)
    (size : Nat) : Option (Entry × Entry) :=
  match size with
  | 8 => some (carry .double, overflow .double)
  | 4 => some (carry .word, overflow .word)
  | 2 => some (carry .half, overflow .half)
  | 1 => some (carry .byte, overflow .byte)
  | _ => none

end Helper
end Oxtra

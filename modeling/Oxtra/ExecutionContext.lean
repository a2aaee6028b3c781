import Oxtra.Library.RiscV.Semantics

/-!
# The execution context

Generated code finds the lazy information about the flags and the bases of the
segments behind the register `s11`.
-/

namespace Oxtra
namespace ExecutionContext

open RiscV

/-! ## Layout -/

/-- Offset of the base of the segment fs. -/
def fsOffset : BitVec 16 := 0x248

/-- Offset of the base of the segment gs. -/
def gsOffset : BitVec 16 := 0x250

/-- Number of bytes of the context. -/
def size : Nat := 0x278

end ExecutionContext

namespace FlagInfo

open RiscV

def flagInfoOffset : BitVec 32 := 0x200
def zeroValueOffset : BitVec 32 := flagInfoOffset + 8 * 0
def signValueOffset : BitVec 32 := flagInfoOffset + 8 * 1
def overflowValuesOffset : BitVec 32 := flagInfoOffset + 8 * 2
def carryValuesOffset : BitVec 32 := flagInfoOffset + 8 * 4
def overflowPtrOffset : BitVec 32 := flagInfoOffset + 8 * 6
def carryPtrOffset : BitVec 32 := flagInfoOffset + 8 * 7
def overflowOperationOffset : BitVec 32 := flagInfoOffset + 8 * 8
def carryOperationOffset : BitVec 32 := flagInfoOffset + 8 * 8 + 2
def signSizeOffset : BitVec 32 := flagInfoOffset + 8 * 8 + 2 * 2
def parityValueOffset : BitVec 32 := flagInfoOffset + 8 * 8 + 2 * 2 + 1

/-- The values that the carry flag is computed from. -/
def carryValue (state : State) (index : Fin 2) : Word :=
  state.mem.load (state.get .s11 + carryValuesOffset.setWidth 64 +
    8 * BitVec.ofNat 64 index) 8

/-- The values that the overflow flag is computed from. -/
def overflowValue (state : State) (index : Fin 2) : Word :=
  state.mem.load (state.get .s11 + overflowValuesOffset.setWidth 64 +
    8 * BitVec.ofNat 64 index) 8

/-- Offset in the jump table of the routine for the carry flag. -/
def carryOperation (state : State) : Word :=
  state.mem.load (state.get .s11 + carryOperationOffset.setWidth 64) 2

/-- Offset in the jump table of the routine for the overflow flag. -/
def overflowOperation (state : State) : Word :=
  state.mem.load (state.get .s11 + overflowOperationOffset.setWidth 64) 2

end FlagInfo
end Oxtra

import Oxtra.Helper

/-!
# Calls and returns

A call pushes its return address for the guest, and the place of this address
in the call table onto a stack of its own.  A return looks there first.
-/

namespace Oxtra

open RiscV
open Encoding
open Helper

/-- Code behind a branch over it.  The branch is put in front of the code when
the length of the code is known. -/
def branchOver (branch : BitVec 32 -> Inst) (code : List Inst) : List Inst :=
  branch (BitVec.ofNat 32 (4 * (1 + code.length))) :: code

/-- A branch back to the start of the code in front of it. -/
def branchBack (branch : BitVec 32 -> Inst) (code : List Inst) : Inst :=
  branch (BitVec.ofInt 32 (-4 * code.length))

namespace Call

/-- Size of an entry of the call table. -/
def callEntrySize : Nat := 16

/-- Offset of the entry of a call that is translated when the table has this
number of entries. -/
def tableOffset (entries : Nat) : BitVec 64 :=
  BitVec.ofNat 64 (entries * callEntrySize)

/-- Push the offset onto the return stack. -/
def pushOffset (tableOffset : BitVec 64) : List Inst :=
  loadImmediate tableOffset .t0 ++
    [sw returnStack .t0 0,
      addi returnStack returnStack 4,
      andi returnStack returnStack 0b101111111111]

/-- Push the return address of the entry onto the stack of the guest. -/
def pushReturnAddress (tableOffset : BitVec 64) : List Inst :=
  (if tableOffset < 0x800 then
    [ld .t1 callTableAddress (tableOffset.setWidth 16)]
  else
    [add .t1 callTableAddress .t0, ld .t1 .t1 0]) ++
    [addi rsp rsp (-8), sd rsp .t1 0]

end Call

namespace Ret

/-- Pop the return address, and what the immediate says, from the stack of the
guest. -/
def popReturnAddress (immediate : BitVec 64) : List Inst :=
  ld addressDestination rsp 0 ::
    if immediate + 8 < 0x800 then
      [addi rsp rsp ((immediate + 8).setWidth 16)]
    else
      loadImmediate (immediate + 8) .t0 ++ [add rsp rsp .t0]

/-- Pop an offset from the return stack. -/
def popOffset : List Inst :=
  [addi returnStack returnStack 0b001111111100,
    andi returnStack returnStack 0b101111111111,
    lwu .t0 returnStack 0]

/-- The return address of the entry. -/
def loadEntry : List Inst :=
  [add .t1 callTableAddress .t0, ld .t2 .t1 0]

/-- Go to the code for the entry, once its address is known. -/
def enterEntry : List Inst :=
  ld .t3 .t1 8 ::
    branchOver (beqz .t3) [jalr .zero .t3 0] ++
      JumpTable.jumpTableEntry .rerouteReturn

/-- `Ret::generate` for what `get_immediate` returns. -/
def generate (immediate : BitVec 64) : List Inst :=
  popReturnAddress immediate ++ popOffset ++ loadEntry ++
    branchOver (beq addressDestination .t2)
      (appendEobRegister addressDestination) ++
        enterEntry

end Ret
end Oxtra

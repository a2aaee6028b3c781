import Oxtra.JumpTable

/-!
# Routines that evaluate a flag

The assembly routines behind the jump table that compute the carry and the
overflow flag from the values in the execution context.  A routine leaves the
flag in `t4`, may change `t5` and `t6`, and returns to `ra`.
-/

namespace Oxtra

open RiscV
open Encoding

/-! ## Calls -/

/-- Some code and the instruction that a call starts with. -/
structure Stub where
  code : List Inst
  entry : Nat

namespace Stub

/-- A routine does not depend on its address. -/
def environment : Environment where
  origin := 0
  aligned := zero_aligned
  call := fun _ _ => none
  permits := fun _ _ => true

/-- The state in which a call of the routine returns. -/
def run (stub : Stub) (state : State) : Option State :=
  match environment.run stub.code stub.code.length stub.entry state with
  | .exit (.left target final) =>
      if target = state.get .ra then some final else none
  | _ => none

/-- A routine without jumps. -/
def straight (body : List Inst) : Stub where
  code := body ++ [ret]
  entry := 0

end Stub

/-! ## Operands -/

def unsignedLoad : Width -> Load
  | .byte => .lbu
  | .half => .lhu
  | .word => .lwu
  | .double => .ld

def signedLoad : Width -> Load
  | .byte => .lb
  | .half => .lh
  | .word => .lw
  | .double => .ld

namespace FlagInfo

def carryValue0 : BitVec 16 := carryValuesOffset.setWidth 16
def carryValue1 : BitVec 16 := (carryValuesOffset + 8).setWidth 16
def overflowValue0 : BitVec 16 := overflowValuesOffset.setWidth 16
def overflowValue1 : BitVec 16 := (overflowValuesOffset + 8).setWidth 16

end FlagInfo

namespace Stub

open FlagInfo

/-! ## Carry -/

def carryClear : Stub := straight [addi .t4 .zero 0]

def carrySet : Stub := straight [addi .t4 .zero 1]

/-- Add, and adc without carry: the result is less than the source. -/
def carryAdd (width : Width) : Stub := straight
  [load (unsignedLoad width) .t4 .s11 carryValue0,
    load (unsignedLoad width) .t5 .s11 carryValue1,
    sltu .t4 .t5 .t4]

/-- Adc with carry: the result is not more than the source. -/
def carryAdc (width : Width) : Stub := straight
  [load (unsignedLoad width) .t4 .s11 carryValue0,
    load (unsignedLoad width) .t5 .s11 carryValue1,
    sltu .t4 .t4 .t5,
    xori .t4 .t4 1]

def carryNeg (width : Width) : Stub := straight
  [load (unsignedLoad width) .t4 .s11 carryValue0,
    snez .t4 .t4]

/-! ## Overflow -/

def overflowClear : Stub := straight [addi .t4 .zero 0]

def overflowSet : Stub := straight [addi .t4 .zero 1]

/-- Move short operands to the top of a word. -/
def shiftOperands : Width -> List Inst
  | .byte => [slli .t4 .t4 24, slli .t5 .t5 24]
  | .half => [slli .t4 .t4 16, slli .t5 .t5 16]
  | .word | .double => []

/-- Add, and adc without carry.  Short operands overflow if their sum in
words differs from the sum in double words. -/
def overflowAdd : Width -> Stub
  | .double => straight
      [ld .t4 .s11 overflowValue0,
        ld .t5 .s11 overflowValue1,
        add .t6 .t5 .t4,
        slti .t4 .t4 0,
        slt .t5 .t6 .t5,
        sub .t4 .t4 .t5,
        snez .t4 .t4]
  | width => straight
      ([load (signedLoad width) .t4 .s11 overflowValue0,
        load (signedLoad width) .t5 .s11 overflowValue1] ++
        shiftOperands width ++
        [addw .t6 .t4 .t5,
          add .t5 .t4 .t5,
          sub .t5 .t5 .t6,
          snez .t4 .t5])

/-- Add of an immediate that is not negative: the result is less than the
operand. -/
def overflowAddPos (width : Width) : Stub := straight
  [load (signedLoad width) .t4 .s11 overflowValue0,
    load (signedLoad width) .t5 .s11 overflowValue1,
    slt .t4 .t5 .t4]

/-- Add of an immediate that is not positive: the result is more than the
operand. -/
def overflowAddNeg (width : Width) : Stub := straight
  [load (signedLoad width) .t4 .s11 overflowValue0,
    load (signedLoad width) .t5 .s11 overflowValue1,
    slt .t4 .t4 .t5]

/-- Adc with carry.  The branch of the long routine goes to
`overflow_clear`, which stands in front of it here. -/
def overflowAdc : Width -> Stub
  | .double =>
      { code := overflowClear.code ++
          [ld .t4 .s11 overflowValue0,
            ld .t5 .s11 overflowValue1,
            add .t6 .t5 .t4,
            addi .t6 .t6 1,
            srli .t4 .t4 63,
            srli .t5 .t5 63,
            srli .t6 .t6 63,
            bne .t4 .t5 (-36),
            xor .t4 .t6 .t4,
            ret]
        entry := overflowClear.code.length }
  | width => straight
      ([load (signedLoad width) .t4 .s11 overflowValue0,
        load (signedLoad width) .t5 .s11 overflowValue1,
        addi .t5 .t5 1] ++
        shiftOperands width ++
        [addw .t6 .t4 .t5,
          add .t5 .t4 .t5,
          sub .t5 .t5 .t6,
          snez .t4 .t5])

/-- Sub of the first value from the second one. -/
def overflowSub : Width -> Stub
  | .double => straight
      [ld .t4 .s11 overflowValue0,
        ld .t5 .s11 overflowValue1,
        sub .t6 .t5 .t4,
        slti .t4 .t4 0,
        slt .t5 .t5 .t6,
        sub .t4 .t4 .t5,
        snez .t4 .t4]
  | width => straight
      ([load (signedLoad width) .t4 .s11 overflowValue0,
        load (signedLoad width) .t5 .s11 overflowValue1] ++
        shiftOperands width ++
        [subw .t6 .t5 .t4,
          sub .t5 .t5 .t4,
          sub .t5 .t5 .t6,
          snez .t4 .t5])

/-- Move a short operand to the top of a double word. -/
def shiftOperand : Width -> List Inst
  | .byte => [slli .t4 .t4 56]
  | .half => [slli .t4 .t4 48]
  | .word => [slli .t4 .t4 32]
  | .double => []

def overflowInc : Width -> Stub
  | .double => straight
      [ld .t4 .s11 overflowValue0,
        addi .t5 .t4 1,
        slt .t4 .t5 .t4]
  | width => straight
      ([load (unsignedLoad width) .t4 .s11 overflowValue0,
        addi .t4 .t4 1] ++
        shiftOperand width ++
        [addi .t5 .t4 (-1),
          slt .t4 .t4 .t5])

/-- Dec and neg overflow for the same operand. -/
def overflowDecNeg (width : Width) : Stub := straight
  ([load (unsignedLoad width) .t4 .s11 overflowValue0] ++
    shiftOperand width ++
    [addi .t5 .t4 (-1),
      slt .t4 .t4 .t5])

end Stub
end Oxtra

import Oxtra.JumpTable

/-!
# Rerouting

The assembly routines that a block ends in when the address of the next block
is not known to it.  They look for the guest address in the translation
lookaside buffer, translate it if it is not there, and jump to the code.  The
C++ functions that they call are parameters.
-/

namespace Oxtra
namespace Dispatcher

open RiscV
open Encoding

/-! ## The guest context -/

def guestS2Offset : Nat := 0x88
def guestS4Offset : Nat := 0x98
def codegenOffset : Nat := 0x1F0

/-- `capture_context_tlb`: the registers and their places in the context. -/
def tlbSlots : List (Register × Nat) :=
  [(.ra, 0x00), (.sp, 0x08), (.s0, 0x38), (.s1, 0x40), (.a0, 0x48),
    (.a1, 0x50), (.a2, 0x58), (.a3, 0x60), (.a4, 0x68), (.a5, 0x70),
    (.a6, 0x78), (.a7, 0x80), (.s3, 0x90), (.s5, 0xA0), (.s6, 0xA8),
    (.s7, 0xB0), (.s8, 0xB8), (.s9, 0xC0), (.s10, 0xC8), (.s11, 0xD0)]

/-- The registers that `compute_tlb_address` uses. -/
def probeSlots : List (Register × Nat) :=
  [(.s2, guestS2Offset), (.s4, guestS4Offset)]

/-- `restore_context` -/
def restoreSlots : List (Register × Nat) :=
  [(.ra, 0x00), (.sp, 0x08), (.s0, 0x38), (.s1, 0x40), (.a0, 0x48),
    (.a1, 0x50), (.a2, 0x58), (.a3, 0x60), (.a4, 0x68), (.a5, 0x70),
    (.a6, 0x78), (.a7, 0x80), (.s2, 0x88), (.s3, 0x90), (.s4, 0x98),
    (.s5, 0xA0), (.s6, 0xA8), (.s7, 0xB0), (.s8, 0xB8), (.s9, 0xC0),
    (.s10, 0xC8), (.s11, 0xD0)]

/-- Store registers into the context that a register points to. -/
def capture (base : Register) (slots : List (Register × Nat)) : List Inst :=
  slots.map fun (register, offset) =>
    sd base register (BitVec.ofNat 32 offset)

/-- Load registers from the context that a register points to. -/
def restore (base : Register) (slots : List (Register × Nat)) : List Inst :=
  slots.map fun (register, offset) =>
    ld register base (BitVec.ofNat 16 offset)

def captureContextTlb (base : Register) : List Inst := capture base tlbSlots

def captureContext (base : Register) : List Inst :=
  captureContextTlb base ++ capture base probeSlots

def restoreContext (base : Register) : List Inst := restore base restoreSlots

/-- Work on the stack behind the red zone. -/
def skipRedZone : List Inst := [addi .sp .sp (-128)]

/-! ## The translation lookaside buffer -/

/-- The entry of an address in `t3`: its own address is left in `s4`, and the
guest address in it in `t0`. -/
def computeTlbAddress : List Inst :=
  [srli .t0 .t3 11, Encoding.xor .t0 .t0 .t3, andi .t0 .t0 0x7f0,
    add .s4 .t0 .s9, ld .t0 .s4 0]

/-- The code address of an entry. -/
def loadTlbEntry : List Inst := [ld .s2 .s4 8]

def updateTlbEntry : List Inst := [sd .s4 .s2 0, sd .s4 .a0 8]

/-! ## The routines -/

/-- The C++ functions.  A function that does not return has exited the guest.
The return addresses of the calls and the addresses of the texts depend on
where the program is linked. -/
structure Runtime where
  reroutes : State -> Option State
  translate : State -> Option State
  updateBasicBlock : State -> Option State
  returnAddress : Word
  format : Word

/-- No instruction of the routines depends on its own address. -/
def exec (state : State) (code : List Inst) : State := applyAll 0 state code

/-- `jal ra, function` -/
def Runtime.call
    (runtime : Runtime)
    (function : State -> Option State)
    (state : State) : Option State :=
  function (state.set .ra runtime.returnAddress)

/-- How a routine ends: it jumps to the code of a guest address. -/
structure Rerouted where
  state : State
  target : Word
  /-- The guest address that was looked for, and its entry. -/
  address : Word
  entry : Word
  /-- The code address, and whether it comes from the buffer. -/
  riscv : Word
  hit : Bool

/-- `jalr zero, t3, 0` -/
def leave
    (state : State)
    (address entry riscv : Word)
    (hit : Bool) : Rerouted where
  state := state
  target := jumpTarget state .t3 0
  address := address
  entry := entry
  riscv := riscv
  hit := hit

/-- The branch of `compute_tlb_address`. -/
def isHit (probed : State) : Bool := probed.get .t0 == probed.get .t3

/-- The call of the logger with a guest address in a register. -/
def Runtime.log
    (runtime : Runtime)
    (state : State)
    (load : List Inst) : Option State :=
  runtime.call runtime.reroutes (exec (state.set .a0 runtime.format) load)

/-- The call of `translate` with a guest address in a register. -/
def Runtime.translateCall
    (runtime : Runtime)
    (state : State)
    (load : List Inst) : Option State :=
  runtime.call runtime.translate
    (exec state (ld .a0 .s11 (BitVec.ofNat 16 codegenOffset) :: load))

/-- The end of `reroute_static`, with the code address in `s2`. -/
def finishStatic
    (runtime : Runtime)
    (state : State)
    (address entry : Word)
    (hit : Bool) : Option Rerouted := do
  let riscv := state.get .s2
  let state := exec state
    [ld .a0 .s11 (BitVec.ofNat 16 codegenOffset), mv .a1 .s1, mv .a2 .s2]
  let state ← runtime.call runtime.updateBasicBlock state
  let state := exec state (mv .t3 .s2 :: restoreContext .s11)
  return leave state address entry riscv hit

/-- `reroute_static` -/
def rerouteStatic (runtime : Runtime) (state : State) : Option Rerouted := do
  let address := state.get .t3
  let state := exec state (captureContext .s11 ++ mv .s1 .ra :: skipRedZone)
  let state := exec state computeTlbAddress
  let entry := state.get .s4
  if isHit state then
    finishStatic runtime (exec state loadTlbEntry) address entry true
  else
    let state := exec state [mv .s2 .t3]
    let state ← runtime.log state [mv .a1 .s2]
    let state ← runtime.translateCall state [mv .a1 .s2]
    let state := exec state (updateTlbEntry ++ [mv .s2 .a0])
    finishStatic runtime state address entry false

/-- The end of a dynamic routine that has found its address in the buffer. -/
def finishHit (state : State) : State :=
  exec state
    [mv .t3 .s2, ld .s2 .s11 (BitVec.ofNat 16 guestS2Offset),
      ld .s4 .s11 (BitVec.ofNat 16 guestS4Offset)]

/-- The end of a dynamic routine that has translated its address. -/
def finishMiss (state : State) : State :=
  exec state (updateTlbEntry ++ mv .t3 .a0 :: restoreContext .s11)

/-- `reroute_dynamic` -/
def rerouteDynamic (runtime : Runtime) (state : State) : Option Rerouted := do
  let address := state.get .t3
  let state := exec state (capture .s11 probeSlots)
  let state := exec state computeTlbAddress
  let entry := state.get .s4
  if isHit state then
    let state := exec state loadTlbEntry
    return leave (finishHit state) address entry (state.get .s2) true
  else
    let state := exec state (captureContextTlb .s11 ++ skipRedZone)
    let state := exec state [mv .s2 .t3]
    let state ← runtime.log state [mv .a1 .s2]
    let state ← runtime.translateCall state [mv .a1 .s2]
    return leave (finishMiss state) address entry (state.get .a0) false

/-- `reroute_return`, with the entry of the call table in `t1` -/
def rerouteReturn (runtime : Runtime) (state : State) : Option Rerouted := do
  let state := exec state (capture .s11 probeSlots)
  let state := exec state [ld .t3 .t1 0]
  let address := state.get .t3
  let state := exec state computeTlbAddress
  let entry := state.get .s4
  if isHit state then
    let state := exec state loadTlbEntry
    let riscv := state.get .s2
    let state := exec state
      [mv .t3 .s2, ld .s2 .t1 8, ld .s2 .s11 (BitVec.ofNat 16 guestS2Offset),
        ld .s4 .s11 (BitVec.ofNat 16 guestS4Offset)]
    return leave state address entry riscv true
  else
    let state := exec state (captureContextTlb .s11 ++ skipRedZone)
    let state := exec state [mv .s2 .t1]
    let state ← runtime.log state [ld .a1 .s2 0]
    let state ← runtime.translateCall state [ld .a1 .s2 0]
    let riscv := state.get .a0
    let state := exec state [sd .s2 .a0 8, ld .s2 .s2 0]
    return leave (finishMiss state) address entry riscv false

/-- The three ways into the dispatcher. -/
inductive Kind where
  | static
  | dynamic
  | return
  deriving DecidableEq, Repr

def Kind.routine : Kind -> Runtime -> State -> Option Rerouted
  | static => rerouteStatic
  | dynamic => rerouteDynamic
  | «return» => rerouteReturn

end Dispatcher
end Oxtra

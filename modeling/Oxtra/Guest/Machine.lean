import Mathlib.Computability.StateTransition
import Oxtra.CodeGenerator.FlagElimination
import Oxtra.Instructions.ConditionalMoves
import Oxtra.Instructions.Logic
import Oxtra.Instructions.StackInstructions
import Oxtra.Instructions.UnaryOperations

/-!
# The machine of the guest

What the translated instructions mean: an x86 machine with registers, flags,
the bases of two segments and a memory of which only a part is mapped.  This
is independent of the translator, which keeps the flags as lazy information
and the registers in those of the host.
-/

namespace Oxtra
namespace Guest

open RiscV
open Helper
open Instruction
open TwosComplement
open Fadec (Operand OperandSize)

/-- The state of an x86 machine, as far as a program of the guest sees it. -/
structure Machine where
  registers : Fadec.Register -> Word
  flags : Flag -> Bool
  fsBase : Word
  gsBase : Word
  memory : Memory

/-- The addresses that the guest may access. -/
abbrev AddressSpace := Word -> Bool

/-- All bytes of an access are mapped. -/
def AddressSpace.covers
    (mapped : AddressSpace)
    (address : Word)
    (bytes : Nat) : Bool :=
  (List.range bytes).all fun index => mapped (address + BitVec.ofNat 64 index)

theorem AddressSpace.covers_iff
    {mapped : AddressSpace}
    {address : Word}
    {bytes : Nat} :
    mapped.covers address bytes = true ↔
      ∀ index < bytes, mapped (address + BitVec.ofNat 64 index) = true := by
  simp [AddressSpace.covers]

/-- The register that an operand is a part of. -/
def fullRegister (register : Fadec.Register) :
    Fadec.RegisterType -> Fadec.Register
  | .gpl => register
  | .gph => register - 4

theorem mapReg_fullRegister
    (register : Fadec.Register)
    (type : Fadec.RegisterType) :
    mapReg (fullRegister register type) = mapRegType register type := by
  cases type <;> rfl

namespace Machine

variable (mapped : AddressSpace) (machine : Machine)

/-! ## Memory -/

/-- A load of some bytes. -/
def load (address : Word) (bytes : Nat) : Option Word :=
  if mapped.covers address bytes then
    some (machine.memory.load address bytes)
  else
    none

/-- A store of some bytes. -/
def store (address : Word) (bytes : Nat) (value : Word) : Option Machine :=
  if mapped.covers address bytes then
    some { machine with memory := machine.memory.store address bytes value }
  else
    none

/-! ## Operands -/

/-- The value of a register, if there is one. -/
def register : Option Fadec.Register -> Word
  | some register => machine.registers register
  | none => 0

/-- The address of an operand within its segment. -/
def offset (inst : Instruction) (op : Operand) : Word :=
  inst.truncateAddress
    (machine.register (baseRegister op) +
      machine.register inst.indexRegister <<< inst.indexScale.toNat +
      inst.displacement)

/-- The base of the segment. -/
def segmentBase (inst : Instruction) : Word :=
  match inst.segment with
  | .fs => machine.fsBase
  | .gs => machine.gsBase
  | _ => 0

/-- The effective address of an operand. -/
def address (inst : Instruction) (op : Operand) : Word :=
  machine.offset inst op + machine.segmentBase inst

/-- The value of an operand, in the low bits of a word. -/
def read (inst : Instruction) (op : Operand) : Option Word :=
  match op with
  | .reg _ register type =>
      some ((registerAccess op).part
        (machine.registers (fullRegister register type)))
  | .mem size _ => machine.load mapped (machine.address inst op) size.bytes
  | .imm _ => some inst.immediate
  | .none => none

/-- The machine with a new value of a register. -/
def setRegister (register : Fadec.Register) (value : Word) : Machine :=
  { machine with registers := Function.update machine.registers register value }

/-- The machine after the low bits of a word are written to an operand. -/
def write (inst : Instruction) (op : Operand) (value : Word) : Option Machine :=
  match op with
  | .reg size register type =>
      let full := fullRegister register type
      some (machine.setRegister full
        ((RegisterAccess.ofType size type).merge (machine.registers full)
          value))
  | .mem size _ => machine.store mapped (machine.address inst op) size.bytes value
  | .imm _ | .none => none

/-- The machine after some flags get new values. -/
def setFlags (changed : BitVec 8) (values : Flag -> Bool) : Machine :=
  { machine with
    flags := fun flag =>
      if flag ∈ changed then values flag else machine.flags flag }

theorem setFlags_of_mem
    {changed : BitVec 8}
    {flag : Flag}
    (member : flag ∈ changed)
    (values : Flag -> Bool) :
    (machine.setFlags changed values).flags flag = values flag :=
  if_pos member

/-- The machines differ in registers and memory only. -/
structure SameFlags (first second : Machine) : Prop where
  flags : second.flags = first.flags
  fsBase : second.fsBase = first.fsBase
  gsBase : second.gsBase = first.gsBase

section Frame

variable {mapped : AddressSpace} {machine written : Machine}

theorem sameFlags_store
    {address value : Word}
    {bytes : Nat}
    (stored : machine.store mapped address bytes value = some written) :
    SameFlags machine written := by
  unfold store at stored
  split at stored
  · obtain rfl := Option.some.inj stored
    exact ⟨rfl, rfl, rfl⟩
  · cases stored

theorem sameFlags_write
    {inst : Instruction}
    {op : Operand}
    {value : Word}
    (write : machine.write mapped inst op value = some written) :
    SameFlags machine written := by
  cases op with
  | reg size register type =>
      obtain rfl := Option.some.inj write
      exact ⟨rfl, rfl, rfl⟩
  | mem size base => exact sameFlags_store write
  | _ => cases write

end Frame

end Machine

/-! ## Instructions -/

/-- Result and flags of an operation on two operands, with the carry flag in
front of it.  The shifts are left out. -/
def binaryOutcome
    {bits : Nat}
    (first second : BitVec bits)
    (carry : Bool) :
    BinaryOperation -> Option (BitVec bits × (Flag -> Bool))
  | .add =>
      some (addition first second false, additionFlags first second false)
  | .adc =>
      some (addition first second carry, additionFlags first second carry)
  | .sub => some (first - second, subtractionFlags first second)
  | .and => some (first &&& second, logicFlags (first &&& second))
  | .or => some (first ||| second, logicFlags (first ||| second))
  | .xor => some (first ^^^ second, logicFlags (first ^^^ second))
  | .shl | .shr | .sar => none

/-- The flags after a comparison. -/
def comparedFlags
    {bits : Nat}
    (first second : BitVec bits) : Comparable -> Flag -> Bool
  | .cmp => subtractionFlags first second
  | .test => logicFlags (first &&& second)

/-- What an instruction that does not branch does to the machine.  Nothing if
it accesses memory that is not mapped, and for the classes that are left
out. -/
def perform
    (mapped : AddressSpace)
    (inst : Instruction)
    (machine : Machine) : Option Machine :=
  let first := inst.getOperand 0
  let second := inst.getOperand 1
  let size := inst.destinationSize
  match inst.instructionClass with
  | .binaryOperation operation => do
      let left ← machine.read mapped inst first
      let right ← machine.read mapped inst second
      let (result, flags) ← binaryOutcome (left.setWidth size.bits)
        (right.setWidth size.bits) (machine.flags .carry) operation
      let written ← machine.write mapped inst first (result.setWidth 64)
      return written.setFlags Flags.all flags
  | .unaryOperation operation => do
      let value ← machine.read mapped inst first
      let bits := value.setWidth size.bits
      let written ← machine.write mapped inst first
        ((operation.result bits).setWidth 64)
      return written.setFlags
        (InstructionClass.unaryOperation operation).declaredUpdate
        (operation.flags bits)
  | .comparable operation => do
      let left ← machine.read mapped inst first
      let right ← machine.read mapped inst second
      return machine.setFlags Flags.all
        (comparedFlags (left.setWidth size.bits) (right.setWidth size.bits)
          operation)
  | .clc => some (machine.setFlags Flags.carry fun _ => false)
  | .stc => some (machine.setFlags Flags.carry fun _ => true)
  | .nop => some machine
  | .mov => do
      let value ← machine.read mapped inst second
      machine.write mapped inst first value
  | .movzx | .movsx => do
      let value ← machine.read mapped inst second
      machine.write mapped inst first
        (extend (inst.instructionClass == .movsx)
          (value.setWidth second.size.bits) 64)
  | .lea => machine.write mapped inst first (machine.offset inst second)
  | .setcc condition =>
      machine.write mapped inst first (bit (condition.holds machine.flags))
  | .cmov condition => do
      let value ← machine.read mapped inst second
      let old ← machine.read mapped inst first
      machine.write mapped inst first
        (if condition.holds machine.flags then value else old)
  | .push => do
      let value ← machine.read mapped inst first
      let below := machine.registers stackRegister - 8
      let stored ← machine.store mapped below 8 value
      return stored.setRegister stackRegister below
  | .pop => do
      let stack := machine.registers stackRegister
      let value ← machine.load mapped stack 8
      (machine.setRegister stackRegister (stack + 8)).write mapped inst first
        value
  | _ => none

/-- What a step of the machine leaves as it is. -/
structure StepKeeps
    (inst : Instruction)
    (machine after : Machine) : Prop where
  flags : ∀ flag ∉ inst.instructionClass.declaredUpdate,
    after.flags flag = machine.flags flag
  fsBase : after.fsBase = machine.fsBase
  gsBase : after.gsBase = machine.gsBase

theorem Machine.SameFlags.stepKeeps
    {inst : Instruction}
    {machine written : Machine}
    (same : machine.SameFlags written) :
    StepKeeps inst machine written :=
  ⟨fun flag _ => congrFun same.flags flag, same.fsBase, same.gsBase⟩

/-- The declared flags get new values. -/
theorem Machine.SameFlags.setFlags
    {inst : Instruction}
    {machine written : Machine}
    (same : machine.SameFlags written)
    {changed : BitVec 8}
    (declared : inst.instructionClass.declaredUpdate = changed)
    (values : Flag -> Bool) :
    StepKeeps inst machine (written.setFlags changed values) where
  flags flag outside := by
    rw [declared] at outside
    exact (if_neg outside).trans (congrFun same.flags flag)
  fsBase := same.fsBase
  gsBase := same.gsBase

/-- An instruction changes the flags only that its class declares. -/
theorem perform_keeps
    {mapped : AddressSpace}
    {inst : Instruction}
    {machine after : Machine}
    (performs : perform mapped inst machine = some after) :
    StepKeeps inst machine after := by
  have own : machine.SameFlags machine := ⟨rfl, rfl, rfl⟩
  unfold perform at performs
  cases kind : inst.instructionClass <;>
    simp only [kind, Option.bind_eq_bind, Option.bind_eq_some_iff] at performs
  case binaryOperation operation =>
    obtain ⟨left, -, right, -, outcome, -, written, write, result⟩ := performs
    obtain rfl := Option.some.inj result
    exact (Machine.sameFlags_write write).setFlags (by rw [kind]; rfl) _
  case unaryOperation operation =>
    obtain ⟨value, -, written, write, result⟩ := performs
    obtain rfl := Option.some.inj result
    exact (Machine.sameFlags_write write).setFlags (by rw [kind]) _
  case comparable operation =>
    obtain ⟨left, -, right, -, result⟩ := performs
    obtain rfl := Option.some.inj result
    exact own.setFlags (by rw [kind]; rfl) _
  case clc | stc =>
    obtain rfl := Option.some.inj performs
    exact own.setFlags (by rw [kind]; rfl) _
  case nop =>
    obtain rfl := Option.some.inj performs
    exact own.stepKeeps
  case mov | movzx | movsx =>
    obtain ⟨value, -, write⟩ := performs
    exact (Machine.sameFlags_write write).stepKeeps
  case lea | setcc condition =>
    exact (Machine.sameFlags_write performs).stepKeeps
  case cmov condition =>
    obtain ⟨value, -, old, -, write⟩ := performs
    exact (Machine.sameFlags_write write).stepKeeps
  case push =>
    obtain ⟨value, -, stored, store, result⟩ := performs
    obtain rfl := Option.some.inj result
    have same := Machine.sameFlags_store store
    exact ⟨fun flag _ => congrFun same.flags flag, same.fsBase, same.gsBase⟩
  case pop =>
    obtain ⟨value, -, write⟩ := performs
    have same := Machine.sameFlags_write write
    exact ⟨fun flag _ => congrFun same.flags flag, same.fsBase, same.gsBase⟩
  all_goals cases performs

/-! ## Programs -/

/-- A machine and the address of its next instruction. -/
structure Configuration where
  pc : Word
  machine : Machine

/-- One step of the program in an image. -/
def step
    (decoder : Fadec.Decoder)
    (elf : Elf)
    (mapped : AddressSpace)
    (configuration : Configuration) : Option Configuration := do
  let pc := configuration.pc
  let machine := configuration.machine
  let inst ← instructionAt decoder elf pc
  match inst.instructionClass with
  | .jcc condition =>
      if condition.holds machine.flags then
        some ⟨inst.immediate, machine⟩
      else
        some ⟨inst.following pc, machine⟩
  | .jmp =>
      if (inst.getOperand 0).isImm then some ⟨inst.immediate, machine⟩ else none
  | _ =>
      (perform mapped inst machine).map fun after =>
        ⟨inst.following pc, after⟩

end Guest
end Oxtra

import Oxtra.CodeGenerator.Translate
import Oxtra.Instructions.Lengths

/-!
# Batches of host code

An instruction is translated into a batch, an array with room for so many host
instructions that the number of their bytes fits into a bit-field.  With a
debugger the batch gets a jump to it as well, and with one that steps through
the host code a jump in front of nearly every host instruction.
-/

namespace Oxtra

open RiscV
open Instruction (HostSymbols)

namespace CodeGenerator

/-! ## Adding host instructions -/

/-- `get_debugging`: there is no debugger, or one that stops at instructions of
the guest, or one that stops at host instructions too. -/
inductive Debugging where
  | off | guest | host
  deriving DecidableEq, Repr

/-- `Debugger::step_riscv` -/
def Debugging.stepRiscv : Debugging -> Bool
  | .host => true
  | _ => false

/-- A batch, with the words of its array that have been written. -/
structure CodeBatch where
  riscv : List (BitVec 32)
  inside : riscv.length ≤ maxRiscvInstructions

namespace CodeBatch

def count (batch : CodeBatch) : Nat := batch.riscv.length

/-- `reset` -/
def empty : CodeBatch where
  riscv := []
  inside := Nat.zero_le _

/-- The write of a word behind those that have been written.  It is nothing
behind the end of the array. -/
def put (batch : CodeBatch) (inst : BitVec 32) : Option CodeBatch :=
  if room : batch.count < maxRiscvInstructions then
    some
      { riscv := batch.riscv ++ [inst]
        inside := by
          rw [List.length_append]
          exact room }
  else
    none

/-- `CodeBatchImpl::add` -/
def addChecked (batch : CodeBatch) (inst : BitVec 32) :
    Except Fault CodeBatch :=
  match batch.put inst with
  | some after => .ok after
  | none => .error .batchOverflow

/-- The host instruction that jumps to an entry for the debugger. -/
def jumpDebugger (entry : JumpTable.Entry) : BitVec 32 :=
  (Encoding.jalr .ra Helper.jumpTableAddress entry.offset).encode

/-- `DebuggerBatch::add`, which does not look for the end of the array.  The
first words are the jump of the guest's instruction and the one it goes to. -/
def addDebugged (stepRiscv : Bool) (batch : CodeBatch) (inst : BitVec 32) :
    Option CodeBatch := do
  let batch <-
    if stepRiscv ∧ batch.count > 1 then
      batch.put (jumpDebugger .debugCallbackRiscv)
    else
      some batch
  batch.put inst

/-- `add` of the batch that the debugging mode asks for; nothing is a fault or
a write behind the end of the array. -/
def add (debugging : Debugging) (batch : CodeBatch) (inst : BitVec 32) :
    Option CodeBatch :=
  match debugging with
  | .off => (batch.addChecked inst).toOption
  | debugging => batch.addDebugged debugging.stepRiscv inst

/-- `Debugger::insert` into a batch that has been reset. -/
def start : Debugging -> Option CodeBatch
  | .off => some empty
  | debugging => empty.add debugging (jumpDebugger .debugCallback)

/-- The batch of an instruction, from the words that are added to it. -/
def fill (debugging : Debugging) (words : List (BitVec 32)) :
    Option CodeBatch := do
  let batch <- start debugging
  words.foldlM (add debugging) batch

/-! ## Room in the batch -/

theorem put_room
    {batch : CodeBatch}
    (room : batch.count < maxRiscvInstructions)
    (inst : BitVec 32) :
    ∃ after, batch.put inst = some after ∧ after.count = batch.count + 1 := by
  refine ⟨_, dif_pos room, ?_⟩
  rw [count, List.length_append]
  rfl

/-- A word needs room for itself and for a jump to the debugger. -/
theorem add_room
    (debugging : Debugging)
    {batch : CodeBatch}
    (room : batch.count + 2 ≤ maxRiscvInstructions)
    (inst : BitVec 32) :
    ∃ after, batch.add debugging inst = some after ∧
      after.count ≤ batch.count + 2 := by
  obtain ⟨single, put, one⟩ := put_room (by omega : batch.count < _) inst
  have debugged : ∀ stepRiscv, ∃ after,
      batch.addDebugged stepRiscv inst = some after ∧
        after.count ≤ batch.count + 2 := by
    intro stepRiscv
    by_cases steps : stepRiscv ∧ batch.count > 1
    · obtain ⟨jumped, jump, two⟩ := put_room (by omega : batch.count < _)
        (jumpDebugger .debugCallbackRiscv)
      obtain ⟨after, putBehind, behind⟩ :=
        put_room (by omega : jumped.count < _) inst
      refine ⟨after, ?_, by omega⟩
      simp only [addDebugged, if_pos steps, jump]
      exact putBehind
    · refine ⟨single, ?_, by omega⟩
      simp only [addDebugged, if_neg steps]
      exact put
  cases debugging with
  | off =>
      refine ⟨single, ?_, by omega⟩
      simp only [add, addChecked, put]
      rfl
  | guest => exact debugged false
  | host => exact debugged true

/-- Words need twice as much room, because of the jumps in front of them. -/
theorem foldlM_room
    (debugging : Debugging)
    {batch : CodeBatch}
    {words : List (BitVec 32)}
    (room : batch.count + 2 * words.length ≤ maxRiscvInstructions) :
    ∃ after, words.foldlM (add debugging) batch = some after := by
  induction words generalizing batch with
  | nil => exact ⟨batch, rfl⟩
  | cons inst rest inductionHypothesis =>
      rw [List.length_cons] at room
      obtain ⟨next, added, few⟩ :=
        add_room debugging (by omega : batch.count + 2 ≤ _) inst
      obtain ⟨after, folded⟩ :=
        inductionHypothesis (by omega : next.count + 2 * rest.length ≤ _)
      refine ⟨after, ?_⟩
      rw [List.foldlM_cons, added]
      exact folded

theorem start_room (debugging : Debugging) :
    ∃ batch, start debugging = some batch ∧ batch.count ≤ 2 := by
  cases debugging with
  | off => exact ⟨empty, rfl, by decide⟩
  | guest => exact add_room .guest (by decide : empty.count + 2 ≤ _) _
  | host => exact add_room .host (by decide : empty.count + 2 ≤ _) _

theorem fill_room
    (debugging : Debugging)
    {words : List (BitVec 32)}
    (few : 2 + 2 * words.length ≤ maxRiscvInstructions) :
    ∃ batch, fill debugging words = some batch := by
  obtain ⟨first, started, short⟩ := start_room debugging
  obtain ⟨batch, folded⟩ := foldlM_room debugging
    (by omega : first.count + 2 * words.length ≤ _)
  refine ⟨batch, ?_⟩
  rw [fill, started]
  exact folded

end CodeBatch

/-! ## Every translation fits -/

/-- What is appended when the next block has been translated. -/
def appended : Option Word -> List Inst
  | some riscvStart => farJump riscvStart
  | none => []

theorem appended_length (next : Option Word) : (appended next).length ≤ 9 := by
  cases next with
  | none => exact Nat.zero_le _
  | some riscvStart =>
      have loaded := Helper.length_loadImmediate_le riscvStart
        Helper.addressDestination
      rw [appended, farJump, List.length_append, List.length_singleton]
      omega

/-- The words of every instruction fit into a batch, with the jump to the next
block and the jumps to the debugger, and their bytes into the bit-field.  The
words are as many as the instructions that `generate` adds; the distances of
the branches among them depend on the debugger. -/
theorem CodeBatch.fill_generate
    {inst : Instruction}
    {symbols : HostSymbols}
    {entries : Nat}
    {code : List Inst}
    (generated : inst.generate symbols entries = some code)
    (debugging : Debugging)
    (next : Option Word)
    {words : List (BitVec 32)}
    (length : words.length = (code ++ appended next).length)
    (size : BitVec 8) :
    ∃ batch, fill debugging words = some batch ∧
      batch.count ≤ maxRiscvInstructions ∧
      (Addition.mk size batch.riscv).offset.riscv.toNat = 4 * batch.count := by
  have short := inst.generate_length symbols generated
  have few := appended_length next
  rw [List.length_append] at length
  obtain ⟨batch, filled⟩ := fill_room debugging
    (by rw [length, maxRiscvInstructions, maxRiscvInstructionsBits]; omega :
      2 + 2 * words.length ≤ maxRiscvInstructions)
  have inside := batch.inside
  refine ⟨batch, filled, inside, ?_⟩
  rw [maxRiscvInstructions, maxRiscvInstructionsBits] at inside
  simp only [Addition.offset, BitVec.toNat_ofNat, maxRiscvInstructionsBits,
    count]
  omega

/-- `shl qword [rax + 0x12345678], 5` -/
def shlMemory : Instruction :=
  (InstructionClass.binaryOperation .shl).construct
    { type := .shlImm
      operands := [.mem .qword (some 0), .imm .byte]
      displacement := 0x12345678
      immediate := 5 }

theorem CodeBatch.fill_generate_shlMemory :
    ∃ code, shlMemory.generate ⟨fun _ => 0, 0⟩ 0 = some code ∧
      ∃ batch, fill .host
          ((code ++ appended (some 0x123456789abcd000)).map Inst.encode) =
            some batch ∧
        batch.count ≤ maxRiscvInstructions ∧
        (Addition.mk 5 batch.riscv).offset.riscv.toNat = 4 * batch.count := by
  obtain ⟨code, generated⟩ : ∃ code,
      shlMemory.generate ⟨fun _ => 0, 0⟩ 0 = some code := ⟨_, rfl⟩
  exact ⟨code, generated, CodeBatch.fill_generate generated .host
    (some 0x123456789abcd000) (List.length_map _) 5⟩

/-- The batches of the translator never overflow. -/
theorem Translator.batch_fits
    (translator : Translator)
    {inst : Instruction}
    {symbols : HostSymbols}
    {entries : Nat}
    (generates : translator.generate inst = inst.generate symbols entries)
    (store : CodeStore)
    (addr : BitVec 64)
    (block : DecodedBlock) :
    translator.batch (translator.connection store addr block) inst ≠
      .error .batchOverflow := by
  have few : (translator.connection store addr block).length ≤ 9 := by
    rw [connection]
    split
    · split
      · exact appended_length (some _)
      · exact Nat.zero_le _
    · exact Nat.zero_le _
  rw [batch]
  cases generated : translator.generate inst with
  | none => simp
  | some code =>
      rw [generates] at generated
      have short := inst.generate_length symbols generated
      simp only []
      rw [if_neg]
      · simp
      · rw [List.length_append, maxRiscvInstructions,
          maxRiscvInstructionsBits]
        omega

end CodeGenerator

end Oxtra

import Oxtra.Instruction.Modifications
import Oxtra.Instructions.DirectLoads
import Oxtra.Instructions.RegisterOperations
import Oxtra.Library.Shifts

/-!
# Shifts by an immediate

The shifts are done on whole registers of 64 bits, by an amount below 64.  What
is above the operand in its register is shifted into it, and an amount for a
short operand is not reduced to five bits.
-/

namespace Oxtra

open RiscV
open Encoding
open Helper
open FlagInfo
open Instruction
open Fadec (Operand OperandSize)

/-! ## Shifts on x86 -/

namespace BinaryOperation

/-- The subclass for a shift. -/
def ofShift : ShiftDirection -> BinaryOperation
  | .left => shl
  | .right => shr
  | .arithmeticRight => sar

/-- A shift of a register as a whole. -/
theorem word_ofShift
    (direction : ShiftDirection)
    (first second : Word)
    (carry : Bool) :
    (ofShift direction).word first second carry =
      direction.result first (shiftAmount second) := by
  cases direction <;> rfl

end BinaryOperation

/-- The count of a shift on x86, which has six bits for operands of 64 bits and
five bits for the others. -/
def maskedCount (size : OperandSize) (count : Word) : Nat :=
  count.toNat % if size = .qword then 64 else 32

/-- The shift of the whole register is by the same number of places or by more
places than the operand has. -/
theorem shiftAmount_reduced (size : OperandSize) (count : Word) :
    shiftAmount count = maskedCount size count ∨
      size.bits ≤ shiftAmount count := by
  cases size with
  | qword => exact Or.inl rfl
  | _ =>
      simp only [shiftAmount, maskedCount, OperandSize.bits,
        OperandSize.bytes, reduceCtorEq, if_false]
      omega

namespace Instruction

variable (inst : Instruction)

/-! ## Operands -/

/-- The destination is a register, and the amount is an immediate of one
byte. -/
structure ShiftOperands : Prop extends inst.RegisterDestination where
  second : (inst.getOperand 1).isImm = true
  short : (inst.immediate.setWidth 8).signExtend 64 = inst.immediate

/-- The word that the destination is loaded as: its register, which is moved
down for a high byte, or the bytes from the memory. -/
def loadedWord (state : State) : Word :=
  match inst.getOperand 0 with
  | .reg _ register .gph => state.get (mapRegHigh register) >>> 8
  | .reg _ register .gpl => state.get (mapReg register)
  | .mem size base =>
      state.mem.load (inst.guestAddress (.mem size base) state) size.bytes
  | _ => 0

/-- The amount of a shift on x86. -/
def shiftCount : Nat := maskedCount inst.destinationSize inst.immediate

/-- The shift of the whole register is one of the operand, with the amount
that it has on x86. -/
def ShiftAgrees (direction : ShiftDirection) (state : State) : Prop :=
  direction.Agrees (inst.loadedWord state) inst.destinationSize.bits
    (shiftAmount inst.immediate) inst.shiftCount

/-- Some code leaves a result in the destination and keeps the other registers
of the guest.  If the flags are to be set, zero, sign and parity are those of
the result when they are evaluated behind it, wherever that is. -/
def ShiftsTo
    (runtime : JumpTable.Runtime)
    (env : Environment)
    (code : List Inst)
    (result : BitVec inst.destinationSize.bits)
    (flagged : Prop)
    (state : State) : Prop :=
  ∃ final, (JumpTable.dispatch runtime env).Exits code state (.ended final) ∧
    (∀ reg, final.get (mapReg reg) =
      writtenRegisters (inst.getOperand 0) (result.setWidth 64) state reg) ∧
    (flagged -> ∀ later : Environment, later.PermitsEverything ->
      ∀ flag, flag ≠ .carry -> flag ≠ .overflow ->
        Evaluates (JumpTable.dispatch runtime later) (evaluate flag) final
          (resultFlags result false false flag))

variable {inst}

/-- An immediate of one byte is in the instruction. -/
theorem smallImmediate_of_short
    (short : (inst.immediate.setWidth 8).signExtend 64 = inst.immediate) :
    inst.smallImmediate = true := by
  have lower := BitVec.le_toInt (inst.immediate.setWidth 8)
  have upper := BitVec.toInt_lt (x := inst.immediate.setWidth 8)
  have value : inst.immediate.toInt = (inst.immediate.setWidth 8).toInt := by
    rw [← BitVec.toInt_signExtend_of_le (by decide : 8 ≤ 64), short]
  have lowest : (-0x800 : BitVec 64).toInt = -0x800 := by decide
  have highest : (0x800 : BitVec 64).toInt = 0x800 := by decide
  rw [Instruction.smallImmediate, Bool.and_eq_true, BitVec.sle_iff_toInt_le,
    BitVec.slt_iff_toInt_lt]
  omega

section Shift

variable (form : inst.RegisterDestination)

include form

/-- The register that the operand is loaded into as a whole. -/
theorem RegisterDestination.firstLoadedWord (pc : Word) (state : State) :
    (applyAll pc state inst.translateFirst.code).get inst.workRegister =
      inst.loadedWord state := by
  have nonzero : Register.t0 ≠ .zero := by decide
  obtain ⟨eight, -, -, -, -⟩ := shift_amounts
  obtain ⟨size, number, type, first⟩ := form.destination
  have valid := form.firstValid
  rw [← form.firstValue]
  simp only [translateFirst, loadedWord, first]
  rw [first] at valid
  cases type with
  | gph =>
      have short : ¬ 4 ≤ size.bytes := by
        intro long
        exact absurd (low_of_valid valid long) (by decide)
      simp only [translateOperand, short, false_and, and_false, if_false,
        loadFromRegister, Bool.false_eq_true, RegisterAccess.ofType, if_true,
        applyAll_cons, applyAll_nil, apply_srli,
        State.set_get_self _ _ nonzero, mapRegType, eight]
  | gpl =>
      have low : RegisterAccess.ofType size .gpl ≠ .hbyte := by
        cases size <;> simp [RegisterAccess.ofType, RegisterAccess.ofSize]
      simp only [translateOperand, loadFromRegister, low, if_false,
        Bool.false_eq_true, not_false_eq_true, true_or, and_true, true_and,
        if_true, mapRegType]
      split
      · rfl
      · simp only [applyAll_cons, applyAll_nil, apply_mv,
          State.set_get_self _ _ nonzero]

/-- Behind the operation the destination is written and zero, sign and parity
are stored.  The code does the shift if and only if the operation leaves the
bits of its result. -/
theorem RegisterDestination.shiftsTo_iff
    {runtime : JumpTable.Runtime}
    {env : Environment}
    (permits : env.PermitsEverything)
    {state : State}
    (aligned : TableAligned state)
    (all : inst.updateFlags = Flags.all)
    {loading middle : List Inst}
    (loads : ComputesInto [.t2, .t0] loading)
    (updates : UpdatesFields [inst.workRegister, .t4] middle)
    {word : Word}
    (value : ∀ pc, (applyAll pc (applyAll env.origin state loading)
      middle).get inst.workRegister = word)
    (result : BitVec inst.destinationSize.bits)
    (flagged : Prop) :
    inst.ShiftsTo runtime env (loading ++ middle ++ inst.finish) result
        flagged state ↔
      word.setWidth inst.destinationSize.bits = result := by
  let shifted := env.shift loading.length
  have shiftedPermits :
      (JumpTable.dispatch runtime shifted).PermitsEverything := permits
  have exits := @Environment.exits_straight
    (JumpTable.dispatch runtime shifted) (applyAll env.origin state loading)
    middle updates.straight (shiftedPermits.permitsAll _ _)
  have kept : ∀ register,
      register ∉ inst.workRegister :: executionScratch ->
        (applyAll shifted.origin (applyAll env.origin state loading)
            middle).get register =
          (applyAll env.origin state loading).get register := by
    intro register outside
    apply updates.get
    simp only [executionScratch, List.mem_cons, List.not_mem_nil, or_false,
      not_or] at outside ⊢
    exact ⟨outside.1, outside.2.2.1⟩
  obtain ⟨final, whole, finished, table⟩ :=
    form.completes (Or.inr rfl) permits loads exits kept
  have finalAligned : TableAligned final := by
    rw [TableAligned, table]
    exact aligned
  have registers := finished.registers
  rw [show (JumpTable.dispatch runtime shifted).origin = shifted.origin
    from rfl, value] at registers
  have written : (∀ reg, final.get (mapReg reg) =
      writtenRegisters (inst.getOperand 0) (result.setWidth 64) state reg) ↔
        word.setWidth inst.destinationSize.bits = result := by
    have narrow : (result.setWidth 64).setWidth inst.destinationSize.bits =
        result :=
      (BitVec.setWidth_setWidth_of_le _ inst.destinationSize.bits_le).trans
        (BitVec.setWidth_eq _)
    simp only [registers]
    rw [writtenRegisters_eq_iff form.first form.firstValid]
    rw [show (inst.getOperand 0).size = inst.destinationSize from rfl, narrow]
  constructor
  · rintro ⟨other, otherExits, otherRegisters, -⟩
    have same : other = final := by
      simpa using otherExits.unique whole
    exact written.mp (same ▸ otherRegisters)
  · intro bits
    refine ⟨final, whole, written.mpr bits, ?_⟩
    intro _ later permitsLater flag notCarry notOverflow
    have contents := finished.fields
    rw [show (JumpTable.dispatch runtime shifted).origin = shifted.origin
      from rfl, value] at contents
    apply evaluates_of_evaluatedFlag permitsLater finalAligned
    rw [contents, ← bits]
    exact evaluatedFlag_result (mem_updateFlags all flag) notCarry
      notOverflow _ _ _ _ _

end Shift

end Instruction

/-! ## Shifts by an immediate -/

section Immediate

variable {inst : Instruction}

theorem Instruction.firstBits_loadedWord
    (destination : inst.RegisterDestination)
    (state : State) :
    inst.firstBits state =
      (inst.loadedWord state).setWidth inst.destinationSize.bits := by
  rw [← destination.firstLoadedWord 0 state]
  exact (destination.firstLoaded 0 state).symm

theorem Instruction.firstBits_memory
    {size : OperandSize}
    {base : Option Fadec.Register}
    (isMem : inst.getOperand 0 = .mem size base)
    (state : State) :
    inst.firstBits state =
      (inst.loadedWord state).setWidth inst.destinationSize.bits := by
  simp only [firstBits, operandBits, operandValue, loadedWord, isMem]

/-- The shift of the whole register. -/
theorem shift_result_iff
    (destination : inst.RegisterDestination)
    (direction : ShiftDirection)
    (state : State) :
    (direction.result (inst.loadedWord state)
        (shiftAmount inst.immediate)).setWidth inst.destinationSize.bits =
        direction.result (inst.firstBits state) inst.shiftCount ↔
      inst.ShiftAgrees direction state := by
  rw [firstBits_loadedWord destination]
  exact direction.setWidth_result_iff inst.destinationSize.bits_le
    (shiftAmount_reduced inst.destinationSize inst.immediate)

section Generate

variable (symbols : HostSymbols) (operands : inst.ShiftOperands)
variable (all : inst.updateFlags = Flags.all)
variable (direction : ShiftDirection) (runtime : JumpTable.Runtime)
variable {env : Environment} (permits : env.PermitsEverything)
variable {state : State} (aligned : TableAligned state)

include operands all permits aligned

/-- The code shifts the whole register. -/
theorem shiftImmediate_generate_iff
    (result : BitVec inst.destinationSize.bits)
    (flagged : Prop) :
    inst.ShiftsTo runtime env
        ((BinaryOperation.ofShift direction).generate symbols inst) result
        flagged state ↔
      (direction.result (inst.loadedWord state)
        (shiftAmount inst.immediate)).setWidth inst.destinationSize.bits =
          result := by
  have destination := operands.toRegisterDestination
  obtain ⟨work, workOutside⟩ := destination.workRegister_scratch
  have workNotTemp : inst.workRegister ≠ .t4 := by
    rintro same
    exact workOutside (same ▸ by decide)
  have evaluatesNothing : BinaryOperation.ofShift direction ≠ .adc := by
    cases direction <;> decide
  have immediate : inst.immediateSource = true := by
    rw [immediateSource, operands.second,
      smallImmediate_of_short operands.short]
    rfl
  have code : (BinaryOperation.ofShift direction).generate symbols inst =
      inst.translateFirst.code ++
        (BinaryOperation.ofShift direction).executeImmediate symbols inst
          inst.workRegister inst.immediate ++ inst.finish := by
    rw [BinaryOperation.generate_eq _ symbols destination,
      inst.translateSource_immediate immediate, BinaryOperation.execute,
      inst.translateSource_immediate immediate]
    simp
  rw [code]
  apply destination.shiftsTo_iff permits aligned all
    (destination.firstComputes.mono (by simp))
    (BinaryOperation.executeImmediate_updates symbols inst evaluatesNothing _)
  intro pc
  rw [BinaryOperation.executeImmediate_value symbols inst workNotTemp work.1
    evaluatesNothing (smallImmediate_of_short operands.short),
    BinaryOperation.word_ofShift,
    destination.firstLoadedWord]

/-- A shift by an immediate leaves the result of x86 in its destination, keeps
the other registers, and sets the flags if its amount is not zero, if and only
if the shift of the whole register is one of the operand. -/
theorem shiftImmediate_shiftsTo_iff :
    inst.ShiftsTo runtime env
        ((BinaryOperation.ofShift direction).generate symbols inst)
        (direction.result (inst.firstBits state) inst.shiftCount)
        (inst.shiftCount ≠ 0) state ↔
      inst.ShiftAgrees direction state := by
  rw [shiftImmediate_generate_iff symbols operands all direction runtime
    permits aligned]
  exact shift_result_iff operands.toRegisterDestination direction state

end Generate

end Immediate

/-- `shr al, immediate` -/
def shrAl (immediate : BitVec 64) : Instruction :=
  (InstructionClass.binaryOperation .shr).construct
    { type := .shrImm
      operands := [.reg .byte 0 .gpl, .imm .byte]
      immediate := immediate }

theorem shrAl_shiftOperands : (shrAl 1).ShiftOperands where
  first := rfl
  firstValid := rfl
  second := rfl
  short := by decide

/-- The lowest bit of the high byte is clear. -/
theorem shiftImmediate_shiftsTo_iff_shrAl :
    let state := zeroState.set (mapReg 0) 0x1285
    (shrAl 1).ShiftsTo (fun _ _ => none) Stub.environment
      ((BinaryOperation.ofShift .right).generate sampleSymbols (shrAl 1))
      (ShiftDirection.right.result ((shrAl 1).firstBits state)
        (shrAl 1).shiftCount)
      ((shrAl 1).shiftCount ≠ 0) state :=
  (shiftImmediate_shiftsTo_iff sampleSymbols shrAl_shiftOperands rfl .right _
    (fun _ _ => rfl) (by decide)).mpr
      ((shift_result_iff shrAl_shiftOperands.toRegisterDestination .right
        _).mp (by decide +kernel))

/-- The lowest bit of the high byte is set and the low byte is zero. -/
def highByteState : State := zeroState.set (mapReg 0) 0x100

/-- The bit of the high byte is shifted into the low byte. -/
theorem shrAl_bringsHighByte :
    ¬ (shrAl 1).ShiftsTo (fun _ _ => none) Stub.environment
      ((BinaryOperation.ofShift .right).generate sampleSymbols (shrAl 1))
      (ShiftDirection.right.result ((shrAl 1).firstBits highByteState)
        (shrAl 1).shiftCount)
      ((shrAl 1).shiftCount ≠ 0) highByteState := by
  rw [shiftImmediate_generate_iff sampleSymbols shrAl_shiftOperands rfl .right
    _ (fun _ _ => rfl) (by decide)]
  decide +kernel

end Oxtra

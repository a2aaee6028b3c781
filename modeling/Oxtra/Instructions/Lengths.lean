import Oxtra.Instruction.Lengths
import Oxtra.Instructions.Generate

/-!
# Lengths of the generated code

How many host instructions an instruction becomes, for any operands,
displacement, immediate and update set.  The longest code that the parts allow
for is that of a shift of an operand in the memory.
-/

namespace Oxtra

open RiscV
open Encoding
open Helper
open Instruction
open Fadec (Operand OperandSize)

variable (inst : Instruction) (symbols : HostSymbols)

/-! ## Operations on two operands -/

theorem Instruction.translateSource_length :
    inst.translateSource.code.length ≤ 16 := by
  unfold translateSource
  simp only []
  split
  · exact Nat.zero_le _
  · exact inst.translateOperand_length _ _ _ _ _ _ _

theorem Adc.executeRegister_length (dst src : Register) :
    (executeRegister inst dst src).length ≤ 14 := by
  simp only [executeRegister, evaluateCarry, JumpTable.jumpTableOffset,
    storeOverflow, storeCarry, addCarry, updateOverflowRegister,
    updateCarryRegister, OperationFields.storeRegister]
  grind

namespace BinaryOperation

theorem executeRegister_length
    (operation : BinaryOperation)
    (dst src : Register) :
    (operation.executeRegister symbols inst dst src).length ≤ 23 := by
  cases operation with
  | add =>
      simp only [executeRegister, Add.executeRegister, updateOverflow,
        updateCarry]
      grind [updateOperation_length]
  | adc =>
      simp only [executeRegister]
      grind [Adc.executeRegister_length]
  | sub =>
      simp only [executeRegister, Sub.executeRegister, updateOverflow,
        updateCarry]
      grind [updateOperation_length]
  | and | or | xor =>
      simp only [executeRegister, Logic.execute, Logic.clearFlags]
      grind [setCarry_length, setOverflow_length]
  | shl | shr | sar =>
      simp only [executeRegister, Shift.execute, updateOverflowUnsupported,
        updateCarryUnsupported]
      grind [updateUnsupported_length]

theorem executeImmediate_length
    (operation : BinaryOperation)
    (dst : Register)
    (imm : BitVec 64) :
    (operation.executeImmediate symbols inst dst imm).length ≤ 23 := by
  cases operation with
  | add =>
      simp only [executeImmediate, Add.executeImmediate, updateOverflow,
        updateCarry]
      grind [updateOperation_length]
  | adc =>
      simp only [executeImmediate, Adc.executeImmediate]
      grind [Adc.executeRegister_length]
  | sub =>
      simp only [executeImmediate, Sub.executeImmediate, updateOverflow,
        updateCarry]
      grind [updateOperation_length]
  | and | or | xor =>
      simp only [executeImmediate, Logic.execute, Logic.clearFlags]
      grind [setCarry_length, setOverflow_length]
  | shl | shr | sar =>
      simp only [executeImmediate, Shift.execute, updateOverflowUnsupported,
        updateCarryUnsupported]
      grind [updateUnsupported_length]

theorem generate_length (operation : BinaryOperation) :
    (operation.generate symbols inst).length ≤ 77 := by
  simp only [generate]
  grind [translateSource_length, translateOperand_length,
    executeRegister_length, executeImmediate_length, updateZero_length,
    updateSign_length, updateParity_length, translateDestination_length]

end BinaryOperation

/-! ## Other operations -/

theorem UnaryOperation.generate_length
    (operation : UnaryOperation) :
    (operation.generate inst).length ≤ 47 := by
  have executed : ∀ dst, (operation.execute inst dst).length ≤ 9 := by
    intro dst
    cases operation <;>
      simp only [execute, increment, negate, updateOverflow, updateCarry] <;>
      grind [updateOperation_length]
  simp only [generate]
  grind [translateOperand_length, updateZero_length, updateSign_length,
    updateParity_length, translateDestination_length]

theorem Comparable.generate_length (operation : Comparable) :
    (operation.generate inst).length ≤ 56 := by
  have register : ∀ dst src,
      (operation.executeRegister inst dst src).1.length ≤ 18 := by
    intro dst src
    cases operation <;>
      simp only [executeRegister, Cmp.executeRegister, Test.execute,
        Logic.execute, Logic.clearFlags, updateOverflow, updateCarry] <;>
      grind [updateOperation_length, setCarry_length, setOverflow_length]
  have immediate : ∀ dst imm,
      (operation.executeImmediate inst dst imm).1.length ≤ 18 := by
    intro dst imm
    cases operation <;>
      simp only [executeImmediate, Cmp.executeImmediate, Test.execute,
        Logic.execute, Logic.clearFlags, updateOverflow, updateCarry] <;>
      grind [updateOperation_length, setCarry_length, setOverflow_length]
  simp only [generate]
  grind [translateSource_length, translateOperand_length, updateZero_length,
    updateSign_length, updateParity_length]

theorem Mul.generate_length :
    (Mul.generate symbols inst).length ≤ 66 := by
  have loaded : (sources inst).1.code.length ≤ 16 ∧
      (sources inst).2.code.length ≤ 16 := by
    unfold sources translateFactor
    split <;> grind [translateOperand_length, loadFromRegister_length]
  have long : ∀ signed upper lower src1 src2,
      (multiplyLong signed upper lower src1 src2).length ≤ 3 := by
    intro signed upper lower src1 src2
    unfold multiplyLong
    grind
  have short : ∀ size upper lower src1 src2,
      (multiplyShort size upper lower src1 src2).length ≤ 12 := by
    intro size upper lower src1 src2
    unfold multiplyShort storeUpper
    grind [moveToRegister_length]
  simp only [generate, updateOverflowUnsupported, updateCarryUnsupported]
  grind [updateUnsupported_length]

theorem Idiv.generate_length :
    (Idiv.generate symbols inst).length ≤ 71 := by
  have raised : (raise symbols).length ≤ 9 := by
    have loaded := length_loadImmediate_le symbols.divisionException .t4
    simp only [raise, callHighLevel, JumpTable.jumpTableEntry]
    grind
  have dividend : ∀ size signed,
      (buildDividend size signed).length ≤ 6 := by
    intro size signed
    unfold buildDividend joinDividend
    grind [loadFromRegister_length]
  have checked : ∀ size, (checkOverflow symbols size).length ≤ 27 := by
    intro size
    unfold checkOverflow branchOver
    grind [length_loadImmediate_le]
  have stored : ∀ size, (storeResult size).length ≤ 10 := by
    intro size
    unfold storeResult
    grind [moveToRegister_length]
  simp only [generate, branchOver, divide]
  grind [translateOperand_length]

theorem ShiftCl.generate_length (operation : ShiftCl) :
    (operation.generate symbols inst).length ≤ 55 := by
  have executed : ∀ dst src,
      (operation.execute symbols inst dst src).length ≤ 23 := by
    intro dst src
    cases operation <;>
      simp only [execute, executeShift, Shift.execute,
        updateOverflowUnsupported, updateCarryUnsupported] <;>
      grind [updateUnsupported_length]
  unfold generate generateRegister
  grind [readFromMemory_length, writeToMemory_length, moveToRegister_length]

theorem Rotation.generate_length (operation : Rotation) :
    (operation.generate symbols inst).length ≤ 62 := by
  have rotated : ∀ reg, (operation.rotate inst reg).1.length ≤ 8 := by
    intro reg
    cases operation <;>
      simp only [rotate, RolImm.rotate, RolCl.rotate, RorImm.rotate,
        RorCl.rotate, combine, opposite, clearUpper] <;>
      cases inst.destinationSize <;> simp
  unfold generate generateRegister updateOverflowUnsupported
    updateCarryUnsupported
  grind [readFromMemory_length, writeToMemory_length, moveToRegister_length,
    updateUnsupported_length]

/-! ## Bits and moves -/

theorem readBitBase_length (temp : Register) :
    (readBitBase inst temp).1.length ≤ 16 := by
  unfold readBitBase
  split
  · exact Nat.zero_le _
  · exact inst.readFromMemory_length _ _ _ _

theorem BitTest.generate_length (operation : BitTest) :
    (operation.generate inst).length ≤ 41 := by
  have masked : (loadMask inst).length ≤ 2 := by
    unfold loadMask
    grind
  have manipulated : ∀ bitBase,
      (operation.manipulateBit bitBase).length ≤ 2 := by
    intro bitBase
    cases operation <;> simp [manipulateBit]
  simp only [generate, storeBit, updateCarryEntry]
  grind [readBitBase_length, writeToMemory_length]

theorem Bt.generate_length : (Bt.generate inst).length ≤ 21 := by
  simp only [generate, storeBit, updateCarryEntry]
  grind [readBitBase_length]

theorem signExtendRegister_length (dest src : Register) (size : OperandSize) :
    (signExtendRegister dest src size).length ≤ 2 := by
  cases size <;> simp [signExtendRegister]

theorem Mov.generate_length : (Mov.generate inst).length ≤ 32 := by
  unfold generate
  grind [translateOperand_length, translateDestination_length]

theorem Movsx.generate_length : (Movsx.generate inst).length ≤ 16 := by
  unfold generate
  grind [signExtendRegister_length, readFromMemory_length]

theorem Movzx.generate_length : (Movzx.generate inst).length ≤ 16 := by
  unfold generate
  grind [readFromMemory_length]

theorem Lea.generate_length : (Lea.generate inst).length ≤ 18 := by
  unfold generate
  grind [translateMemory_length, moveToRegister_length]

theorem Cex.generate_length : (Cex.generate inst).length ≤ 7 := by
  unfold generate
  grind [signExtendRegister_length, moveToRegister_length]

theorem CSep.generate_length : (CSep.generate inst).length ≤ 7 := by
  unfold generate
  grind [moveToRegister_length]

theorem Push.generate_length : (Push.generate inst).length ≤ 18 := by
  unfold generate storeValue
  grind [translateOperand_length]

theorem Pop.generate_length : (Pop.generate inst).length ≤ 16 := by
  unfold generate popRegister popMemory
  grind [translateMemory_length, moveToRegister_length]

/-! ## Conditions -/

theorem Setcc.generate_length (condition : Condition) :
    (Setcc.generate inst condition).length ≤ 28 := by
  have evaluated : (evaluate condition).1.length ≤ 12 := by
    cases condition <;> decide
  have stored : ∀ reg, (setValue inst reg).length ≤ 16 := by
    intro reg
    unfold setValue
    grind [moveToRegister_length, writeToMemory_length]
  simp only [generate]
  grind

theorem Cmov.generateMove_length : (generateMove inst).length ≤ 21 := by
  unfold generateMove
  grind [readFromMemory_length, moveToRegister_length]

theorem Cmov.generate_length (condition : Condition) :
    (Cmov.generate inst condition).length ≤ 36 := by
  have executed : ∀ move : List Inst,
      (execute move condition).length ≤ move.length + 13 := by
    intro move
    cases condition <;>
      simp [execute, branchOver, evaluateZero, evaluateSign, evaluateParity,
        evaluateCarry, evaluateOverflow, JumpTable.jumpTableOffset]
  unfold generate
  grind [generateMove_length]

theorem Jcc.generateJump_length : (generateJump inst).length ≤ 18 := by
  have loaded := inst.translateOperand_length (inst.getOperand 0)
    addressDestination .t0 true false false false
  unfold generateJump
  simp only []
  split
  · simp [appendEob, loadAddress, JumpTable.jumpTableEntry]
  · simp only [appendEobRegister, JumpTable.jumpTableEntry, ne_eq,
      not_true_eq_false, if_false, List.length_append, List.length_cons,
      List.length_nil]
    omega

theorem Jcc.generate_length (condition : Condition) :
    (Jcc.generate inst condition).length ≤ 31 := by
  have executed : ∀ jump : List Inst,
      (execute jump condition).length ≤ jump.length + 13 := by
    intro jump
    cases condition <;>
      simp [execute, jumpOrBack, branchOver, evaluateZero, evaluateSign,
        evaluateParity, evaluateCarry, evaluateOverflow,
        JumpTable.jumpTableOffset]
  unfold generate
  grind [generateJump_length]

theorem Jcxz.generate_length : (Jcxz.generate inst).length ≤ 21 := by
  unfold generate branchOver
  grind [Jcc.generateJump_length]

theorem Call.generate_length (entries : Nat) :
    (Call.generate entries inst).length ≤ 33 := by
  simp only [generate, Jmp.generate, pushOffset, pushReturnAddress]
  grind [Jcc.generateJump_length, length_loadImmediate_le]

theorem Ret.generate_length (immediate : BitVec 64) :
    (Ret.generate immediate).length ≤ 25 := by
  unfold generate popReturnAddress popOffset loadEntry enterEntry branchOver
    appendEobRegister JumpTable.jumpTableEntry
  grind [length_loadImmediate_le]

/-! ## String operations -/

theorem Repeatable.generate_length
    (operation : Repeatable)
    {code : List Inst}
    (generated : operation.generate inst = some code) :
    code.length ≤ 10 := by
  have executed : ∀ size, (operation.execute size).length ≤ 7 := by
    intro size
    cases operation <;> cases size <;>
      simp [execute, lodsOperation, movsOperation, stosOperation] <;>
      grind [moveToRegister_length]
  unfold generate repeated branchOver at generated
  grind

theorem RepeatableFlag.generate_length
    (operation : RepeatableFlag)
    {code : List Inst}
    (generated : operation.generate inst = some code) :
    code.length ≤ 25 := by
  have executed : ∀ size, (operation.execute size).length ≤ 5 := by
    intro size
    cases operation <;> simp [execute, cmpsOperation, scasOperation]
  have updated : (updateFlags inst).length ≤ 14 := by
    simp only [updateFlags, updateCarry, updateOverflow]
    grind [updateZero_length, updateSign_length, updateParity_length,
      updateOperation_length]
  have looped : ∀ code, generateFlag inst (operation.execute inst.operandSize) =
      some code -> code.length ≤ 23 := by
    intro code whole
    unfold generateFlag generateLoop loop branchOver at whole
    grind
  cases operation with
  | cmps => exact (looped code generated).trans (by decide)
  | scas =>
      have loaded := loadFromRegister_length rax
        (RegisterAccess.ofSize inst.operandSize) dstReg false true false
      obtain ⟨tail, whole, rfl⟩ := Option.map_eq_some_iff.mp generated
      have short := looped tail whole
      rw [List.length_append]
      omega

/-! ## Every class -/

/-- No instruction becomes more host instructions than a shift can. -/
theorem Instruction.generate_length
    {entries : Nat}
    {code : List Inst}
    (generated : inst.generate symbols entries = some code) :
    code.length ≤ 77 := by
  have syscall : (Syscall.generate inst).length ≤ 10 := by
    simp [Syscall.generate, JumpTable.jumpTableEntry, appendEob, loadAddress]
  have unsupported : (UnsupportedInstruction.generate inst).length ≤ 9 := by
    have loaded := length_loadImmediate_le inst.address .a0
    simp only [UnsupportedInstruction.generate, JumpTable.jumpTableEntry,
      List.length_append, List.length_cons, List.length_nil]
    omega
  have bounded : ∀ {short : List Inst} {bound : Nat}, short.length ≤ bound ->
      bound ≤ 77 -> some short = some code -> code.length ≤ 77 := by
    intro short bound few below same
    cases same
    exact few.trans below
  unfold generate at generated
  cases found : inst.instructionClass <;> rw [found] at generated
  case repeatable operation =>
    exact (Repeatable.generate_length inst operation generated).trans
      (by decide)
  case repeatableFlag operation =>
    exact (RepeatableFlag.generate_length inst operation generated).trans
      (by decide)
  case binaryOperation operation =>
    exact bounded (operation.generate_length inst symbols) (by decide) generated
  case unaryOperation operation =>
    exact bounded (operation.generate_length inst) (by decide) generated
  case comparable operation =>
    exact bounded (operation.generate_length inst) (by decide) generated
  case mul =>
    exact bounded (Mul.generate_length inst symbols) (by decide) generated
  case idiv =>
    exact bounded (Idiv.generate_length inst symbols) (by decide) generated
  case shiftCl operation =>
    exact bounded (operation.generate_length inst symbols) (by decide) generated
  case rotation operation =>
    exact bounded (operation.generate_length inst symbols) (by decide) generated
  case bt => exact bounded (Bt.generate_length inst) (by decide) generated
  case bitTest operation =>
    exact bounded (operation.generate_length inst) (by decide) generated
  case clc =>
    exact bounded (inst.setCarry_length false .t4) (by decide) generated
  case stc =>
    exact bounded (inst.setCarry_length true .t4) (by decide) generated
  case mov => exact bounded (Mov.generate_length inst) (by decide) generated
  case movsx => exact bounded (Movsx.generate_length inst) (by decide) generated
  case movzx => exact bounded (Movzx.generate_length inst) (by decide) generated
  case lea => exact bounded (Lea.generate_length inst) (by decide) generated
  case leave =>
    exact bounded (Nat.le_refl Leave.generate.length) (by decide) generated
  case push => exact bounded (Push.generate_length inst) (by decide) generated
  case pop => exact bounded (Pop.generate_length inst) (by decide) generated
  case cex => exact bounded (Cex.generate_length inst) (by decide) generated
  case csep => exact bounded (CSep.generate_length inst) (by decide) generated
  case nop =>
    exact bounded (Nat.le_refl Nop.generate.length) (by decide) generated
  case setcc condition =>
    exact bounded (Setcc.generate_length inst condition) (by decide) generated
  case cmov condition =>
    exact bounded (Cmov.generate_length inst condition) (by decide) generated
  case jcc condition =>
    exact bounded (Jcc.generate_length inst condition) (by decide) generated
  case jcxz => exact bounded (Jcxz.generate_length inst) (by decide) generated
  case jmp => exact bounded (Jcc.generateJump_length inst) (by decide) generated
  case call =>
    exact bounded (Call.generate_length inst entries) (by decide) generated
  case ret =>
    exact bounded (Ret.generate_length inst.immediate) (by decide) generated
  case syscall => exact bounded syscall (by decide) generated
  case unsupported => exact bounded unsupported (by decide) generated

end Oxtra

import Oxtra.Instruction.FieldSparing
import Oxtra.Instructions.Execution
import Oxtra.Instructions.Generate

/-!
# Fields that instructions spare

The code of an instruction does not write the fields of a flag that its class
does not declare.  The class of `NOT` is an exception: the code that it shares
with other classes updates every flag of the update set.
-/

namespace Oxtra

open RiscV
open Encoding
open Helper
open FlagInfo
open Fadec (Operand OperandSize)

section Sparing

variable {field : Field} (inst : Instruction)

attribute [local simp] add addi addw sub Encoding.and Encoding.or Encoding.xor
  andi xori sltiu sltu srl sll srlw sllw slli srli srai slliw srliw seqz snez mv
  Encoding.not ld lbu lhu lwu lh lw lb load opImm shift shiftW beq Encoding.bne
  btype beqz bnqz jalr lui

/-! ## Evaluation and jumps -/

theorem evaluateCarry_spares :
    SparesField field Instruction.evaluateCarry := by
  simp [Instruction.evaluateCarry, JumpTable.jumpTableOffset]

theorem evaluateOverflow_spares :
    SparesField field Instruction.evaluateOverflow := by
  simp [Instruction.evaluateOverflow, JumpTable.jumpTableOffset]

theorem evaluateZero_spares
    {dest : Register}
    (free : Free dest) :
    SparesField field (Instruction.evaluateZero dest) := by
  simp [Instruction.evaluateZero, free]

theorem evaluateSign_spares
    {dest temp : Register}
    (free : Free dest)
    (tempFree : Free temp) :
    SparesField field (Instruction.evaluateSign dest temp) := by
  simp [Instruction.evaluateSign, free, tempFree]

theorem evaluateParity_spares
    {dest temp : Register}
    (free : Free dest)
    (tempFree : Free temp) :
    SparesField field (Instruction.evaluateParity dest temp) := by
  simp [Instruction.evaluateParity, free, tempFree]

theorem jumpTableEntry_spares (entry : JumpTable.Entry) :
    SparesField field (JumpTable.jumpTableEntry entry) := by
  simp [JumpTable.jumpTableEntry]

theorem loadImmediate_spares
    (imm : BitVec 64)
    {dest : Register}
    (free : Free dest) :
    SparesField field (loadImmediate imm dest) :=
  SparesField.computes (loadImmediate_computesInto imm dest) (by simpa)

/-- A branch in front of some code or behind it. -/
theorem branchOver_spares
    {branch : BitVec 32 -> Inst}
    (spares : ∀ offset, (branch offset).spares field.region = true)
    {code : List Inst}
    (codeSpares : SparesField field code) :
    SparesField field (branchOver branch code) :=
  Spares.cons_iff.mpr ⟨spares _, codeSpares⟩

theorem appendEob_spares (ptr : BitVec 64) :
    SparesField field (appendEob ptr) := by
  simp [appendEob, loadAddress, jumpTableEntry_spares, addressDestination]

theorem appendEobRegister_spares (reg : Register) :
    SparesField field (appendEobRegister reg) := by
  rw [appendEobRegister]
  split <;> simp [jumpTableEntry_spares, addressDestination]

theorem generateJump_spares :
    SparesField field (Jcc.generateJump inst) := by
  rw [Jcc.generateJump]
  split
  · exact appendEob_spares _
  · exact Spares.append_iff.mpr
      ⟨translateOperand_spares inst _ (by decide) (by decide) _ _ _ _,
        appendEobRegister_spares _⟩

/-! ## Conditions -/

/-- The branch of the conditional instructions. -/
theorem bnqz_spares (rs : Register) (offset : BitVec 32) :
    (bnqz rs offset).spares field.region = true := rfl

theorem Jcc.execute_spares
    {jump : List Inst}
    (spares : SparesField field jump)
    (condition : Condition) :
    SparesField field (Jcc.execute jump condition) := by
  cases condition <;>
    simp [Jcc.execute, Jcc.jumpOrBack, branchOver, branchBack, spares,
      evaluateCarry_spares, evaluateOverflow_spares, evaluateZero_spares,
      evaluateSign_spares, evaluateParity_spares]

theorem Cmov.execute_spares
    {move : List Inst}
    (spares : SparesField field move)
    (condition : Condition) :
    SparesField field (Cmov.execute move condition) := by
  cases condition <;>
    simp [Cmov.execute, Cmov.skip, branchOver, spares, evaluateCarry_spares,
      evaluateOverflow_spares, evaluateZero_spares, evaluateSign_spares,
      evaluateParity_spares]

theorem Setcc.evaluate_spares (condition : Condition) :
    SparesField field (Setcc.evaluate condition).1 := by
  cases condition <;>
    simp [Setcc.evaluate, evaluateCarry_spares, evaluateOverflow_spares,
      evaluateZero_spares, evaluateSign_spares, evaluateParity_spares]

theorem Setcc.setValue_spares (reg : Register) :
    SparesField field (Setcc.setValue inst reg) := by
  rw [Setcc.setValue]
  split
  · exact moveToRegister_spares (free_mapRegType _ _) _ _ (by decide) _
  · exact writeToMemory_spares inst _ _ (by decide) (by decide) (by decide)

theorem firstRegister_free : Free inst.firstRegister := by
  unfold Instruction.firstRegister
  split
  · exact free_mapReg _
  · exact (by decide : Free rax)

theorem Cmov.generateMove_spares :
    SparesField field (Cmov.generateMove inst) := by
  have first := firstRegister_free inst
  unfold Cmov.generateMove
  simp only
  split
  · split
    · exact Spares.append_iff.mpr
        ⟨readFromMemory_spares inst _ (by decide) (by decide) _,
          moveToRegister_spares first _ _ (by decide) _⟩
    · exact readFromMemory_spares inst _ first (by decide) _
  · exact moveToRegister_spares first _ _ (by decide) _
  all_goals exact Spares.nil

theorem Cmov.generate_spares (condition : Condition) :
    SparesField field (Cmov.generate inst condition) := by
  have first := firstRegister_free inst
  rw [Cmov.generate]
  refine Spares.append_iff.mpr
    ⟨?_, Cmov.execute_spares (Cmov.generateMove_spares inst) condition⟩
  split <;> simp [first]

/-! ## Moves -/

theorem signExtendRegister_spares
    {dest : Register}
    (free : Free dest)
    (src : Register)
    (size : OperandSize) :
    SparesField field (signExtendRegister dest src size) := by
  cases size <;> simp [signExtendRegister, free]

theorem Mov.generate_spares : SparesField field (Mov.generate inst) := by
  unfold Mov.generate
  simp only
  split
  · exact translateOperand_spares inst _ (free_mapReg _) (by decide) _ _ _ _
  · refine Spares.append_iff.mpr
      ⟨translateOperand_spares inst _ (free_mapReg _) (by decide) _ _ _ _, ?_⟩
    split <;> simp
  · exact Spares.append_iff.mpr
      ⟨translateOperand_spares inst _ (by decide) (by decide) _ _ _ _,
        translateDestination_spares inst _ (by decide) (by decide)
          (by decide)⟩

theorem Movsx.generate_spares : SparesField field (Movsx.generate inst) := by
  have first := firstRegister_free inst
  unfold Movsx.generate
  simp only
  split
  · simp [first]
  · exact signExtendRegister_spares first _ _
  · exact readFromMemory_spares inst _ first (by decide) _

theorem Movzx.generate_spares : SparesField field (Movzx.generate inst) := by
  have first := firstRegister_free inst
  unfold Movzx.generate
  simp only
  split
  · simp [first]
  · exact readFromMemory_spares inst _ first (by decide) _

theorem translateMemory_spares
    (op : Operand)
    {dst temp : Register}
    (free : Free dst)
    (tempFree : Free temp)
    (forceDst : Bool) :
    SparesField field (inst.translateMemory op dst temp forceDst).1 :=
  SparesField.computes (inst.translateMemory_computesInto op forceDst)
    (by simp [free, tempFree])

theorem Lea.generate_spares : SparesField field (Lea.generate inst) := by
  have first := firstRegister_free inst
  unfold Lea.generate
  simp only
  split
  · exact translateMemory_spares inst _ first (by decide) _
  · refine Spares.append_iff.mpr
      ⟨translateMemory_spares inst _ first (by decide) _, ?_⟩
    split <;> simp [first]
  · exact Spares.append_iff.mpr
      ⟨translateMemory_spares inst _ (by decide) (by decide) _,
        moveToRegister_spares first _ _ (by decide) _⟩

theorem Cex.generate_spares : SparesField field (Cex.generate inst) := by
  unfold Cex.generate
  split
  · exact signExtendRegister_spares (by decide) _ _
  · exact Spares.append_iff.mpr
      ⟨signExtendRegister_spares (by decide) _ _,
        moveToRegister_spares (by decide) _ _ (by decide) _⟩

theorem CSep.generate_spares : SparesField field (CSep.generate inst) := by
  unfold CSep.generate
  split
  · simp [rdx]
  · exact Spares.append_iff.mpr
      ⟨by simp, moveToRegister_spares (by decide) _ _ (by decide) _⟩

/-! ## The stack -/

theorem Leave.generate_spares : SparesField field Leave.generate := by
  simp [Leave.generate, rsp, rbp]

theorem Push.generate_spares : SparesField field (Push.generate inst) := by
  have value := @translateOperand_spares field inst (inst.getOperand 0) .t0
    .t1 (by decide) (by decide) false false false false
  unfold Push.generate
  refine Spares.cons_iff.mpr ⟨by simp [rsp], Spares.append_iff.mpr
    ⟨value, ?_⟩⟩
  unfold Push.storeValue
  split
  case h_4 => exact Spares.nil
  all_goals
    exact Spares.cons_iff.mpr
      ⟨spares_store _ (by decide : Free rsp) _ _, Spares.nil⟩

theorem Pop.popRegister_spares
    (size : OperandSize)
    {dest : Register}
    (free : Free dest) :
    SparesField field (Pop.popRegister size dest) := by
  cases size
  case byte => exact Spares.nil
  case qword => simp [Pop.popRegister, free]
  all_goals
    exact Spares.cons_iff.mpr
      ⟨by simp, moveToRegister_spares free _ _ (by decide) _⟩

theorem Pop.popMemory_spares
    (size : OperandSize)
    {address : Register}
    (free : Free address) :
    SparesField field (Pop.popMemory size address) := by
  cases size
  case byte => exact Spares.nil
  all_goals
    exact Spares.cons_iff.mpr ⟨by simp,
      Spares.cons_iff.mpr ⟨spares_store _ free _ _, Spares.nil⟩⟩

theorem Pop.generate_spares : SparesField field (Pop.generate inst) := by
  unfold Pop.generate
  refine Spares.append_iff.mpr ⟨?_, by simp [rsp]⟩
  cases operand : inst.getOperand 0 with
  | reg size register type => exact Pop.popRegister_spares size (free_mapReg _)
  | mem size base =>
      exact Spares.append_iff.mpr
        ⟨translateMemory_spares inst _ (by decide) (by decide) _,
          Pop.popMemory_spares size
            (translateMemory_free inst _ (by decide) (by decide))⟩
  | _ => exact Spares.nil

/-! ## Calls and returns -/

theorem Call.generate_spares (entries : Nat) :
    SparesField field (Call.generate entries inst) := by
  have offset : SparesField field (Call.pushOffset (Call.tableOffset entries)) :=
    Spares.append_iff.mpr ⟨loadImmediate_spares _ (by decide),
      Spares.cons_iff.mpr ⟨spares_store _ (by decide : Free returnStack) _ _,
        by simp [returnStack]⟩⟩
  have address : SparesField field
      (Call.pushReturnAddress (Call.tableOffset entries)) := by
    refine Spares.append_iff.mpr ⟨by split <;> simp, ?_⟩
    exact Spares.cons_iff.mpr ⟨by simp [rsp], Spares.cons_iff.mpr
      ⟨spares_store _ (by decide : Free rsp) _ _, Spares.nil⟩⟩
  exact Spares.append_iff.mpr
    ⟨Spares.append_iff.mpr ⟨offset, address⟩, generateJump_spares inst⟩

theorem Ret.generate_spares (immediate : BitVec 64) :
    SparesField field (Ret.generate immediate) := by
  have address : SparesField field (Ret.popReturnAddress immediate) := by
    unfold Ret.popReturnAddress
    refine Spares.cons_iff.mpr ⟨by simp [addressDestination], ?_⟩
    split
    · simp [rsp]
    · exact Spares.append_iff.mpr
        ⟨loadImmediate_spares _ (by decide), by simp [rsp]⟩
  simp [Ret.generate, address, Ret.popOffset, Ret.loadEntry, Ret.enterEntry,
    branchOver, appendEobRegister_spares, jumpTableEntry_spares, returnStack]

/-! ## String instructions -/

theorem Repeatable.execute_spares
    (size : OperandSize)
    (operation : Repeatable) :
    SparesField field (operation.execute size) := by
  have store (value : Register) :=
    @storeOperand_spares field size rdi (by decide) value 0
  have load := @loadOperand_spares field size false .t4 (by decide) rsi 0
  have advances (pointer : Register) (free : Free pointer) :
      (advance pointer size).spares field.region = true := by
    simp [advance, free]
  have source := advances rsi (by decide)
  have destination := advances rdi (by decide)
  cases operation with
  | lods =>
      change SparesField field (Repeatable.lodsOperation size)
      cases size
      case qword => simp [Repeatable.lodsOperation, rax, rsi]
      all_goals
        exact Spares.cons_iff.mpr ⟨load, Spares.append_iff.mpr
          ⟨moveToRegister_spares (by decide) _ _ (by decide) _,
            Spares.cons_iff.mpr ⟨source, Spares.nil⟩⟩⟩
  | movs =>
      exact Spares.cons_iff.mpr ⟨load, Spares.cons_iff.mpr ⟨store .t4,
        Spares.cons_iff.mpr ⟨source, Spares.cons_iff.mpr
          ⟨destination, Spares.nil⟩⟩⟩⟩
  | stos =>
      exact Spares.cons_iff.mpr ⟨store rax,
        Spares.cons_iff.mpr ⟨destination, Spares.nil⟩⟩

theorem Repeatable.generate_spares
    {operation : Repeatable}
    {code : List Inst}
    (generated : operation.generate inst = some code) :
    SparesField field code := by
  have operates := @Repeatable.execute_spares field inst.operandSize operation
  unfold Repeatable.generate at generated
  split at generated
  · cases generated
  · split at generated
    · cases generated
      simp [Repeatable.repeated, branchOver, branchBack, operates, rcx]
    · cases generated
      exact operates

/-! ## Rotations and bit tests -/

/-- A rotation leaves its result in the operand or in a temporary. -/
theorem Rotation.rotate_spares
    (operation : Rotation)
    {reg : Register}
    (free : Free reg) :
    SparesField field (operation.rotate inst reg).1 := by
  cases operation <;> cases size : inst.destinationSize <;>
    simp [Rotation.rotate, Rotation.RolImm.rotate, Rotation.RolCl.rotate,
      Rotation.RorImm.rotate, Rotation.RorCl.rotate, Rotation.combine,
      Rotation.clearUpper, Rotation.opposite, size, free]

theorem Rotation.generate_spares
    (symbols : Instruction.HostSymbols)
    (operation : Rotation)
    (otherCarry : Flag.carry ≠ field.flag)
    (otherOverflow : Flag.overflow ≠ field.flag) :
    SparesField field (operation.generate symbols inst) := by
  have rotates (reg : Register) (free : Free reg) :=
    @rotate_spares field inst operation reg free
  have carry := @updateCarryUnsupported_spares field inst .t0 (by decide)
    otherCarry (symbols.text "Rotation")
  have overflow := @updateOverflowUnsupported_spares field inst .t0
    (by decide) otherOverflow (symbols.text "Rotation")
  refine Spares.append_iff.mpr ⟨Spares.append_iff.mpr ⟨?_, carry⟩, overflow⟩
  cases operand : inst.getOperand 0 with
  | mem size base =>
      have address := readFromMemory_free inst (.mem size base)
        (by decide : Free .t0) (by decide : Free .t6) false
      exact Spares.append_iff.mpr ⟨Spares.append_iff.mpr
        ⟨readFromMemory_spares inst _ (by decide) (by decide) _,
          rotates .t0 (by decide)⟩,
        writeToMemory_spares inst _ _ (by decide) (by decide) address⟩
  | reg size register type =>
      cases type with
      | gph =>
          exact Spares.cons_iff.mpr ⟨by simp, Spares.append_iff.mpr
            ⟨rotates .t0 (by decide),
              moveToRegister_spares (free_mapReg _) _ _ (by decide) _⟩⟩
      | gpl =>
          exact Spares.append_iff.mpr ⟨rotates _ (free_mapReg _),
            moveToRegister_spares (free_mapReg _) _ _ (by decide) _⟩
  | _ => exact Spares.nil

theorem readBitBase_spares
    {temp : Register}
    (free : Free temp) :
    SparesField field (readBitBase inst temp).1 := by
  unfold readBitBase
  split
  · exact Spares.nil
  · exact readFromMemory_spares inst _ (by decide) free _

theorem bitBaseRegister_free (op : Operand) : Free (bitBaseRegister op) := by
  cases op <;> first | exact free_mapReg _ | exact (by decide : Free .t0)

theorem storeBit_spares
    (other : Flag.carry ≠ field.flag)
    {bitValue : Register}
    (free : Free bitValue) :
    SparesField field (storeBit bitValue) :=
  Spares.append_iff.mpr
    ⟨by simp [free], updateCarryEntry_spares other bitValue⟩

theorem Bt.generate_spares (other : Flag.carry ≠ field.flag) :
    SparesField field (Bt.generate inst) := by
  unfold Bt.generate
  refine Spares.append_iff.mpr ⟨Spares.append_iff.mpr
    ⟨readBitBase_spares inst (by decide), ?_⟩, ?_⟩
  · split <;> simp
  · exact Spares.cons_iff.mpr
      ⟨by simp, storeBit_spares other (by decide)⟩

theorem BitTest.generate_spares
    (other : Flag.carry ≠ field.flag)
    (operation : BitTest) :
    SparesField field (operation.generate inst) := by
  have base := bitBaseRegister_free (inst.getOperand 0)
  have read := @readBitBase_spares field inst .t3 (by decide)
  have bit := @storeBit_spares field other bitValueReg (by decide)
  have address : Free (readBitBase inst .t3).2 := by
    unfold readBitBase
    split
    · decide
    · exact readFromMemory_free inst _ (by decide) (by decide) _
  have mask : SparesField field (loadMask inst) := by
    unfold loadMask
    simp only
    repeat' split
    all_goals simp [maskReg]
  have manipulate : SparesField field
      (operation.manipulateBit (bitBaseRegister (inst.getOperand 0))) := by
    cases operation <;> simp [manipulateBit, base, maskReg]
  have write : SparesField field
      (if (inst.getOperand 0).isMem then
        inst.writeToMemory (inst.getOperand 0)
          (bitBaseRegister (inst.getOperand 0)) .t1 .t2
          (readBitBase inst .t3).2
      else
        []) := by
    split
    · exact writeToMemory_spares inst _ _ (by decide) (by decide) address
    · exact Spares.nil
  have test : SparesField field
      [Encoding.and bitValueReg (bitBaseRegister (inst.getOperand 0)) maskReg,
        snez bitValueReg bitValueReg] := by
    simp [bitValueReg]
  unfold BitTest.generate
  simp only [Spares.append_iff]
  exact ⟨⟨⟨⟨⟨read, mask⟩, test⟩, bit⟩, manipulate⟩, write⟩

/-! ## Operations on one operand -/

/-- The updates that the operations share touch the zero, sign and parity flag
of the update set. -/
theorem resultUpdates_spares
    (notUpdated : field.flag ≠ .carry -> field.flag ≠ .overflow ->
      field.flag ∉ inst.updateFlags)
    (va : Register)
    (size : OperandSize)
    {temp : Register}
    (free : Free temp) :
    SparesField field (inst.resultUpdates va size temp) := by
  have absent {flag : Flag} (notCarry : flag ≠ .carry)
      (notOverflow : flag ≠ .overflow) (same : field.flag = flag) :
      field.flag ∉ inst.updateFlags :=
    notUpdated (same ▸ notCarry) (same ▸ notOverflow)
  refine Spares.append_iff.mpr ⟨Spares.append_iff.mpr ⟨?_, ?_⟩, ?_⟩
  · by_cases same : Flag.zero = field.flag
    · have empty : inst.updateZero va size = [] :=
        if_neg (same ▸ absent (by decide) (by decide) same.symm)
      rw [empty]
      exact Spares.nil
    · exact updateZero_spares inst same va size
  · by_cases same : Flag.sign = field.flag
    · have empty : inst.updateSign va size temp = [] :=
        if_neg (same ▸ absent (by decide) (by decide) same.symm)
      rw [empty]
      exact Spares.nil
    · exact updateSign_spares inst same va size free
  · by_cases same : Flag.parity = field.flag
    · have empty : inst.updateParity va = [] :=
        if_neg (same ▸ absent (by decide) (by decide) same.symm)
      rw [empty]
      exact Spares.nil
    · exact updateParity_spares inst same va

/-- The destination of an operation. -/
theorem destination_register :
    let value := (inst.translateOperand (inst.getOperand 0) .t0 .t1 true false
      false true).value
    Free value ∧ value ≠ .t5 := by
  rcases inst.translateOperand_register_or_zero (inst.getOperand 0) .t0 .t1
    true false false true with temporary | guest | zero
  · rw [temporary]
    decide
  · exact ⟨free_of_isGuest guest, ne_of_isGuest guest (by decide)⟩
  · rw [zero]
    decide

theorem UnaryOperation.execute_spares
    {operation : UnaryOperation}
    (undeclared : field.flag ∉
      (InstructionClass.unaryOperation operation).declaredUpdate)
    {dst : Register}
    (free : Free dst) :
    SparesField field (operation.execute inst dst) := by
  have overflow {operation : UnaryOperation}
      (undeclared : field.flag ∉
        (InstructionClass.unaryOperation operation).declaredUpdate)
      (declares : Flag.overflow ∈
        (InstructionClass.unaryOperation operation).declaredUpdate) :
      Flag.overflow ≠ field.flag := by
    rintro same
    exact undeclared (same ▸ declares)
  cases operation with
  | inc | dec =>
      exact Spares.append_iff.mpr
        ⟨updateOverflow_spares inst (by decide)
          (overflow undeclared (by decide)) _ _ _, by simp [free]⟩
  | neg =>
      exfalso
      apply undeclared
      cases field.flag <;> decide
  | not => simp [UnaryOperation.execute, free]

theorem UnaryOperation.generate_spares
    {operation : UnaryOperation}
    (undeclared : field.flag ∉
      (InstructionClass.unaryOperation operation).declaredUpdate)
    (notUpdated : operation = .not -> field.flag ≠ .carry ->
      field.flag ≠ .overflow -> field.flag ∉ inst.updateFlags) :
    SparesField field (operation.generate inst) := by
  let dest := inst.translateOperand (inst.getOperand 0) .t0 .t1 true false
    false true
  have code := @translateOperand_spares field inst (inst.getOperand 0) .t0
    .t1 (by decide) (by decide) true false false true
  have address := translateOperand_free inst (inst.getOperand 0)
    (by decide : Free .t0) (by decide : Free .t1) true false false true
  have value : Free dest.value := (destination_register inst).1
  have updates := @resultUpdates_spares field inst (by
    intro notCarry notOverflow member
    by_cases isNot : operation = .not
    · exact notUpdated isNot notCarry notOverflow member
    · apply undeclared
      cases operation with
      | not => exact absurd rfl isNot
      | _ =>
          revert notCarry notOverflow
          cases field.flag <;> decide) dest.value inst.destinationSize .t2
    (by decide)
  have destination := @translateDestination_spares field inst dest.value
    dest.address .t2 .t3 address (by decide) (by decide)
  have same : operation.generate inst =
      dest.code ++ operation.execute inst dest.value ++
        inst.resultUpdates dest.value inst.destinationSize .t2 ++
        inst.translateDestination dest.value dest.address .t2 .t3 := by
    simp only [UnaryOperation.generate, Instruction.resultUpdates,
      List.append_assoc, dest]
  rw [same]
  simp only [Spares.append_iff]
  exact ⟨⟨⟨code, UnaryOperation.execute_spares inst undeclared value⟩,
    updates⟩, destination⟩

/-! ## All classes -/

/-- The code of an instruction spares the fields of the flags that its class
does not declare.  The code of `NOT` does so for the flags that are not in the
update set. -/
theorem Instruction.generate_spares
    (symbols : HostSymbols)
    (entries : Nat)
    {code : List Inst}
    (generated : inst.generate symbols entries = some code)
    (undeclared : field.flag ∉ inst.instructionClass.declaredUpdate)
    (notUpdated : inst.instructionClass = .unaryOperation .not ->
      field.flag ≠ .carry -> field.flag ≠ .overflow ->
        field.flag ∉ inst.updateFlags) :
    SparesField field code := by
  have declares {flag : Flag} {update : BitVec 8}
      (same : inst.instructionClass.declaredUpdate = update)
      (declared : flag ∈ update) : flag ≠ field.flag := by
    rintro rfl
    exact undeclared (same ▸ declared)
  have notAll : inst.instructionClass.declaredUpdate ≠ Flags.all := by
    intro all
    rw [all] at undeclared
    apply undeclared
    cases field.flag <;> decide
  unfold Instruction.generate at generated
  cases kind : inst.instructionClass <;>
    simp only [kind, Option.some.injEq] at generated undeclared notUpdated
  case binaryOperation | comparable | mul | idiv | shiftCl | repeatableFlag |
      syscall | unsupported =>
    exact absurd (congrArg InstructionClass.declaredUpdate kind) notAll
  case unaryOperation operation =>
    rw [← generated]
    exact UnaryOperation.generate_spares inst undeclared
      fun isNot => notUpdated (isNot ▸ rfl)
  case rotation operation =>
    rw [← generated]
    have update : inst.instructionClass.declaredUpdate =
        Flags.carry ||| Flags.overflow := by
      rw [kind]
      rfl
    exact Rotation.generate_spares inst symbols operation
      (declares update (by decide)) (declares update (by decide))
  case bt =>
    rw [← generated]
    have update : inst.instructionClass.declaredUpdate = Flags.carry := by
      rw [kind]
      rfl
    exact Bt.generate_spares inst (declares update (by decide))
  case bitTest operation =>
    rw [← generated]
    have update : inst.instructionClass.declaredUpdate = Flags.carry := by
      rw [kind]
      rfl
    exact BitTest.generate_spares inst (declares update (by decide))
      operation
  case clc | stc =>
    rw [← generated]
    have update : inst.instructionClass.declaredUpdate = Flags.carry := by
      rw [kind]
      rfl
    exact setCarry_spares inst (declares update (by decide)) _ (by decide)
  case mov => exact generated ▸ Mov.generate_spares inst
  case movsx => exact generated ▸ Movsx.generate_spares inst
  case movzx => exact generated ▸ Movzx.generate_spares inst
  case lea => exact generated ▸ Lea.generate_spares inst
  case leave => exact generated ▸ Leave.generate_spares
  case push => exact generated ▸ Push.generate_spares inst
  case pop => exact generated ▸ Pop.generate_spares inst
  case cex => exact generated ▸ Cex.generate_spares inst
  case csep => exact generated ▸ CSep.generate_spares inst
  case nop => exact generated ▸ Spares.nil
  case setcc condition =>
    rw [← generated]
    exact Spares.append_iff.mpr ⟨Setcc.evaluate_spares condition,
      Setcc.setValue_spares inst _⟩
  case cmov condition =>
    exact generated ▸ Cmov.generate_spares inst condition
  case repeatable operation =>
    exact Repeatable.generate_spares inst generated
  case jcc condition =>
    exact generated ▸ Jcc.execute_spares (generateJump_spares inst) condition
  case jcxz =>
    rw [← generated]
    exact Spares.append_iff.mpr ⟨by split <;> simp,
      branchOver_spares (bnqz_spares _) (generateJump_spares inst)⟩
  case jmp => exact generated ▸ generateJump_spares inst
  case call => exact generated ▸ Call.generate_spares inst entries
  case ret => exact generated ▸ Ret.generate_spares inst.immediate

end Sparing

end Oxtra

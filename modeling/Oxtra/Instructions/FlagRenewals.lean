import Oxtra.Instruction.FieldLoads
import Oxtra.Instruction.FlagRenewals
import Oxtra.Instructions.ClShifts
import Oxtra.Instructions.PrunedRuns
import Oxtra.Instructions.ReachedStates
import Oxtra.Instructions.Rotations

/-!
# Instructions that renew flags

The code of most instructions stores what decides the flags in the update set.
`MUL` and the shifts by `CL` do so for the carry and the overflow flag only, and
the comparisons of strings where their loop is left.
-/

namespace Oxtra

open RiscV
open Encoding
open Helper
open FlagInfo
open Instruction (Slots carrySlots overflowSlots carrySlots_describes
  overflowSlots_describes updateOperation_stores_operation
  updateOperation_stores_first updateOperation_stores_second
  storeRegister_stores)
open Fadec (Operand OperandSize)

section Classes

variable (symbols : Instruction.HostSymbols) (inst : Instruction)
variable {flag : Flag} {slots : Slots}

/-! ## Sums and differences -/

section Arithmetic

variable (found : slots? flag = some slots)
variable (member : flag ∈ inst.updateFlags)
variable {dst src : Register}

include found member

theorem Add.executeRegister_renewing :
    Renewing flag (Add.executeRegister inst dst src) := by
  cases flag with
  | carry =>
      have describes := carrySlots_describes
      exact renewing_of_slots rfl
        (updateOperation_stores_operation inst describes member _ _ _ _).right
        (updateOperation_stores_first inst describes member _ _ _ _).right
        (updateOperation_stores_second inst describes member _ _ _ _).right
  | overflow =>
      have describes := overflowSlots_describes
      exact renewing_of_slots rfl
        (updateOperation_stores_operation inst describes member _ _ _
          _).left.left
        (updateOperation_stores_first inst describes member _ _ _ _).left.left
        (updateOperation_stores_second inst describes member _ _ _ _).left.left
  | zero | sign | parity => cases found

theorem Add.executeImmediate_renewing (imm : BitVec 64) :
    Renewing flag (Add.executeImmediate inst dst imm) := by
  rw [Add.executeImmediate_eq]
  cases flag with
  | carry =>
      have describes := carrySlots_describes
      exact renewing_of_slots rfl
        (updateOperation_stores_operation inst describes member _ _ _
          _).left.left.left
        (updateOperation_stores_first inst describes member _ _ _
          _).left.left.left
        (updateOperation_stores_second inst describes member _ _ _
          _).left.right
  | overflow =>
      have describes := overflowSlots_describes
      exact renewing_of_slots rfl
        (updateOperation_stores_operation inst describes member _ _ _
          _).right.left.left
        (updateOperation_stores_first inst describes member _ _ _
          _).right.left.left
        (updateOperation_stores_second inst describes member _ _ _
          _).right.right
  | zero | sign | parity => cases found

/-- The values for a difference of registers. -/
theorem registerDifference_renewing
    (result : Register)
    (computation : List Inst) :
    Renewing flag (registerDifference inst dst src result computation) := by
  cases flag with
  | carry =>
      have describes := carrySlots_describes
      exact renewing_of_slots rfl
        (updateOperation_stores_operation inst describes member _ _ _
          _).left.left.left
        (updateOperation_stores_first inst describes member _ _ _ _).right
        (updateOperation_stores_second inst describes member _ _ _
          _).left.left.left
  | overflow =>
      have describes := overflowSlots_describes
      exact renewing_of_slots rfl
        (updateOperation_stores_operation inst describes member _ _ _
          _).right.left.left
        (updateOperation_stores_first inst describes member _ _ _
          _).right.left.left
        (updateOperation_stores_second inst describes member _ _ _
          _).right.left.left
  | zero | sign | parity => cases found

theorem Sub.executeRegister_renewing :
    Renewing flag (Sub.executeRegister inst dst src) :=
  registerDifference_renewing inst found member dst _

theorem Cmp.executeRegister_renewing :
    Renewing flag (Cmp.executeRegister inst dst src).1 :=
  registerDifference_renewing inst found member .t5 _

/-- The values for a difference with an immediate are stored in front of it and
behind it. -/
theorem immediateDifference_renewing
    (result : Register)
    (computation : List Inst) :
    Renewing flag (immediateDifference inst dst result computation) := by
  cases flag with
  | carry =>
      have describes := carrySlots_describes
      exact renewing_of_slots rfl
        (updateOperation_stores_operation inst describes member _ _ _
          _).left.left.left
        (updateOperation_stores_first inst describes member _ _ _
          _).left.right
        (updateOperation_stores_second inst describes member _ _ _
          _).left.left.left
  | overflow =>
      have describes := overflowSlots_describes
      exact renewing_of_slots rfl
        (updateOperation_stores_operation inst describes member _ _ _
          _).right.left.left
        (updateOperation_stores_first inst describes member _ _ _
          _).right.left.left
        (updateOperation_stores_second inst describes member _ _ _
          _).right.right
  | zero | sign | parity => cases found

theorem Sub.executeImmediate_renewing :
    Renewing flag (Sub.executeImmediate inst dst inst.immediate) := by
  rw [Sub.executeImmediate_difference]
  exact immediateDifference_renewing inst found member _ _

theorem Cmp.executeImmediate_renewing :
    Renewing flag (Cmp.executeImmediate inst dst inst.immediate).1 := by
  rw [Cmp.executeImmediate_difference]
  exact immediateDifference_renewing inst found member _ _

/-! ## Addition with carry -/

theorem Adc.executeRegister_renewing :
    Renewing flag (Adc.executeRegister inst dst src) := by
  have updates : Flag.carry ∈ inst.updateFlags ∨
      Flag.overflow ∈ inst.updateFlags := by
    cases flag with
    | carry => exact Or.inl member
    | overflow => exact Or.inr member
    | zero | sign | parity => cases found
  unfold Adc.executeRegister
  rw [if_pos updates]
  refine .all fun field inside =>
    StoresWhole.right (@StoresWhole.right field [_] _ ?_)
  cases flag with
  | carry =>
      refine StoresWhole.right ?_
      unfold Adc.storeCarry
      simp only [if_pos member]
      exact @StoresWhole.right field [_] _
        (storeRegister_stores carrySlots_describes _ _ _ field inside)
  | overflow =>
      refine StoresWhole.left (StoresWhole.left ?_)
      unfold Adc.storeOverflow
      simp only [if_pos member]
      exact @StoresWhole.right field [_] _
        (storeRegister_stores overflowSlots_describes _ _ _ field inside)
  | zero | sign | parity => cases found

/-! ## Logical operations and shifts -/

theorem Logic.execute_renewing
    {operation : Inst}
    (straight : operation.isStraight = true) :
    Renewing flag (Logic.execute inst operation) := by
  have falls : FallsThrough [operation] := .of_straight (by simpa)
  have carry := setCarry_keepsTargets inst (by decide : Free .t4) (by decide)
    false
  have overflow := setOverflow_keepsTargets inst (by decide : Free .t4)
    (by decide) false
  have clears := (carry.append overflow).falls
  refine Renewing.behind (FallsThrough.append_iff.mpr ⟨falls, clears⟩) ?_
  cases flag with
  | carry =>
      refine (Instruction.setCarry_renewing inst false (by decide)
        member).front clears fun field same => ?_
      rw [Instruction.setOverflow_eq]
      exact updateOverflow_spares inst (by decide) (by rw [same]; decide) _ _ _
  | overflow =>
      exact (Instruction.setOverflow_renewing inst false (by decide)
        member).behind clears
  | zero | sign | parity => cases found

theorem Shift.execute_renewing
    {operation : Inst}
    (straight : operation.isStraight = true)
    (name : String) :
    Renewing flag (Shift.execute symbols inst operation name) := by
  have falls : FallsThrough [operation] := .of_straight (by simpa)
  have carry := updateCarryUnsupported_keepsTargets inst (by decide : Free .t4)
    (by decide) (symbols.text name)
  have overflow := updateOverflowUnsupported_keepsTargets inst
    (by decide : Free .t4) (by decide) (symbols.text name)
  have updates := (overflow.append carry).falls
  refine Renewing.behind (FallsThrough.append_iff.mpr ⟨falls, updates⟩) ?_
  cases flag with
  | carry =>
      exact (Instruction.updateCarryUnsupported_renewing inst _ (by decide)
        (by decide) member).behind updates
  | overflow =>
      exact (Instruction.updateOverflowUnsupported_renewing inst _ (by decide)
        (by decide) member).front updates fun field same =>
          updateCarryUnsupported_spares inst (by decide)
            (by rw [same]; decide) _
  | zero | sign | parity => cases found

/-! ## Operations -/

theorem BinaryOperation.executeRegister_renewing
    (operation : BinaryOperation) :
    Renewing flag (operation.executeRegister symbols inst dst src) := by
  cases operation with
  | add => exact Add.executeRegister_renewing inst found member
  | adc => exact Adc.executeRegister_renewing inst found member
  | sub => exact Sub.executeRegister_renewing inst found member
  | and | or | xor => exact Logic.execute_renewing inst found member rfl
  | shl | shr | sar =>
      exact Shift.execute_renewing symbols inst found member rfl _

theorem BinaryOperation.executeImmediate_renewing
    (free : Free dst)
    (notScaled : dst ≠ .t5)
    (operation : BinaryOperation) :
    Renewing flag
      (operation.executeImmediate symbols inst dst inst.immediate) := by
  cases operation with
  | add => exact Add.executeImmediate_renewing inst found member _
  | adc =>
      have falls := (executeImmediate_keepsTargets symbols inst free notScaled
        inst.immediate .adc).falls
      exact @Renewing.behind flag [_] _ falls
        (Adc.executeRegister_renewing inst found member)
  | sub => exact Sub.executeImmediate_renewing inst found member
  | and | or | xor => exact Logic.execute_renewing inst found member rfl
  | shl | shr | sar =>
      exact Shift.execute_renewing symbols inst found member rfl _

theorem Comparable.executeRegister_renewing (operation : Comparable) :
    Renewing flag (operation.executeRegister inst dst src).1 := by
  cases operation with
  | cmp => exact Cmp.executeRegister_renewing inst found member
  | test => exact Logic.execute_renewing inst found member rfl

theorem Comparable.executeImmediate_renewing (operation : Comparable) :
    Renewing flag (operation.executeImmediate inst dst inst.immediate).1 := by
  cases operation with
  | cmp => exact Cmp.executeImmediate_renewing inst found member
  | test => exact Logic.execute_renewing inst found member rfl

end Arithmetic

/-- The flags of the result are updated behind the operation, which updates the
other ones. -/
theorem result_renewing
    (member : flag ∈ inst.updateFlags)
    {front code back : List Inst}
    {va temp : Register}
    {size : OperandSize}
    (free : Free temp)
    (falls : FallsThrough
      (front ++ (code ++ (inst.resultUpdates va size temp ++ back))))
    (executes : ∀ slots, slots? flag = some slots -> Renewing flag code)
    (spares : ∀ field, SparesField field back) :
    Renewing flag
      (front ++ (code ++ (inst.resultUpdates va size temp ++ back))) := by
  refine Renewing.behind falls ?_
  have fallsBehind := (FallsThrough.append_iff.mp falls).2
  cases found : slots? flag with
  | none =>
      exact .all fun field inside => (Instruction.resultUpdates_stores inst
        member found va size temp field inside).left.right
  | some slots =>
      refine (executes slots found).front fallsBehind fun field same => ?_
      refine Spares.append_iff.mpr ⟨?_, spares field⟩
      refine resultUpdates_spares inst (fun notCarry notOverflow => ?_) va size
        free
      rw [same] at notCarry notOverflow
      cases flag with
      | carry => exact absurd rfl notCarry
      | overflow => exact absurd rfl notOverflow
      | zero | sign | parity => cases found

theorem BinaryOperation.generate_renewing
    (member : flag ∈ inst.updateFlags)
    (operation : BinaryOperation) :
    Renewing flag (operation.generate symbols inst) := by
  obtain ⟨free, notScaled⟩ := destination_register inst
  have falls := (generate_keepsTargets symbols inst operation).falls
  let source := inst.translateSource
  let dest := inst.translateOperand (inst.getOperand 0) .t0 .t1 true false
    false true
  have same : operation.generate symbols inst =
      (source.code ++ dest.code) ++
        ((if source.value ≠ .zero then
          operation.executeRegister symbols inst dest.value source.value
        else
          operation.executeImmediate symbols inst dest.value
            inst.immediate) ++
        (inst.resultUpdates dest.value inst.destinationSize .t3 ++
          inst.translateDestination dest.value dest.address .t2 .t3)) := by
    simp only [generate, Instruction.resultUpdates, List.append_assoc, source,
      dest]
  rw [same] at falls ⊢
  refine result_renewing inst member (by decide) falls
    (fun slots found => ?_) fun field => ?_
  · split
    · exact executeRegister_renewing symbols inst found member operation
    · exact executeImmediate_renewing symbols inst found member free notScaled
        operation
  · exact translateDestination_spares inst _ (translateOperand_free inst _
      (by decide) (by decide) _ _ _ _) (by decide) (by decide)

theorem Comparable.generate_renewing
    (member : flag ∈ inst.updateFlags)
    (operation : Comparable) :
    Renewing flag (operation.generate inst) := by
  have falls := (generate_keepsTargets inst operation).falls
  let source := inst.translateSource
  let dest := inst.translateOperand (inst.getOperand 0) .t0 .t1 true false
    false true
  let executed := if source.value ≠ .zero then
      operation.executeRegister inst dest.value source.value
    else
      operation.executeImmediate inst dest.value inst.immediate
  have same : operation.generate inst = (source.code ++ dest.code) ++
      (executed.1 ++ (inst.resultUpdates executed.2 inst.destinationSize .t3 ++
        [])) := by
    simp only [generate, Instruction.resultUpdates, List.append_assoc,
      List.append_nil, source, dest, executed]
  rw [same] at falls ⊢
  refine result_renewing inst member (by decide) falls
    (fun slots found => ?_) fun field => Spares.nil
  simp only [executed]
  split
  · exact executeRegister_renewing inst found member operation
  · exact executeImmediate_renewing inst found member operation

theorem UnaryOperation.execute_renewing
    (found : slots? flag = some slots)
    (member : flag ∈ inst.updateFlags)
    {operation : UnaryOperation}
    (declared : flag ∈
      (InstructionClass.unaryOperation operation).declaredUpdate)
    {dst : Register}
    (free : Free dst) :
    Renewing flag (operation.execute inst dst) := by
  have falls := (execute_keepsTargets inst free operation).falls
  have scratch : Instruction.Scratch .t4 := by decide
  have overflow (entry : JumpTable.Entry) (unary : entry.Unary)
      (member : .overflow ∈ inst.updateFlags) :=
    Instruction.updateOperation_renewing_unary inst overflowSlots_describes rfl
      member scratch unary dst
  cases operation with
  | inc =>
      cases flag with
      | overflow =>
          exact (overflow _ (fun _ _ _ => ⟨rfl, rfl⟩) member).front falls
            fun field _ => by simp [addi, opImm, free]
      | carry => exact absurd declared (by decide)
      | zero | sign | parity => cases found
  | dec =>
      cases flag with
      | overflow =>
          exact (overflow _ (fun _ _ _ => ⟨rfl, rfl⟩) member).front falls
            fun field _ => by simp [addi, opImm, free]
      | carry => exact absurd declared (by decide)
      | zero | sign | parity => cases found
  | neg =>
      have fallsUpdates := (FallsThrough.append_iff.mp falls).1
      refine Renewing.front falls ?_ fun field _ => by
        simp [Encoding.neg, sub, free]
      cases flag with
      | carry =>
          exact (Instruction.updateOperation_renewing_unary inst
            carrySlots_describes rfl member scratch
              (fun _ _ _ => ⟨rfl, rfl⟩) dst).front fallsUpdates
                fun field same => updateOverflow_spares inst (by decide)
                  (by rw [same]; decide) _ _ _
      | overflow =>
          exact (overflow _ (fun _ _ _ => ⟨rfl, rfl⟩) member).behind
            fallsUpdates
      | zero | sign | parity => cases found
  | not => exact absurd declared (by cases flag <;> decide)

theorem UnaryOperation.generate_renewing
    (member : flag ∈ inst.updateFlags)
    {operation : UnaryOperation}
    (declared : flag ∈
      (InstructionClass.unaryOperation operation).declaredUpdate) :
    Renewing flag (operation.generate inst) := by
  have falls := (generate_keepsTargets inst operation).falls
  let dest := inst.translateOperand (inst.getOperand 0) .t0 .t1 true false
    false true
  have same : operation.generate inst = dest.code ++
      (operation.execute inst dest.value ++
        (inst.resultUpdates dest.value inst.destinationSize .t2 ++
          inst.translateDestination dest.value dest.address .t2 .t3)) := by
    simp only [generate, Instruction.resultUpdates, List.append_assoc, dest]
  rw [same] at falls ⊢
  refine result_renewing inst member (by decide) falls
    (fun slots found => ?_) fun field => ?_
  · exact execute_renewing inst found member declared
      (destination_register inst).1
  · exact translateDestination_spares inst _ (translateOperand_free inst _
      (by decide) (by decide) _ _ _ _) (by decide) (by decide)

/-! ## Operations that do not support a flag -/

section Unsupported

variable (found : slots? flag = some slots)
variable (member : flag ∈ inst.updateFlags)

include found member

theorem Mul.generate_renewing : Renewing flag (generate symbols inst) := by
  have falls := (generate_keepsTargets symbols inst).falls
  have fallsOverflow := (FallsThrough.append_iff.mp falls).1
  cases flag with
  | carry =>
      exact (Instruction.updateCarryUnsupported_renewing inst _ (by decide)
        (by decide) member).behind falls
  | overflow =>
      exact ((Instruction.updateOverflowUnsupported_renewing inst _
        (by decide) (by decide) member).behind fallsOverflow).front falls
          fun field same => updateCarryUnsupported_spares inst (by decide)
            (by rw [same]; decide) _
  | zero | sign | parity => cases found

theorem Rotation.generate_renewing (operation : Rotation) :
    Renewing flag (operation.generate symbols inst) := by
  have falls := (generate_keepsTargets symbols inst operation).falls
  have fallsCarry := (FallsThrough.append_iff.mp falls).1
  cases flag with
  | carry =>
      exact ((Instruction.updateCarryUnsupported_renewing inst _ (by decide)
        (by decide) member).behind fallsCarry).front falls
          fun field same => updateOverflowUnsupported_spares inst (by decide)
            (by rw [same]; decide) _
  | overflow =>
      exact (Instruction.updateOverflowUnsupported_renewing inst _ (by decide)
        (by decide) member).behind falls
  | zero | sign | parity => cases found

theorem ShiftCl.execute_renewing
    (dst src : Register)
    (operation : ShiftCl) :
    Renewing flag (operation.execute symbols inst dst src) := by
  cases operation <;>
    exact Shift.execute_renewing symbols inst found member
      (by split <;> rfl) _

theorem ShiftCl.generate_renewing (operation : ShiftCl) :
    Renewing flag (operation.generate symbols inst) := by
  have falls := (ShiftCl.generate_keepsTargets symbols inst operation).falls
  have executes (dst src : Register) :=
    ShiftCl.execute_renewing symbols inst found member dst src operation
  unfold ShiftCl.generate at falls ⊢
  cases operand : inst.getOperand 0 <;> simp only [operand] at falls ⊢
  case reg size number type =>
    have free := free_mapRegType number type
    have moves (access : RegisterAccess) (field : Field) :=
      @moveToRegister_spares field _ free .t0 access .t1 (by decide) false
    have short (fallsShort : FallsThrough
          (operation.execute symbols inst .t0 (mapRegType number type) ++
            moveToRegister (mapRegType number type) .t0
              (RegisterAccess.ofSize size) .t1 false)) :=
      (executes _ _).front fallsShort fun field _ => moves _ field
    have high (fallsHigh : FallsThrough
          (srli .t0 (mapRegType number type) 8 ::
            (operation.execute symbols inst .t0 .t0 ++
              moveToRegister (mapRegType number type) .t0 .hbyte .t1
                false))) :=
      @Renewing.behind flag [_] _ fallsHigh
        ((executes _ _).front (FallsThrough.cons_iff.mp fallsHigh).2
          fun field _ => moves _ field)
    cases size with
    | qword => exact executes _ _
    | dword =>
        exact (executes _ _).front falls fun field _ => by
          simp [slli, srli, shift, free]
    | word | byte =>
        cases type with
        | gph => exact high falls
        | gpl => exact short falls
  all_goals
    have address := fun op => readFromMemory_free inst op
      (by decide : Free .t0) (by decide : Free .t1) false
    exact ((executes _ _).behind (FallsThrough.append_iff.mp falls).1).front
      falls fun field _ => writeToMemory_spares inst _ _ (by decide)
        (by decide) (address _)

end Unsupported

/-! ## Bits -/

/-- The bit in a register is the carry flag. -/
theorem storeBit_renewing
    {computation : Inst}
    (straight : computation.isStraight = true)
    {reg : Register}
    (scratch : Instruction.Scratch reg)
    (computes : ∀ pc state, ∃ value,
      computation.apply pc state = state.set reg (bit value)) :
    Renewing .carry (computation :: storeBit reg) := by
  refine @Renewing.constant .carry _ carrySlots rfl (.of_straight ?_ ?_ ?_)
  · intro inst member
    rcases List.mem_cons.mp member with rfl | further
    · exact straight
    · exact BitTest.storeBit_updates.straight _ further
  · exact @storesWhole_of_mem .carryOperation _ .sh reg rfl (by
      simp [storeBit, Instruction.updateCarryEntry, sh_eq, Field.offset])
  · intro pc state
    obtain ⟨value, computed⟩ := computes pc state
    refine ⟨if value then .carrySet else .carryClear, ?_, ?_⟩
    · intro _ _ _ _
      cases value <;> exact ⟨rfl, rfl⟩
    · rw [applyAll_cons, computed]
      exact BitTest.storeBit_operation scratch _
        (State.set_get_self _ _ scratch.1)

theorem Bt.generate_renewing : Renewing .carry (generate inst) :=
  (storeBit_renewing rfl (by decide) fun pc state =>
    ⟨(state.get .t1).getLsbD 0, by rw [apply_andi, and_one]⟩).behind
      (generate_keepsTargets inst).falls

theorem BitTest.generate_renewing (operation : BitTest) :
    Renewing .carry (operation.generate inst) := by
  have falls := (generate_keepsTargets inst operation).falls
  have base := bitBaseRegister_free (inst.getOperand 0)
  have address : Free (readBitBase inst .t3).2 := by
    unfold readBitBase
    split
    · decide
    · exact readFromMemory_free inst _ (by decide) (by decide) _
  have test : Renewing .carry
      ([Encoding.and bitValueReg (bitBaseRegister (inst.getOperand 0)) maskReg,
        snez bitValueReg bitValueReg] ++ storeBit bitValueReg) :=
    @Renewing.behind .carry [_] _ (testBit_keepsTargets _).falls
      (storeBit_renewing rfl (by decide) fun pc state =>
        ⟨state.get .t1 != 0, apply_snez _ _ _ _⟩)
  unfold generate at falls ⊢
  simp only at falls ⊢
  rw [List.append_assoc (_ ++ loadMask inst)] at falls ⊢
  have fallsBefore := (FallsThrough.append_iff.mp falls).1
  refine ((test.behind (FallsThrough.append_iff.mp fallsBefore).1).front
    fallsBefore fun field _ => ?_).front falls fun field _ => ?_
  · exact SparesField.computes (manipulateBit_computesInto operation _)
      (by simp [base])
  · split
    · exact writeToMemory_spares inst _ _ (by decide) (by decide) address
    · exact Spares.nil

/-! ## Comparisons of strings -/

/-- The updates behind a comparison of strings. -/
theorem RepeatableFlag.updateFlags_renewing
    (member : flag ∈ inst.updateFlags) :
    Renewing flag (updateFlags inst) := by
  have falls := (updateFlags_keepsTargets inst).falls
  have fallsCarry := (FallsThrough.append_iff.mp falls).1
  cases flag with
  | carry =>
      exact ((Instruction.updateOperation_renewing inst carrySlots_describes
        rfl member _ _ _ _).behind fallsCarry).front falls fun field same =>
          updateOverflow_spares inst (by decide) (by rw [same]; decide) _ _ _
  | overflow =>
      exact (Instruction.updateOperation_renewing inst overflowSlots_describes
        rfl member _ _ _ _).behind falls
  | zero | sign | parity =>
      exact .all fun field inside => (Instruction.resultUpdates_stores inst
        member rfl diffReg inst.operandSize .t3 field inside).left.left

namespace RepeatableFlag

/-- The loop of the comparisons and the updates behind it. -/
def repeated (operation : RepeatableFlag) (z : Bool) : List Inst :=
  loop (operation.execute inst.operandSize) (if z then bnqz else beqz) ++
    updateFlags inst

theorem repeated_length (operation : RepeatableFlag) (z : Bool) :
    (repeated inst operation z).length < 1023 := by
  obtain ⟨-, short⟩ := execute_straight operation inst.operandSize
  have updates := @updateFlags_length inst
  rw [repeated, loop]
  simp only [List.length_append, List.length_cons, List.length_nil]
  omega

theorem repeated_jumpsInside (operation : RepeatableFlag) (z : Bool) :
    JumpsInside (branchOver (beqz rcx) (repeated inst operation z)) ∧
      JumpsInside (repeated inst operation z) := by
  have loops (index : Nat) := loop_jumpsWithin inst operation z index
  have falls := (updateFlags_keepsTargets inst).falls
  have within (index : Nat) :
      jumpsWithin (index + (repeated inst operation z).length) index
        (repeated inst operation z) := by
    rw [repeated, jumpsWithin_append, List.length_append]
    exact ⟨jumpsWithin_mono (loops index) (by omega), falls.jumpsWithin⟩
  constructor
  · refine jumpsWithin_jump rfl ?_ (Nat.le_refl _) ?_
    · rw [branchOver_reach (repeated_length inst operation z), branchOver,
        List.length_cons]
      push_cast
      ring
    · rw [branchOver, List.length_cons, Nat.add_comm]
      exact within 1
  · have here := within 0
    rwa [Nat.zero_add] at here

section Runs

variable (operation : RepeatableFlag)
variable (member : flag ∈ inst.updateFlags)
variable {runtime : JumpTable.Runtime}
variable (keeps : ∀ field, JumpTable.RuntimeKeeps runtime field)
variable {env : Environment} {state after : State}
variable {visited : List (Inst × State)}

include member keeps

/-- The flags are updated where the loop is left. -/
theorem repeated_decides
    (z : Bool)
    (outside : ∀ field : Field,
      env.StoresOutside field.region (repeated inst operation z))
    (traces : (JumpTable.dispatch runtime env).Traces
      (repeated inst operation z) state visited (.ended after)) :
    Decides visited after flag := by
  have falls := (updateFlags_keepsTargets inst).falls
  have within := loop_jumpsWithin inst operation z 0
  obtain ⟨middle, front, back, -, further, rfl⟩ := traces.split
    (avoids_of_jumpsWithin within (by rw [Nat.zero_add])) falls.jumpsInside
  refine Decides.mono ?_ fun visit => List.mem_append_right front
  exact @Renewing.decides flag _ (updateFlags_renewing inst member) falls
    runtime keeps (env.shift _)
    (fun field => (outside field).mono fun _ => List.mem_append_right _)
    _ _ _ further

variable {load code : List Inst}
variable (computes : ComputesInto [dstReg] load)
variable (generated : generateFlag inst (operation.execute inst.operandSize) =
  some code)

include computes generated

/-- The flags are updated if anything is compared. -/
theorem generateFlag_decides
    (outside : ∀ field : Field, env.StoresOutside field.region (load ++ code))
    (traces : (JumpTable.dispatch runtime env).Traces (load ++ code) state
      visited (.ended after))
    (compares : prefixed inst = true -> state.get rcx ≠ 0) :
    Decides visited after flag := by
  have falls : FallsThrough load := .of_straight computes.straight
  rcases generateFlag_cases inst generated with
    ⟨isPrefixed, z, rfl⟩ | ⟨-, rfl⟩
  · obtain ⟨jumps, jumpsRepeated⟩ := repeated_jumpsInside inst operation z
    obtain ⟨middle, front, back, loads, further, rfl⟩ :=
      traces.split (falls.avoids _ _ _) jumps
    have kept : middle.get rcx = state.get rcx := by
      rw [loads.exits.eq_applyAll computes.straight]
      exact computes.get _ _ (by decide)
    have notTaken : ¬ Branch.eval .beq (middle.get rcx) (middle.get .zero) =
        true := by
      rw [kept, Branch.eval, State.get_zero, beq_iff_eq]
      exact compares isPrefixed
    obtain ⟨rest, runs, rfl⟩ := further.not_taken notTaken jumpsRepeated
    refine (@repeated_decides inst flag operation member runtime keeps
      ((env.shift _).shift 1) _ _ _ z (fun field => ?_) runs).mono
        fun visit inside => ?_
    · exact (outside field).mono fun _ inside =>
        List.mem_append_right _ (List.mem_cons_of_mem _ inside)
    · exact List.mem_append_right _ (List.mem_cons_of_mem _ inside)
  · have once : FallsThrough
        (operation.execute inst.operandSize ++ updateFlags inst) :=
      FallsThrough.append_iff.mpr ⟨execute_falls operation _,
        (updateFlags_keepsTargets inst).falls⟩
    have whole := FallsThrough.append_iff.mpr ⟨falls, once⟩
    exact (((updateFlags_renewing inst member).behind once).behind
      whole).decides whole keeps outside traces

end Runs

section Skips

variable (operation : RepeatableFlag)
variable {env : Environment} {state after : State} {exit : Exit}
variable {visited : List (Inst × State)} {load code : List Inst}

/-- The updates are skipped if nothing is to be compared. -/
theorem generateFlag_not_decides
    (computes : ComputesInto [dstReg] load)
    (generated : generateFlag inst (operation.execute inst.operandSize) =
      some code)
    (isPrefixed : prefixed inst = true)
    (counted : state.get rcx = 0)
    (traces : env.Traces (load ++ code) state visited exit) :
    ¬ Decides visited after flag := by
  rcases generateFlag_cases inst generated with ⟨-, z, rfl⟩ | ⟨once, -⟩
  · have keeps (written : Inst) (inside : written ∈ load) (pc : Word)
        (state : State) : (written.apply pc state).get rcx = state.get rcx :=
      @ComputesInto.get [dstReg] [written]
        (ComputesInto.cons_iff.mpr ⟨computes written inside, ComputesInto.nil⟩)
        pc state rcx (by decide)
    have reach : jumpIndex load.length ((BitVec.ofNat 32 (4 *
        (1 + (repeated inst operation z).length))).extractLsb' 1 12).toInt =
          some (load ++ branchOver (beqz rcx)
            (repeated inst operation z)).length := by
      rw [branchOver_reach (repeated_length inst operation z), jumpIndex,
        List.length_append, branchOver, List.length_cons, if_pos (by omega)]
      congr 1
      omega
    obtain ⟨steps, -, rfl⟩ := traces
    refine not_decides_of_not_stored fun visit member field _ => ?_
    apply not_isStoredBy_of_spares
    rcases List.mem_append.mp (Environment.mem_of_mem_trace_skipping
      computes.straight
      (fun written inside pc state (counted : state.get rcx = 0) =>
        (keeps written inside pc state).trans counted)
      (fun state (counted : state.get rcx = 0) => by
        rw [Branch.eval, State.get_zero, counted]
        rfl) reach counted member) with inLoad | isBranch
    · exact SparesField.computes computes (by decide) _ inLoad
    · rw [List.mem_singleton.mp isBranch]
      rfl
  · rw [once] at isPrefixed
    cases isPrefixed

end Skips

/-- `SCAS` loads the accumulator in front of the comparisons. -/
theorem generate_eq_append
    {operation : RepeatableFlag}
    {code : List Inst}
    (generated : operation.generate inst = some code) :
    ∃ load rest, ComputesInto [dstReg] load ∧
      generateFlag inst (operation.execute inst.operandSize) = some rest ∧
        code = load ++ rest := by
  cases operation with
  | cmps => exact ⟨[], code, ComputesInto.nil, generated, rfl⟩
  | scas =>
      obtain ⟨rest, found, rfl⟩ := Option.map_eq_some_iff.mp generated
      exact ⟨_, rest, loadAccumulator_computesInto inst, found, rfl⟩

end RepeatableFlag

/-! ## Updates that are left out -/

section Sparing

variable {field : Field}
variable (notCarry : Flag.carry ≠ field.flag)
variable (notOverflow : Flag.overflow ≠ field.flag)

include notCarry notOverflow

/-- A product does not update the flags of the result. -/
theorem Mul.generate_spares : SparesField field (generate symbols inst) := by
  have factor (op : Operand) {temp : Register} (free : Free temp)
      (signed : Bool) :
      SparesField field (translateFactor inst op temp signed).code :=
    translateOperand_spares inst op free (by decide) _ _ _ _
  have sources : SparesField field (sources inst).1.code ∧
      SparesField field (sources inst).2.code := by
    unfold sources
    split
    · exact ⟨factor _ (by decide) _, factor _ (by decide) _⟩
    · exact ⟨factor _ (by decide) _, factor _ (by decide) _⟩
    · exact ⟨SparesField.computes (loadFromRegister_computesInto _ _ _ _)
        (by decide), factor _ (by decide) _⟩
  have multiplies {lower : Register} (free : Free lower)
      (signed upper : Bool)
      (first second : Register) :
      SparesField field (if inst.destinationSize = .qword then
          multiplyLong signed upper lower first second
        else
          multiplyShort inst.destinationSize upper lower first second) := by
    have registers : ∀ register ∈ [lower, rdx, .t0, .t4], Free register := by
      simp only [List.forall_mem_cons, List.not_mem_nil, false_imp_iff,
        implies_true, and_true]
      exact ⟨free, by decide, by decide, by decide⟩
    split
    · exact SparesField.computes (multiplyLong_computesInto _ _ _ _ _)
        registers
    · exact SparesField.computes (multiplyShort_computesInto _ _ _ _ _)
        registers
  refine Spares.append_iff.mpr ⟨Spares.append_iff.mpr ⟨Spares.append_iff.mpr
    ⟨Spares.append_iff.mpr sources, multiplies ?_ _ _ _ _⟩,
      updateOverflowUnsupported_spares inst (by decide) notOverflow _⟩,
    updateCarryUnsupported_spares inst (by decide) notCarry _⟩
  split
  · decide
  · exact firstRegister_free inst

theorem ShiftCl.execute_spares
    {dst : Register}
    (free : Free dst)
    (src : Register)
    (operation : ShiftCl) :
    SparesField field (operation.execute symbols inst dst src) := by
  have updates (name : String) : SparesField field
      (inst.updateOverflowUnsupported (symbols.text name) .t4 ++
        inst.updateCarryUnsupported (symbols.text name) .t4) :=
    Spares.append_iff.mpr
      ⟨updateOverflowUnsupported_spares inst (by decide) notOverflow _,
        updateCarryUnsupported_spares inst (by decide) notCarry _⟩
  cases operation <;>
    exact Spares.cons_iff.mpr
      ⟨by split <;> exact (spares_of_target rfl).mpr free, updates _⟩

/-- A shift by `CL` does not update the flags of the result. -/
theorem ShiftCl.generate_spares (operation : ShiftCl) :
    SparesField field (operation.generate symbols inst) := by
  have executes {dst : Register} (free : Free dst) (src : Register) :=
    ShiftCl.execute_spares symbols inst notCarry notOverflow free src operation
  have moves {dst : Register} (free : Free dst) (access : RegisterAccess) :=
    @moveToRegister_spares field _ free .t0 access .t1 (by decide) false
  unfold ShiftCl.generate
  split
  · rename_i number type operand
    have free := free_mapRegType number type
    unfold ShiftCl.generateRegister
    simp only
    split
    · exact executes free _
    · exact Spares.append_iff.mpr ⟨executes free _, by
        simp [slli, srli, shift, free]⟩
    · exact Spares.cons_iff.mpr ⟨(spares_of_target rfl).mpr
        (by decide : Free .t0), Spares.append_iff.mpr
          ⟨executes (by decide) _, moves free _⟩⟩
    · exact Spares.append_iff.mpr ⟨executes (by decide) _, moves free _⟩
  · exact Spares.append_iff.mpr ⟨Spares.append_iff.mpr
      ⟨readFromMemory_spares inst _ (by decide) (by decide) false,
        executes (by decide) _⟩,
      writeToMemory_spares inst _ _ (by decide) (by decide)
        (readFromMemory_free inst _ (by decide) (by decide) false)⟩

end Sparing

/-! ## Loads -/

section Loads

variable {field : Field}

theorem translateSource_ignores :
    IgnoresField field inst.translateSource.code := by
  unfold Instruction.translateSource
  simp only
  split
  · exact LoadsBeside.nil
  · exact translateOperand_ignores inst _ (by decide) (by decide) _ _ _ _

theorem resultUpdates_ignores
    (va : Register)
    (size : OperandSize)
    (temp : Register) :
    IgnoresField field (inst.updateZero va size) ∧
      IgnoresField field (inst.updateSign va size temp) ∧
      IgnoresField field (inst.updateParity va) :=
  ⟨IgnoresField.updates (inst.updateZero_updates va size),
    IgnoresField.updates (inst.updateSign_updates va size temp),
    IgnoresField.updates (inst.updateParity_updates va)⟩

theorem updateUnsupported_ignores (name : BitVec 64) (temp : Register) :
    IgnoresField field (inst.updateOverflowUnsupported name temp) ∧
      IgnoresField field (inst.updateCarryUnsupported name temp) :=
  LoadsBeside.append_iff.mp
    (IgnoresField.updates (inst.unsupported_updates name temp))

theorem setCarry_ignores (set : Bool) (temp : Register) :
    IgnoresField field (inst.setCarry set temp) := by
  rw [Instruction.setCarry_eq]
  exact IgnoresField.updates
    (inst.updateOperation_updates carrySlots_describes _ _ _ _)

theorem Adc.executeRegister_ignores
    (other : field.flag ≠ .carry)
    (dst src : Register) :
    IgnoresField field (executeRegister inst dst src) :=
  LoadsBeside.append_iff.mpr ⟨evaluateCarry_ignores other,
    IgnoresField.updates (addEvaluated_updates inst)⟩

theorem BinaryOperation.execute_ignores
    {operation : BinaryOperation}
    (evaluates : operation = .adc -> field.flag ≠ .carry)
    (dst src : Register)
    (imm : BitVec 64) :
    IgnoresField field (operation.executeRegister symbols inst dst src) ∧
      IgnoresField field
        (operation.executeImmediate symbols inst dst imm) := by
  by_cases isAdc : operation = .adc
  · have evaluated (src : Register) :=
      Adc.executeRegister_ignores inst (evaluates isAdc) dst src
    rw [isAdc]
    exact ⟨evaluated src, LoadsBeside.cons_iff.mpr ⟨rfl, evaluated .t3⟩⟩
  · have register := @executeRegister_updates symbols inst dst _ isAdc src
    have immediate := @executeImmediate_updates symbols inst dst _ isAdc imm
    exact ⟨IgnoresField.updates register, IgnoresField.updates immediate⟩

theorem BinaryOperation.generate_ignores
    {operation : BinaryOperation}
    (evaluates : operation = .adc -> field.flag ≠ .carry) :
    IgnoresField field (operation.generate symbols inst) := by
  obtain ⟨zero, sign, parity⟩ := @resultUpdates_ignores inst field
    (inst.translateOperand (inst.getOperand 0) .t0 .t1 true false false
      true).value inst.destinationSize .t3
  refine LoadsBeside.append_iff.mpr ⟨LoadsBeside.append_iff.mpr
    ⟨LoadsBeside.append_iff.mpr ⟨LoadsBeside.append_iff.mpr
      ⟨LoadsBeside.append_iff.mpr ⟨LoadsBeside.append_iff.mpr
        ⟨translateSource_ignores inst, ?_⟩, ?_⟩, zero⟩, sign⟩, parity⟩,
    translateDestination_ignores inst _ _ _ _⟩
  · exact translateOperand_ignores inst _ (by decide) (by decide) _ _ _ _
  · split
    · exact (execute_ignores symbols inst evaluates _ _ 0).1
    · exact (execute_ignores symbols inst evaluates _ .zero _).2

theorem UnaryOperation.generate_ignores (operation : UnaryOperation) :
    IgnoresField field (operation.generate inst) := by
  obtain ⟨zero, sign, parity⟩ := @resultUpdates_ignores inst field
    (inst.translateOperand (inst.getOperand 0) .t0 .t1 true false false
      true).value inst.destinationSize .t2
  refine LoadsBeside.append_iff.mpr ⟨LoadsBeside.append_iff.mpr
    ⟨LoadsBeside.append_iff.mpr ⟨LoadsBeside.append_iff.mpr
      ⟨LoadsBeside.append_iff.mpr ⟨?_, ?_⟩, zero⟩, sign⟩, parity⟩,
    translateDestination_ignores inst _ _ _ _⟩
  · exact translateOperand_ignores inst _ (by decide) (by decide) _ _ _ _
  · exact IgnoresField.updates (execute_updates inst operation)

/-- The operation of a comparison on any registers. -/
theorem Comparable.execute_ignores
    (operation : Comparable)
    (dst src : Register) :
    IgnoresField field (operation.executeRegister inst dst src).1 ∧
      IgnoresField field
        (operation.executeImmediate inst dst inst.immediate).1 := by
  cases operation with
  | cmp =>
      simp only [executeRegister, executeImmediate, Cmp.executeRegister_eq,
        Cmp.executeImmediate_difference]
      exact ⟨IgnoresField.updates (registerDifference_updates inst
          (ComputesInto.singleton rfl rfl (by simp : Register.t5 ∈ [.t5]))),
        IgnoresField.updates (immediateDifference_updates inst
          (Cmp.compareImmediate_computesInto _ _))⟩
  | test =>
      exact ⟨IgnoresField.updates (Logic.execute_updates inst rfl rfl),
        IgnoresField.updates (Logic.execute_updates inst rfl rfl)⟩

theorem Comparable.generate_ignores (operation : Comparable) :
    IgnoresField field (operation.generate inst) := by
  have updates (va : Register) :=
    @resultUpdates_ignores inst field va inst.destinationSize .t3
  unfold generate
  simp only [LoadsBeside.append_iff]
  refine ⟨⟨⟨⟨⟨translateSource_ignores inst, ?_⟩, ?_⟩, (updates _).1⟩,
    (updates _).2.1⟩, (updates _).2.2⟩
  · exact translateOperand_ignores inst _ (by decide) (by decide) _ _ _ _
  · split
    · exact (execute_ignores inst operation _ _).1
    · exact (execute_ignores inst operation _ .zero).2

theorem Mul.sources_ignores :
    IgnoresField field (sources inst).1.code ∧
      IgnoresField field (sources inst).2.code := by
  have factor (op : Operand) {temp : Register} (free : Free temp)
      (signed : Bool) :
      IgnoresField field (translateFactor inst op temp signed).code :=
    translateOperand_ignores inst op free (by decide) _ _ _ _
  unfold sources
  split
  · exact ⟨factor _ (by decide) _, factor _ (by decide) _⟩
  · exact ⟨factor _ (by decide) _, factor _ (by decide) _⟩
  · exact ⟨IgnoresField.computes (loadFromRegister_computesInto _ _ _ _),
      factor _ (by decide) _⟩

theorem Mul.generate_ignores : IgnoresField field (generate symbols inst) := by
  obtain ⟨overflow, carry⟩ :=
    @updateUnsupported_ignores inst field (symbols.text "MUL") .t4
  obtain ⟨first, second⟩ := @sources_ignores inst field
  refine LoadsBeside.append_iff.mpr ⟨LoadsBeside.append_iff.mpr
    ⟨LoadsBeside.append_iff.mpr ⟨LoadsBeside.append_iff.mpr
      ⟨first, second⟩, ?_⟩, overflow⟩, carry⟩
  split
  · exact IgnoresField.computes (multiplyLong_computesInto _ _ _ _ _)
  · exact IgnoresField.computes (multiplyShort_computesInto _ _ _ _ _)

theorem ShiftCl.generate_ignores (operation : ShiftCl) :
    IgnoresField field (operation.generate symbols inst) := by
  have executes (dst src : Register) :
      IgnoresField field (operation.execute symbols inst dst src) :=
    IgnoresField.updates (execute_updates symbols inst operation src)
  have moves (dst : Register) (access : RegisterAccess) :
      IgnoresField field (moveToRegister dst .t0 access .t1 false) :=
    moveToRegister_ignores _ _
  unfold ShiftCl.generate
  split
  · unfold ShiftCl.generateRegister
    simp only
    split
    · exact executes _ _
    · exact LoadsBeside.append_iff.mpr ⟨executes _ _, by
        simp [Inst.loadsBeside, slli, srli, shift]⟩
    · exact LoadsBeside.cons_iff.mpr ⟨rfl, LoadsBeside.append_iff.mpr
        ⟨executes _ _, moves _ _⟩⟩
    · exact LoadsBeside.append_iff.mpr ⟨executes _ _, moves _ _⟩
  · exact LoadsBeside.append_iff.mpr ⟨LoadsBeside.append_iff.mpr
      ⟨readFromMemory_ignores inst _ (by decide) (by decide) _,
        executes _ _⟩, writeToMemory_ignores inst _ _ _ _ _⟩

theorem Rotation.generate_ignores (operation : Rotation) :
    IgnoresField field (operation.generate symbols inst) := by
  obtain ⟨overflow, carry⟩ :=
    @updateUnsupported_ignores inst field (symbols.text "Rotation") .t0
  have rotates (reg : Register) :
      IgnoresField field (operation.rotate inst reg).1 :=
    IgnoresField.computes (rotate_computes inst operation)
  refine LoadsBeside.append_iff.mpr ⟨LoadsBeside.append_iff.mpr
    ⟨?_, carry⟩, overflow⟩
  cases operand : inst.getOperand 0 with
  | mem size base =>
      exact LoadsBeside.append_iff.mpr ⟨LoadsBeside.append_iff.mpr
        ⟨readFromMemory_ignores inst _ (by decide) (by decide) _, rotates _⟩,
        writeToMemory_ignores inst _ _ _ _ _⟩
  | reg size number type =>
      cases type with
      | gph =>
          exact LoadsBeside.cons_iff.mpr ⟨rfl, LoadsBeside.append_iff.mpr
            ⟨rotates _, moveToRegister_ignores _ _⟩⟩
      | gpl =>
          exact LoadsBeside.append_iff.mpr
            ⟨rotates _, moveToRegister_ignores _ _⟩
  | _ => exact LoadsBeside.nil

theorem readBitBase_ignores {temp : Register} (free : Free temp) :
    IgnoresField field (readBitBase inst temp).1 := by
  unfold readBitBase
  split
  · exact LoadsBeside.nil
  · exact readFromMemory_ignores inst _ (by decide) free _

theorem Bt.generate_ignores : IgnoresField field (generate inst) := by
  refine LoadsBeside.append_iff.mpr ⟨LoadsBeside.append_iff.mpr
    ⟨readBitBase_ignores inst (by decide), ?_⟩, LoadsBeside.cons_iff.mpr
      ⟨rfl, IgnoresField.updates BitTest.storeBit_updates⟩⟩
  split
  · exact LoadsBeside.cons_iff.mpr ⟨rfl, LoadsBeside.nil⟩
  · exact LoadsBeside.nil

theorem BitTest.generate_ignores (operation : BitTest) :
    IgnoresField field (operation.generate inst) := by
  have test (base : Register) : IgnoresField field
      [Encoding.and bitValueReg base maskReg, snez bitValueReg bitValueReg] :=
    LoadsBeside.cons_iff.mpr ⟨rfl, LoadsBeside.cons_iff.mpr
      ⟨rfl, LoadsBeside.nil⟩⟩
  unfold generate
  simp only [LoadsBeside.append_iff]
  refine ⟨⟨⟨⟨⟨readBitBase_ignores inst (by decide),
    IgnoresField.computes (loadMask_computesInto inst)⟩, test _⟩,
    IgnoresField.updates storeBit_updates⟩,
    IgnoresField.computes (manipulateBit_computesInto operation _)⟩, ?_⟩
  split
  · exact writeToMemory_ignores inst _ _ _ _ _
  · exact LoadsBeside.nil

theorem RepeatableFlag.execute_ignores
    (operation : RepeatableFlag)
    (size : OperandSize) :
    IgnoresField field (operation.execute size) := by
  have source := @loadOperand_ignores field rsi (by decide) size false
  have destination := @loadOperand_ignores field rdi (by decide) size false
  cases operation with
  | cmps =>
      simp only [execute, cmpsOperation, LoadsBeside.cons_iff]
      exact ⟨source _ _, destination _ _, rfl, rfl, rfl, LoadsBeside.nil⟩
  | scas =>
      simp only [execute, scasOperation, LoadsBeside.cons_iff]
      exact ⟨destination _ _, rfl, rfl, LoadsBeside.nil⟩

theorem RepeatableFlag.generateFlag_ignores
    (operation : RepeatableFlag)
    {code : List Inst}
    (generated : generateFlag inst (operation.execute inst.operandSize) =
      some code) :
    IgnoresField field code := by
  have executes := @execute_ignores field operation inst.operandSize
  have updates : IgnoresField field (updateFlags inst) :=
    IgnoresField.updates updateFlags_updates
  rcases generateFlag_cases inst generated with ⟨-, z, rfl⟩ | ⟨-, rfl⟩
  · refine LoadsBeside.cons_iff.mpr ⟨rfl, LoadsBeside.append_iff.mpr
      ⟨LoadsBeside.append_iff.mpr ⟨LoadsBeside.cons_iff.mpr
        ⟨rfl, executes⟩, ?_⟩, updates⟩⟩
    refine LoadsBeside.cons_iff.mpr ⟨?_, LoadsBeside.cons_iff.mpr
      ⟨rfl, LoadsBeside.nil⟩⟩
    cases z <;> rfl
  · exact LoadsBeside.append_iff.mpr ⟨executes, updates⟩

end Loads

end Classes

end Oxtra

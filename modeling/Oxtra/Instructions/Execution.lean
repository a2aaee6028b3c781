import Oxtra.Instruction.FlagEffects
import Oxtra.Instruction.OperandValues
import Oxtra.Instructions.Operations

/-!
# Execution of the operations

What `execute_operation` computes.  It keeps every register but its operand
and temporaries, and stores to nothing but the lazy information.
-/

namespace Oxtra

open RiscV
open Encoding
open Helper
open FlagInfo
open Instruction
open Fadec (OperandSize)

/-- Temporaries of `execute_operation`, with those of the routines that it
calls. -/
def executionScratch : List Register := [.t3, .t4, .t5, .t6, .ra]

/-! ## Results as words -/

/-- What an operation computes from the words in two registers. -/
def BinaryOperation.word
    (operation : BinaryOperation)
    (first second : Word)
    (carry : Bool) : Word :=
  match operation with
  | add => first + second
  | adc => first + second + bit carry
  | sub => first - second
  | and => first &&& second
  | or => first ||| second
  | xor => first ^^^ second
  | shl => first <<< shiftAmount second
  | shr => first >>> shiftAmount second
  | sar => first.sshiftRight (shiftAmount second)

/-- What an operation computes from the word in a register. -/
def UnaryOperation.word (operation : UnaryOperation) (value : Word) : Word :=
  match operation with
  | inc => value + 1
  | dec => value - 1
  | neg => -value
  | not => ~~~value

/-! ## Immediates -/

namespace Instruction

variable (inst : Instruction)

theorem signedImm_immediate
    (small : inst.smallImmediate = true) :
    signedImm inst.immediate = inst.immediate := by
  rw [smallImmediate, Bool.and_eq_true, BitVec.sle_iff_toInt_le,
    BitVec.slt_iff_toInt_lt] at small
  exact signedImm_of_small small.1 small.2

/-- Only the smallest immediate has no negation that fits. -/
theorem signedImm_neg_immediate
    (small : inst.smallImmediate = true)
    (notLeast : inst.immediate ≠ -0x800) :
    signedImm (-inst.immediate) = -inst.immediate := by
  rw [smallImmediate, Bool.and_eq_true, BitVec.sle_iff_toInt_le,
    BitVec.slt_iff_toInt_lt] at small
  have lowest : (-0x800 : BitVec 64).toInt = -0x800 := by decide
  have highest : (0x800 : BitVec 64).toInt = 0x800 := by decide
  have different : inst.immediate.toInt ≠ -0x800 := by
    intro same
    exact notLeast (BitVec.eq_of_toInt_eq (same.trans lowest.symm))
  have negated : (-inst.immediate).toInt = -inst.immediate.toInt := by
    rw [BitVec.toInt_neg]
    exact Int.bmod_eq_of_le (by omega) (by omega)
  exact signedImm_of_small (by omega) (by omega)

end Instruction

/-! ## Code of the operations -/

namespace Instruction

section Updates

variable (inst : Instruction)

theorem updateCarry_updates
    (entry : Option JumpTable.Entry)
    (va vb : Option Register)
    (temp : Register) :
    UpdatesFields [temp] (inst.updateCarry entry va vb temp) :=
  inst.updateOperation_updates carrySlots_describes entry va vb temp

theorem updateOverflow_updates
    (entry : Option JumpTable.Entry)
    (va vb : Option Register)
    (temp : Register) :
    UpdatesFields [temp] (inst.updateOverflow entry va vb temp) :=
  inst.updateOperation_updates overflowSlots_describes entry va vb temp

theorem updateCarry_fields
    (updated : Flag.carry ∈ inst.updateFlags)
    (pc : Word)
    (state : State)
    (entry : Option JumpTable.Entry)
    {va vb : Option Register}
    {temp : Register}
    (scratch : entry.isSome = true -> Scratch temp)
    (firstKept : ∀ register ∈ va, register ≠ temp)
    (secondKept : ∀ register ∈ vb, register ≠ temp) :
    fields (applyAll pc state (inst.updateCarry entry va vb temp)) =
      carrySlots.write entry (va.map state.get) (vb.map state.get)
        (fields state) :=
  (inst.updateOperation_fields pc state carrySlots_describes entry scratch
    firstKept secondKept).trans (if_pos updated)

theorem updateOverflow_fields
    (updated : Flag.overflow ∈ inst.updateFlags)
    (pc : Word)
    (state : State)
    (entry : Option JumpTable.Entry)
    {va vb : Option Register}
    {temp : Register}
    (scratch : entry.isSome = true -> Scratch temp)
    (firstKept : ∀ register ∈ va, register ≠ temp)
    (secondKept : ∀ register ∈ vb, register ≠ temp) :
    fields (applyAll pc state (inst.updateOverflow entry va vb temp)) =
      overflowSlots.write entry (va.map state.get) (vb.map state.get)
        (fields state) :=
  (inst.updateOperation_fields pc state overflowSlots_describes entry scratch
    firstKept secondKept).trans (if_pos updated)

/-- The updates of both flags in a row. -/
theorem updateBoth_fields
    (carryUpdated : Flag.carry ∈ inst.updateFlags)
    (overflowUpdated : Flag.overflow ∈ inst.updateFlags)
    (pc : Word)
    (state : State)
    {carryEntry overflowEntry : Option JumpTable.Entry}
    {va vb vc vd : Option Register}
    {temp : Register}
    (carryScratch : carryEntry.isSome = true -> Scratch temp)
    (overflowScratch : overflowEntry.isSome = true -> Scratch temp)
    (kept : ∀ value ∈ [va, vb, vc, vd], ∀ register ∈ value,
      register ≠ temp) :
    fields (applyAll pc state
        (inst.updateCarry carryEntry va vb temp ++
          inst.updateOverflow overflowEntry vc vd temp)) =
      overflowSlots.write overflowEntry (vc.map state.get) (vd.map state.get)
        (carrySlots.write carryEntry (va.map state.get) (vb.map state.get)
          (fields state)) := by
  have updates := inst.updateCarry_updates carryEntry va vb temp
  have same : ∀ value ∈ [va, vb, vc, vd], ∀ pc,
      value.map (applyAll pc state
        (inst.updateCarry carryEntry va vb temp)).get =
          value.map state.get := by
    intro value member pc
    cases value with
    | none => rfl
    | some register =>
        have other := kept _ member register rfl
        exact congrArg some (updates.get _ _ (by simpa))
  rw [applyAll_append,
    inst.updateOverflow_fields overflowUpdated _ _ _ overflowScratch
      (kept vc (by simp)) (kept vd (by simp)),
    inst.updateCarry_fields carryUpdated _ _ _ carryScratch
      (kept va (by simp)) (kept vb (by simp)),
    same vc (by simp), same vd (by simp)]

theorem carryValues_updates (va vb : Option Register) (temp : Register) :
    UpdatesFields [] (inst.updateCarry none va vb temp) :=
  inst.updateValues_updates carrySlots_describes va vb temp

theorem overflowValues_updates (va vb : Option Register) (temp : Register) :
    UpdatesFields [] (inst.updateOverflow none va vb temp) :=
  inst.updateValues_updates overflowSlots_describes va vb temp

theorem updateUnsupported_updates
    {slots : Slots}
    {fields : OperationFields}
    (describes : slots.Describes fields)
    {pointer : Field}
    (offset : fields.pointer = pointer.offset)
    (whole : pointer.bytes = 8)
    (entry : JumpTable.Entry)
    (name : BitVec 64)
    (temp : Register) :
    UpdatesFields [temp] (inst.updateUnsupported fields entry name temp) := by
  apply updating_updates
  rw [offset]
  exact Updates.append
    (Updates.append (storeEntry_updates describes entry temp)
      (UpdatesFields.computeInto (loadImmediate_computesInto name temp)))
    (@UpdatesFields.store _ .sd pointer (by rw [whole]; decide) temp)

theorem unsupported_updates (name : BitVec 64) (temp : Register) :
    UpdatesFields [temp]
      (inst.updateOverflowUnsupported name temp ++
        inst.updateCarryUnsupported name temp) :=
  Updates.append
    (@updateUnsupported_updates inst _ _ overflowSlots_describes .overflowPtr
      rfl rfl .unsupportedOverflow name temp)
    (@updateUnsupported_updates inst _ _ carrySlots_describes .carryPtr rfl
      rfl .unsupportedCarry name temp)

/-- The entry and the name are stored. -/
theorem updateUnsupported_fields
    {slots : Slots}
    {operations : OperationFields}
    (describes : slots.Describes operations)
    {pointer : Field}
    (offset : operations.pointer = pointer.offset)
    (whole : pointer.bytes = 8)
    (updated : operations.flag ∈ inst.updateFlags)
    (entry : JumpTable.Entry)
    (name : BitVec 64)
    {temp : Register}
    (scratch : Scratch temp)
    (pc : Word)
    (state : State) :
    fields (applyAll pc state
        (inst.updateUnsupported operations entry name temp)) =
      Function.update
        (Function.update (fields state) slots.operation
          (entry.offset.setWidth 64)) pointer name := by
  have stored := fun pc state =>
    @fields_apply_store .sd pointer (by rw [whole]; rfl) temp pc state
  refine (inst.fields_updating pc state rfl).trans ((if_pos updated).trans ?_)
  rw [offset, applyAll_append, applyAll_append, applyAll_cons, applyAll_nil,
    sd_eq, stored, applyAll_loadImmediate scratch.1,
    State.set_get_self _ _ scratch.1, fields_set _ scratch.2,
    storeEntry_fields _ _ describes entry scratch, whole, lowBytes_eight]

/-- The contents of the fields when neither flag is supported. -/
def unsupportedContents (name : BitVec 64) (contents : Field -> Word) :
    Field -> Word :=
  Function.update
    (Function.update
      (Function.update
        (Function.update contents .overflowOperation
          (JumpTable.Entry.unsupportedOverflow.offset.setWidth 64))
        .overflowPtr name)
      .carryOperation (JumpTable.Entry.unsupportedCarry.offset.setWidth 64))
    .carryPtr name

theorem unsupported_fields
    (carryUpdated : Flag.carry ∈ inst.updateFlags)
    (overflowUpdated : Flag.overflow ∈ inst.updateFlags)
    (name : BitVec 64)
    {temp : Register}
    (scratch : Scratch temp)
    (pc : Word)
    (state : State) :
    fields (applyAll pc state
        (inst.updateOverflowUnsupported name temp ++
          inst.updateCarryUnsupported name temp)) =
      unsupportedContents name (fields state) := by
  rw [applyAll_append, updateCarryUnsupported,
    @updateUnsupported_fields inst _ _ carrySlots_describes .carryPtr rfl rfl
      carryUpdated _ name _ scratch,
    updateOverflowUnsupported,
    @updateUnsupported_fields inst _ _ overflowSlots_describes .overflowPtr
      rfl rfl overflowUpdated _ name _ scratch]
  rfl

/-- The logical operations set both flags through the temporary. -/
theorem clearFlags_updates :
    UpdatesFields [.t4] (Logic.clearFlags inst) := by
  rw [Logic.clearFlags, setCarry_eq, setOverflow_eq]
  exact Updates.append (inst.updateCarry_updates _ _ _ _)
    (inst.updateOverflow_updates _ _ _ _)

end Updates

end Instruction

section Execute

variable (symbols : HostSymbols) (inst : Instruction) {dst : Register}

/-- The computation itself. -/
theorem operation_updates
    {operation : Inst}
    (computation : operation.isComputation = true)
    (target : operation.target = some dst) :
    UpdatesFields [dst, .t4] [operation] :=
  UpdatesFields.compute
    (Inst.computesInto_of_target computation target (by simp))

theorem Logic.execute_updates
    {operation : Inst}
    (computation : operation.isComputation = true)
    (target : operation.target = some dst) :
    UpdatesFields [dst, .t4] (Logic.execute inst operation) :=
  Updates.append (operation_updates computation target)
    (inst.clearFlags_updates.mono (by simp))

theorem Shift.execute_updates
    {operation : Inst}
    (computation : operation.isComputation = true)
    (target : operation.target = some dst)
    (name : String) :
    UpdatesFields [dst, .t4] (Shift.execute symbols inst operation name) :=
  Updates.append (operation_updates computation target)
    ((inst.unsupported_updates (symbols.text name) .t4).mono (by simp))

theorem Add.executeRegister_updates (src : Register) :
    UpdatesFields [dst, .t4] (Add.executeRegister inst dst src) :=
  Updates.append
    (Updates.append ((inst.updateOverflow_updates _ _ _ _).mono (by simp))
      (operation_updates rfl rfl))
    ((inst.updateCarry_updates _ _ _ _).mono (by simp))

/-- The entries for the addition of an immediate. -/
def Add.immediateEntries (imm : BitVec 64) :
    JumpTable.Entry × JumpTable.Entry :=
  if (0 : BitVec 64).sle imm then
    inst.destinationEntries .carryAdd .overflowAddPos
  else
    inst.destinationEntries .carryAdd .overflowAddNeg

/-- The operand is stored in front of the addition, the result behind it. -/
theorem Add.executeImmediate_eq (imm : BitVec 64) :
    Add.executeImmediate inst dst imm =
      inst.updateCarry (immediateEntries inst imm).1 dst none .t4 ++
        inst.updateOverflow (immediateEntries inst imm).2 dst none .t4 ++
        [addi dst dst (imm.setWidth 16)] ++
        (inst.updateCarry none none dst .zero ++
          inst.updateOverflow none none dst .zero) :=
  List.append_assoc _ _ _

theorem Add.executeImmediate_updates (imm : BitVec 64) :
    UpdatesFields [dst, .t4] (Add.executeImmediate inst dst imm) := by
  rw [executeImmediate_eq]
  exact Updates.append
    (Updates.append
      (Updates.append ((inst.updateCarry_updates _ _ _ _).mono (by simp))
        ((inst.updateOverflow_updates _ _ _ _).mono (by simp)))
      (operation_updates rfl rfl))
    ((Updates.append (inst.carryValues_updates _ _ _)
      (inst.overflowValues_updates _ _ _)).mono (by simp))

theorem Sub.executeRegister_updates (src : Register) :
    UpdatesFields [dst, .t4] (Sub.executeRegister inst dst src) :=
  Updates.append
    (Updates.append
      (Updates.append ((inst.updateCarry_updates _ _ _ _).mono (by simp))
        ((inst.updateOverflow_updates _ _ _ _).mono (by simp)))
      (operation_updates rfl rfl))
    ((inst.carryValues_updates _ _ _).mono (by simp))

/-- The subtraction of an immediate.  The smallest one takes two steps. -/
def Sub.subtractImmediate (dst : Register) (imm : BitVec 64) : List Inst :=
  if imm = -0x800 then
    [addi dst dst 1, addi dst dst ((-imm - 1).setWidth 16)]
  else
    [addi dst dst ((-imm).setWidth 16)]

theorem Sub.subtractImmediate_computesInto (imm : BitVec 64) :
    ComputesInto [dst] (subtractImmediate dst imm) := by
  unfold subtractImmediate
  split
  · exact ComputesInto.cons_iff.mpr
      ⟨Inst.computesInto_of_target rfl rfl (by simp),
        ComputesInto.singleton rfl rfl (by simp)⟩
  · exact ComputesInto.singleton rfl rfl (by simp)

theorem Sub.executeImmediate_eq (imm : BitVec 64) :
    Sub.executeImmediate inst dst imm =
      inst.updateCarry (immediateEntries inst imm).1 none dst .t4 ++
        inst.updateOverflow (immediateEntries inst imm).2 dst none .t4 ++
        subtractImmediate dst imm ++
        (inst.updateCarry none dst none .zero ++
          inst.updateOverflow none none dst .zero) :=
  List.append_assoc _ _ _

theorem Sub.executeImmediate_updates (imm : BitVec 64) :
    UpdatesFields [dst, .t4] (Sub.executeImmediate inst dst imm) := by
  rw [executeImmediate_eq]
  exact Updates.append
    (Updates.append
      (Updates.append ((inst.updateCarry_updates _ _ _ _).mono (by simp))
        ((inst.updateOverflow_updates _ _ _ _).mono (by simp)))
      ((UpdatesFields.computeInto (subtractImmediate_computesInto imm)).mono
        (by simp)))
    ((Updates.append (inst.carryValues_updates _ _ _)
      (inst.overflowValues_updates _ _ _)).mono (by simp))

namespace BinaryOperation

/-- `execute_operation` of every operation that does not evaluate a flag. -/
theorem executeRegister_updates
    {operation : BinaryOperation}
    (evaluatesNothing : operation ≠ adc)
    (src : Register) :
    UpdatesFields [dst, .t4]
      (operation.executeRegister symbols inst dst src) := by
  cases operation with
  | add => exact Add.executeRegister_updates inst src
  | adc => exact absurd rfl evaluatesNothing
  | sub => exact Sub.executeRegister_updates inst src
  | and | or | xor => exact Logic.execute_updates inst rfl rfl
  | shl | shr | sar => exact Shift.execute_updates symbols inst rfl rfl _

@[inherit_doc executeRegister_updates]
theorem executeImmediate_updates
    {operation : BinaryOperation}
    (evaluatesNothing : operation ≠ adc)
    (imm : BitVec 64) :
    UpdatesFields [dst, .t4]
      (operation.executeImmediate symbols inst dst imm) := by
  cases operation with
  | add => exact Add.executeImmediate_updates inst imm
  | adc => exact absurd rfl evaluatesNothing
  | sub => exact Sub.executeImmediate_updates inst imm
  | and | or | xor => exact Logic.execute_updates inst rfl rfl
  | shl | shr | sar => exact Shift.execute_updates symbols inst rfl rfl _

end BinaryOperation

theorem UnaryOperation.execute_updates (operation : UnaryOperation) :
    UpdatesFields [dst, .t4] (operation.execute inst dst) := by
  cases operation with
  | inc | dec =>
      exact Updates.append
        ((inst.updateOverflow_updates _ _ _ _).mono (by simp))
        (operation_updates rfl rfl)
  | neg =>
      exact Updates.append
        (Updates.append ((inst.updateCarry_updates _ _ _ _).mono (by simp))
          ((inst.updateOverflow_updates _ _ _ _).mono (by simp)))
        (operation_updates rfl rfl)
  | not => exact operation_updates rfl rfl

/-! ## Values of the operations -/

section Values

variable {src : Register} {pc : Word} {state : State}

/-- The updates around a computation do not change what it computes. -/
theorem applyAll_between
    {before operation after : List Inst}
    (beforeUpdates : UpdatesFields [.t4] before)
    (afterUpdates : UpdatesFields [.t4] after)
    (notTemp : dst ≠ .t4)
    {value : Word}
    (computes : ∀ pc between,
      (∀ register, register ≠ .t4 ->
        between.get register = state.get register) ->
      (applyAll pc between operation).get dst = value) :
    (applyAll pc state (before ++ operation ++ after)).get dst = value := by
  rw [applyAll_append, applyAll_append, afterUpdates.get _ _ (by simpa),
    computes]
  intro register other
  exact beforeUpdates.get _ _ (by simpa)

variable (notTemp : dst ≠ .t4)

include notTemp

theorem Logic.execute_value
    {operation : Inst}
    {value : Word}
    (computes : ∀ pc, (operation.apply pc state).get dst = value) :
    (applyAll pc state (Logic.execute inst operation)).get dst = value := by
  have clears := inst.clearFlags_updates
  rw [Logic.execute, applyAll_cons, clears.get _ _ (by simpa), computes]

theorem Shift.execute_value
    {operation : Inst}
    {value : Word}
    (name : String)
    (computes : ∀ pc, (operation.apply pc state).get dst = value) :
    (applyAll pc state (Shift.execute symbols inst operation name)).get dst =
      value := by
  have reports := inst.unsupported_updates (symbols.text name) .t4
  rw [Shift.execute, applyAll_cons, reports.get _ _ (by simpa), computes]

variable (nonzero : dst ≠ .zero)

include nonzero

omit notTemp in
/-- The negated immediate fits into one instruction or into two. -/
theorem Sub.subtractImmediate_value
    (small : inst.smallImmediate = true) :
    (applyAll pc state (Sub.subtractImmediate dst inst.immediate)).get dst =
      state.get dst - inst.immediate := by
  unfold subtractImmediate
  split
  · rename_i least
    simp only [applyAll_cons, applyAll_nil, apply_addi, State.set_set,
      State.set_get_self _ _ nonzero, least]
    have steps : signedImm (1 : BitVec 16) +
        signedImm ((-(-0x800 : BitVec 64) - 1).setWidth 16) =
          -(-0x800 : Word) := by decide
    rw [BitVec.add_assoc, steps, BitVec.sub_eq_add_neg]
  · rename_i notLeast
    rw [applyAll_cons, applyAll_nil, apply_addi,
      State.set_get_self _ _ nonzero, signedImm_setWidth _ (by decide),
      inst.signedImm_neg_immediate small notLeast, BitVec.sub_eq_add_neg]

namespace BinaryOperation

/-- The result of an operation on a register. -/
theorem executeRegister_value
    {operation : BinaryOperation}
    (evaluatesNothing : operation ≠ adc)
    (srcNotTemp : src ≠ .t4) :
    (applyAll pc state
        (operation.executeRegister symbols inst dst src)).get dst =
      operation.word (state.get dst) (state.get src) false := by
  cases operation with
  | add =>
      refine applyAll_between (inst.updateOverflow_updates _ _ _ _)
        (inst.updateCarry_updates _ _ _ _) notTemp ?_
      intro pc between same
      simp only [applyAll_cons, applyAll_nil, apply_add,
        State.set_get_self _ _ nonzero, same _ notTemp, same _ srcNotTemp,
        word, BitVec.add_comm]
  | adc => exact absurd rfl evaluatesNothing
  | sub =>
      refine applyAll_between
        (Updates.append (inst.updateCarry_updates _ _ _ _)
          (inst.updateOverflow_updates _ _ _ _))
        ((inst.carryValues_updates _ _ _).mono (by simp)) notTemp ?_
      intro pc between same
      simp only [applyAll_cons, applyAll_nil, apply_sub,
        State.set_get_self _ _ nonzero, same _ notTemp, same _ srcNotTemp,
        word]
  | and | or | xor =>
      apply Logic.execute_value inst notTemp
      intro pc
      simp [State.set_get_self _ _ nonzero, word]
  | shl | shr | sar =>
      apply Shift.execute_value symbols inst notTemp
      intro pc
      simp [State.set_get_self _ _ nonzero, word]

/-- The result of an operation on a small immediate. -/
theorem executeImmediate_value
    {operation : BinaryOperation}
    (evaluatesNothing : operation ≠ adc)
    (small : inst.smallImmediate = true) :
    (applyAll pc state
        (operation.executeImmediate symbols inst dst inst.immediate)).get dst =
      operation.word (state.get dst) inst.immediate false := by
  have immediate := inst.signedImm_immediate small
  cases operation with
  | add =>
      rw [executeImmediate, Add.executeImmediate_eq]
      refine applyAll_between
        (Updates.append (inst.updateCarry_updates _ _ _ _)
          (inst.updateOverflow_updates _ _ _ _))
        ((Updates.append (inst.carryValues_updates _ _ _)
          (inst.overflowValues_updates _ _ _)).mono (by simp)) notTemp ?_
      intro pc between same
      simp only [applyAll_cons, applyAll_nil, apply_addi,
        State.set_get_self _ _ nonzero, same _ notTemp, word, immediate,
        signedImm_setWidth _ (by decide : 12 ≤ 16)]
  | adc => exact absurd rfl evaluatesNothing
  | sub =>
      rw [executeImmediate, Sub.executeImmediate_eq]
      refine applyAll_between
        (Updates.append (inst.updateCarry_updates _ _ _ _)
          (inst.updateOverflow_updates _ _ _ _))
        ((Updates.append (inst.carryValues_updates _ _ _)
          (inst.overflowValues_updates _ _ _)).mono (by simp)) notTemp ?_
      intro pc between same
      rw [Sub.subtractImmediate_value inst nonzero small, same _ notTemp]
      rfl
  | and | or | xor =>
      apply Logic.execute_value inst notTemp
      intro pc
      simp [State.set_get_self _ _ nonzero, word, immediate]
  | shl | shr | sar =>
      apply Shift.execute_value symbols inst notTemp
      intro pc
      simp [State.set_get_self _ _ nonzero, word, shiftAmount]

end BinaryOperation

end Values

end Execute

end Oxtra

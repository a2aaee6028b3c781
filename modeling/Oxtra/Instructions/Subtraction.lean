import Oxtra.Instructions.DirectLoads
import Oxtra.Instructions.RegisterOperations

/-!
# Subtractions

`SUB` and `CMP` store the same operands of the flags around the computation of
the difference, which `SUB` leaves in its destination and `CMP` in a
temporary.
-/

namespace Oxtra

open RiscV
open Encoding
open Helper
open FlagInfo
open Instruction
open Fadec (Operand OperandSize)

/-! ## Code around the difference -/

section Code

variable (inst : Instruction) (dst src result : Register)
variable (computation : List Inst)

/-- The code around the difference of two registers. -/
def registerDifference : List Inst :=
  let (carry, overflow) := inst.destinationEntries .carryAdd .overflowSub
  inst.updateCarry carry none dst .t4 ++
    inst.updateOverflow overflow src dst .t4 ++
    computation ++
    inst.updateCarry none result none .zero

/-- The code around the difference of a register and an immediate. -/
def immediateDifference : List Inst :=
  let (carry, overflow) := Sub.immediateEntries inst inst.immediate
  inst.updateCarry carry none dst .t4 ++
    inst.updateOverflow overflow dst none .t4 ++
    computation ++
    (inst.updateCarry none result none .zero ++
      inst.updateOverflow none none result .zero)

theorem Sub.executeRegister_eq :
    Sub.executeRegister inst dst src =
      registerDifference inst dst src dst [sub dst dst src] := rfl

theorem Cmp.executeRegister_eq :
    Cmp.executeRegister inst dst src =
      (registerDifference inst dst src .t5 [sub .t5 dst src], .t5) := rfl

theorem Sub.executeImmediate_difference :
    Sub.executeImmediate inst dst inst.immediate =
      immediateDifference inst dst dst
        (Sub.subtractImmediate dst inst.immediate) :=
  Sub.executeImmediate_eq inst inst.immediate

end Code

/-! ## Contents of the fields -/

/-- The fields after the difference of two registers. -/
def registerContents
    (size : OperandSize)
    (first second result : Word)
    (contents : Field -> Word) : Field -> Word :=
  carrySlots.write none (some result) none
    (overflowSlots.write (some (.overflowSub size.width)) (some second)
      (some first)
      (carrySlots.write (some (.carryAdd size.width)) none (some first)
        contents))

/-- The fields after the difference of a register and an immediate. -/
def immediateDifferenceContents
    (entry : JumpTable.Entry)
    (size : OperandSize)
    (first result : Word)
    (contents : Field -> Word) : Field -> Word :=
  overflowSlots.write none none (some result)
    (carrySlots.write none (some result) none
      (overflowSlots.write (some entry) (some first) none
        (carrySlots.write (some (.carryAdd size.width)) none (some first)
          contents)))

/-- The entry for the overflow of the difference of a register and an
immediate, which is a sum. -/
def overflowEntry (inst : Instruction) : JumpTable.Entry :=
  if (0 : BitVec 64).sle inst.immediate then
    .overflowAddNeg inst.destinationSize.width
  else
    .overflowAddPos inst.destinationSize.width

theorem immediateEntries_eq (inst : Instruction) :
    Sub.immediateEntries inst inst.immediate =
      (.carryAdd inst.destinationSize.width, overflowEntry inst) := by
  unfold Sub.immediateEntries overflowEntry
  split <;> rfl

section Fields

variable (inst : Instruction) {dst src result : Register}
variable {computation : List Inst} {temps : List Register}
variable (pc : Word) (state : State)

/-- A computation keeps the fields. -/
theorem fields_computesInto
    (computes : ComputesInto temps computation)
    (notContext : contextAddress ∉ temps) :
    fields (applyAll pc state computation) = fields state :=
  fields_congr (computes.mem _ _) (computes.get _ _ notContext)

theorem registerDifference_updates
    (computes : ComputesInto temps computation) :
    UpdatesFields (.t4 :: temps)
      (registerDifference inst dst src result computation) :=
  Updates.append
    (Updates.append
      (Updates.append ((inst.updateCarry_updates _ _ _ _).mono (by simp))
        ((inst.updateOverflow_updates _ _ _ _).mono (by simp)))
      ((UpdatesFields.computeInto computes).mono
        fun _ member => List.mem_cons_of_mem _ member))
    ((inst.carryValues_updates _ _ _).mono (by simp))

theorem immediateDifference_updates
    (computes : ComputesInto temps computation) :
    UpdatesFields (.t4 :: temps)
      (immediateDifference inst dst result computation) :=
  Updates.append
    (Updates.append
      (Updates.append ((inst.updateCarry_updates _ _ _ _).mono (by simp))
        ((inst.updateOverflow_updates _ _ _ _).mono (by simp)))
      ((UpdatesFields.computeInto computes).mono
        fun _ member => List.mem_cons_of_mem _ member))
    ((Updates.append (inst.carryValues_updates _ _ _)
      (inst.overflowValues_updates _ _ _)).mono (by simp))

variable (all : inst.updateFlags = Flags.all)
variable (computes : ComputesInto temps computation)
variable (notContext : contextAddress ∉ temps)
variable (dstNotTemp : dst ≠ .t4) (resultNonzero : result ≠ .zero)

include all computes notContext dstNotTemp resultNonzero

/-- The value of the result is that behind the computation, which runs in a
state that differs in the temporary for the entries only. -/
theorem registerDifference_fields
    (srcNotTemp : src ≠ .t4)
    {value : Word}
    (computed : ∀ pc between,
      (∀ register, register ≠ .t4 ->
        between.get register = state.get register) ->
      (applyAll pc between computation).get result = value) :
    fields (applyAll pc state
        (registerDifference inst dst src result computation)) =
      registerContents inst.destinationSize (state.get dst) (state.get src)
        value (fields state) := by
  have carry := mem_updateFlags all .carry
  have overflow := mem_updateFlags all .overflow
  let entries := inst.destinationEntries .carryAdd .overflowSub
  have updates := Updates.append
    (inst.updateCarry_updates entries.1 none dst .t4)
    (inst.updateOverflow_updates entries.2 src dst .t4)
  rw [registerDifference]
  simp only
  rw [applyAll_append, inst.updateCarry_fields carry _ _ _ (by simp)
      (by simpa using resultNonzero) (by simp),
    applyAll_append, fields_computesInto _ _ computes notContext,
    inst.updateBoth_fields carry overflow _ _ (fun _ => by decide)
      (fun _ => by decide) (by simp [dstNotTemp, srcNotTemp])]
  simp only [Option.map_some, Option.map_none]
  rw [computed _ _ fun register other => updates.get _ _ (by simpa)]
  rfl

@[inherit_doc registerDifference_fields]
theorem immediateDifference_fields
    {value : Word}
    (computed : ∀ pc between,
      (∀ register, register ≠ .t4 ->
        between.get register = state.get register) ->
      (applyAll pc between computation).get result = value) :
    fields (applyAll pc state
        (immediateDifference inst dst result computation)) =
      immediateDifferenceContents (overflowEntry inst) inst.destinationSize
        (state.get dst) value (fields state) := by
  have carry := mem_updateFlags all .carry
  have overflow := mem_updateFlags all .overflow
  let entries := Sub.immediateEntries inst inst.immediate
  have updates := Updates.append
    (inst.updateCarry_updates entries.1 none dst .t4)
    (inst.updateOverflow_updates entries.2 dst none .t4)
  rw [immediateDifference]
  simp only
  rw [applyAll_append, inst.updateBoth_fields carry overflow _ _ (by simp)
      (by simp) (by simpa using resultNonzero),
    applyAll_append, fields_computesInto _ _ computes notContext,
    inst.updateBoth_fields carry overflow _ _ (fun _ => by decide)
      (fun _ => by decide) (by simp [dstNotTemp])]
  simp only [Option.map_some, Option.map_none]
  rw [computed _ _ fun register other => updates.get _ _ (by simpa),
    immediateEntries_eq]
  rfl

end Fields

/-! ## Flags of a difference -/

/-- The flags that are evaluated after a difference, which need not be the
right one. -/
def differenceFlags
    (inst : Instruction)
    (first second result : BitVec inst.destinationSize.bits) : Flag -> Bool :=
  resultFlags result (first.toNat < result.toNat)
    (if inst.immediateSource then
      if (0 : BitVec 64).sle inst.immediate then
        first.toInt < result.toInt
      else
        result.toInt < first.toInt
    else
      ¬ Wrapped.Fits inst.destinationSize.bits
        (first.toInt - second.toInt))

section Flags

variable {inst : Instruction}
variable {first second result : Word}

theorem evaluated_registerDifference
    (noImmediate : inst.immediateSource = false)
    (contents : Field -> Word) :
    let size := inst.destinationSize
    Evaluated
      (resultContents Flags.all result size
        (registerContents size first second result contents))
      (differenceFlags inst (first.setWidth size.bits)
        (second.setWidth size.bits) (result.setWidth size.bits)) := by
  intro size
  refine evaluated_result ⟨.carryAdd size.width, rfl, ?_⟩
    ⟨.overflowSub size.width, rfl, ?_⟩
  · change (JumpTable.Entry.carryAdd size.width).carryFlag result first = _
    simp only [JumpTable.Entry.carryFlag, unsignedPart_size]
  · change (JumpTable.Entry.overflowSub size.width).overflowFlag second
      first = _
    simp only [JumpTable.Entry.overflowFlag, signedPart_size,
      OperandSize.width_bits, noImmediate, Bool.false_eq_true, if_false,
      decide_not]
    rfl

theorem evaluated_immediateDifference
    (immediate : inst.immediateSource = true)
    (second : BitVec inst.destinationSize.bits)
    (contents : Field -> Word) :
    let size := inst.destinationSize
    Evaluated
      (resultContents Flags.all result size
        (immediateDifferenceContents (overflowEntry inst) size first result
          contents))
      (differenceFlags inst (first.setWidth size.bits) second
        (result.setWidth size.bits)) := by
  intro size
  refine evaluated_result ⟨.carryAdd size.width, rfl, ?_⟩
    ⟨overflowEntry inst, rfl, ?_⟩
  · change (JumpTable.Entry.carryAdd size.width).carryFlag result first = _
    simp only [JumpTable.Entry.carryFlag, unsignedPart_size]
  · change (overflowEntry inst).overflowFlag first result = _
    simp only [overflowEntry, immediate, if_true]
    split
    · simp only [JumpTable.Entry.overflowFlag, signedPart_size]
      rfl
    · simp only [JumpTable.Entry.overflowFlag, signedPart_size]
      rfl

/-- The flags of the right difference are those of x86. -/
theorem differenceFlags_eq
    (form : inst.RegisterForm)
    (state : State) :
    differenceFlags inst (inst.firstBits state) (inst.secondBits state)
        (inst.firstBits state - inst.secondBits state) =
      subtractionFlags (inst.firstBits state) (inst.secondBits state) := by
  let size := inst.destinationSize
  let minuend := inst.firstBits state
  let subtrahend := inst.secondBits state
  have carry : (minuend.toNat < (minuend - subtrahend).toNat) =
      (minuend.toNat < subtrahend.toNat) :=
    propext (lt_sub_iff minuend subtrahend)
  have fits := fits_toInt size minuend
  have wrapped : (minuend - subtrahend).toInt =
      Wrapped.wrap size.bits (minuend.toInt + -subtrahend.toInt) := by
    rw [BitVec.toInt_sub, Int.sub_eq_add_neg]
    rfl
  obtain ⟨lower, upper⟩ := fits_toInt size subtrahend
  rw [differenceFlags, subtractionFlags]
  congr 1
  · exact decide_eq_decide.mpr (iff_of_eq carry)
  · split
    · rename_i immediate
      obtain ⟨isImm, -⟩ := Bool.and_eq_true_iff.mp immediate
      have number : inst.immediate.toInt = subtrahend.toInt := by
        rw [← form.immediate isImm, ← inst.secondBits_immediate isImm state]
        exact BitVec.toInt_signExtend_of_le size.bits_le
      have sign : (0 : BitVec 64).sle inst.immediate = true ↔
          0 ≤ subtrahend.toInt := by
        rw [BitVec.sle_iff_toInt_le, number]
        rfl
      split
      · rename_i positive
        rw [sign] at positive
        have less := Wrapped.lt_wrap_add_iff size.bits_pos fits
          (by omega : -2 ^ (size.bits - 1) ≤ -subtrahend.toInt) (by omega)
        rw [← wrapped, ← Int.sub_eq_add_neg] at less
        exact decide_eq_decide.mpr less
      · rename_i negative
        rw [sign] at negative
        have less := Wrapped.wrap_add_lt_iff size.bits_pos fits
          (by omega : 0 ≤ -subtrahend.toInt) (by omega)
        rw [← wrapped, ← Int.sub_eq_add_neg] at less
        exact decide_eq_decide.mpr less
    · rfl

end Flags

/-! ## Code that computes a difference -/

/-- Some code leaves a difference in a register, and makes its flags together
with the updates that follow it. -/
structure Subtracts
    (inst : Instruction)
    (code : List Inst)
    (temps : List Register)
    (result : Register)
    (before : State)
    (first second : BitVec inst.destinationSize.bits)
    (value : Word) : Prop where
  updates : UpdatesFields (.t4 :: temps) code
  computed : ∀ pc, (applyAll pc before code).get result = value
  evaluated : ∀ pc, Evaluated
    (resultContents Flags.all value inst.destinationSize
      (fields (applyAll pc before code)))
    (differenceFlags inst first second
      (value.setWidth inst.destinationSize.bits))

section Subtracts

variable {inst : Instruction} {dst src result : Register}
variable {computation : List Inst} {temps : List Register}
variable {before : State} {value : Word}
variable (all : inst.updateFlags = Flags.all)
variable (computes : ComputesInto temps computation)
variable (notContext : contextAddress ∉ temps)
variable (dstNotTemp : dst ≠ .t4)
variable (resultNonzero : result ≠ .zero) (resultNotTemp : result ≠ .t4)
variable (computed : ∀ pc between,
  (∀ register, register ≠ .t4 ->
    between.get register = before.get register) ->
  (applyAll pc between computation).get result = value)

include all computes notContext dstNotTemp resultNonzero resultNotTemp computed

theorem registerDifference_subtracts
    (srcNotTemp : src ≠ .t4)
    (noImmediate : inst.immediateSource = false) :
    Subtracts inst (registerDifference inst dst src result computation) temps
      result before
      ((before.get dst).setWidth inst.destinationSize.bits)
      ((before.get src).setWidth inst.destinationSize.bits) value where
  updates := registerDifference_updates inst computes
  computed pc :=
    applyAll_between
      (Updates.append (inst.updateCarry_updates _ _ _ _)
        (inst.updateOverflow_updates _ _ _ _))
      ((inst.carryValues_updates _ _ _).mono (by simp)) resultNotTemp
      computed
  evaluated pc := by
    rw [registerDifference_fields inst pc before all computes notContext
      dstNotTemp resultNonzero srcNotTemp computed]
    exact evaluated_registerDifference noImmediate _

theorem immediateDifference_subtracts
    (immediate : inst.immediateSource = true)
    (second : BitVec inst.destinationSize.bits) :
    Subtracts inst (immediateDifference inst dst result computation) temps
      result before
      ((before.get dst).setWidth inst.destinationSize.bits) second value where
  updates := immediateDifference_updates inst computes
  computed pc :=
    applyAll_between
      (Updates.append (inst.updateCarry_updates _ _ _ _)
        (inst.updateOverflow_updates _ _ _ _))
      ((Updates.append (inst.carryValues_updates _ _ _)
        (inst.overflowValues_updates _ _ _)).mono (by simp)) resultNotTemp
      computed
  evaluated pc := by
    rw [immediateDifference_fields inst pc before all computes notContext
      dstNotTemp resultNonzero computed]
    exact evaluated_immediateDifference immediate second _

end Subtracts

/-! ## The code of `SUB` -/

section Subtract

variable {inst : Instruction} {runtime : JumpTable.Runtime}
variable {env : Environment} {state prepared : State}

/-- `SUB` leaves the difference of the words in its destination. -/
theorem sub_subtracts
    (symbols : HostSymbols)
    (operands : inst.RegisterOperands)
    (all : inst.updateFlags = Flags.all)
    (loaded : inst.Prepared state prepared) :
    ∃ value, value.setWidth inst.destinationSize.bits =
        inst.firstBits state - inst.secondBits state ∧
      Subtracts inst (BinaryOperation.execute .sub symbols inst)
        [inst.workRegister] inst.workRegister prepared (inst.firstBits state)
        (inst.secondBits state) value := by
  obtain ⟨work, workOutside⟩ := operands.inRegister.workRegister_scratch
  have workNotTemp : inst.workRegister ≠ .t4 := by
    rintro same
    exact workOutside (same ▸ by decide)
  have notContext : contextAddress ∉ [inst.workRegister] := by
    simpa using work.2.symm
  rw [← loaded.first]
  by_cases immediate : inst.immediateSource = true
  · obtain ⟨isImm, small⟩ := Bool.and_eq_true_iff.mp immediate
    have code : BinaryOperation.execute .sub symbols inst =
        immediateDifference inst inst.workRegister inst.workRegister
          (Sub.subtractImmediate inst.workRegister inst.immediate) := by
      rw [BinaryOperation.execute,
        if_neg (not_not_intro (operands.source_eq_zero.mpr immediate))]
      exact Sub.executeImmediate_difference inst inst.workRegister
    refine ⟨prepared.get inst.workRegister - inst.immediate, ?_, ?_⟩
    · rw [setWidth_sub,
        inst.secondBits_immediate isImm]
    · rw [code]
      apply immediateDifference_subtracts all
        (Sub.subtractImmediate_computesInto inst.immediate) notContext
        workNotTemp work.1 workNotTemp ?_ immediate
      intro pc between same
      rw [Sub.subtractImmediate_value inst work.1 small,
        same _ workNotTemp]
  · have noImmediate : inst.immediateSource = false := by
      simpa using immediate
    obtain ⟨source, sourceOutside⟩ := operands.source_scratch noImmediate
    have sourceNotTemp : inst.translateSource.value ≠ .t4 := by
      rintro same
      exact sourceOutside (same ▸ by decide)
    have code : BinaryOperation.execute .sub symbols inst =
        registerDifference inst inst.workRegister inst.translateSource.value
          inst.workRegister [sub inst.workRegister inst.workRegister
            inst.translateSource.value] := by
      rw [BinaryOperation.execute, if_pos source.1]
      rfl
    rw [← loaded.second noImmediate]
    refine ⟨prepared.get inst.workRegister -
      prepared.get inst.translateSource.value, ?_, ?_⟩
    · exact setWidth_sub _ _ _
    · rw [code]
      apply registerDifference_subtracts all
        (ComputesInto.singleton rfl rfl (by simp)) notContext workNotTemp
        work.1 workNotTemp ?_ sourceNotTemp noImmediate
      intro pc between same
      rw [applyAll_cons, applyAll_nil, apply_sub,
        State.set_get_self _ _ work.1, same _ workNotTemp,
        same _ sourceNotTemp]

/-- The subtraction leaves the difference and its flags. -/
theorem subtraction_leaves
    (symbols : HostSymbols)
    (operands : inst.RegisterOperands)
    (all : inst.updateFlags = Flags.all)
    (permits : env.PermitsEverything)
    (loaded : inst.Prepared state prepared) :
    ∃ after, inst.Leaves (JumpTable.dispatch runtime env)
      (BinaryOperation.execute .sub symbols inst) prepared after
      (inst.firstBits state - inst.secondBits state)
      (differenceFlags inst (inst.firstBits state) (inst.secondBits state)
        (inst.firstBits state - inst.secondBits state)) := by
  obtain ⟨value, bits, subtracts⟩ := sub_subtracts symbols operands all loaded
  refine ⟨_, leaves_of_updates permits (subtracts.updates.mono (by simp))
    ?_ ?_⟩
  · rw [subtracts.computed, bits]
  · rw [subtracts.computed, ← bits]
    exact subtracts.evaluated _

/-- The code of `SUB` computes what it should if and only if the flags of the
difference are the right ones. -/
theorem subtraction_computes_iff
    (symbols : HostSymbols)
    (operands : inst.RegisterOperands)
    (all : inst.updateFlags = Flags.all)
    (permits : env.PermitsEverything)
    (aligned : TableAligned state)
    (flags : Flag -> Bool) :
    let difference := inst.firstBits state - inst.secondBits state
    inst.Computes runtime env (BinaryOperation.generate symbols inst .sub)
        difference flags state ↔
      differenceFlags inst (inst.firstBits state) (inst.secondBits state)
        difference = flags := by
  let loading := inst.translateSource.code ++ inst.translateFirst.code
  have further : (env.shift loading.length).PermitsEverything := permits
  obtain ⟨after, leaves⟩ := @subtraction_leaves inst runtime
    (env.shift loading.length) state _ symbols operands all further
    (operands.prepared env.origin state)
  rw [BinaryOperation.generate_eq .sub symbols operands.inRegister]
  exact operands.computes_iff permits aligned all leaves flags

/-- Subtractions of registers and of immediates leave the difference, the other
registers and the flags of x86. -/
theorem subtraction_computes
    (symbols : HostSymbols)
    (form : inst.RegisterForm)
    (all : inst.updateFlags = Flags.all)
    (runtime : JumpTable.Runtime)
    {env : Environment}
    (permits : env.PermitsEverything)
    {state : State}
    (aligned : TableAligned state) :
    inst.Computes runtime env (BinaryOperation.generate symbols inst .sub)
      (inst.firstBits state - inst.secondBits state)
      (subtractionFlags (inst.firstBits state) (inst.secondBits state))
      state :=
  (subtraction_computes_iff symbols form.toRegisterOperands all permits
    aligned _).mpr (differenceFlags_eq form state)

end Subtract

/-- `sub rax, immediate` -/
def subRax (immediate : BitVec 64) : Instruction :=
  (InstructionClass.binaryOperation .sub).construct
    { type := .subImm
      operands := [.reg .qword 0 .gpl, .imm .qword]
      immediate := immediate }

theorem subRax_registerForm (immediate : BitVec 64) :
    (subRax immediate).RegisterForm where
  first := rfl
  second := Or.inr rfl
  firstValid := rfl
  secondValid := rfl
  sameSize := rfl
  immediate _ := by
    change (immediate.setWidth 64).signExtend 64 = immediate
    rw [BitVec.setWidth_eq, BitVec.signExtend_eq]

/-- The difference borrows. -/
theorem subtraction_computes_subRax :
    let state := zeroState.set (mapReg 0) 0x12345
    (subRax (-0x800)).Computes (fun _ _ => none) Stub.environment
      (BinaryOperation.generate sampleSymbols (subRax (-0x800)) .sub)
      ((subRax (-0x800)).firstBits state - (subRax (-0x800)).secondBits state)
      (subtractionFlags ((subRax (-0x800)).firstBits state)
        ((subRax (-0x800)).secondBits state)) state :=
  subtraction_computes sampleSymbols (subRax_registerForm _) rfl _
    (fun _ _ => rfl) (by decide)

end Oxtra

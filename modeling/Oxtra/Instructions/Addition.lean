import Oxtra.Instructions.DirectLoads
import Oxtra.Instructions.RegisterOperations

/-!
# Additions

The code of `ADD` and `ADC` stores the operands of the carry flag behind the
addition.  They are the right ones unless the addition has overwritten its
source.
-/

namespace Oxtra

open RiscV
open Encoding
open Helper
open FlagInfo
open Instruction
open Fadec (Operand OperandSize)

/-! ## Stored operands -/

/-- The entries for a sum with some carry. -/
def additionEntries (size : OperandSize) (carry : Bool) :
    JumpTable.Entry × JumpTable.Entry :=
  if carry then
    (.carryAdc size.width, .overflowAdc size.width)
  else
    (.carryAdd size.width, .overflowAdd size.width)

/-- The fields after the sum of two registers: the values for the carry flag
are read behind the addition. -/
def additionContents
    (size : OperandSize)
    (carry : Bool)
    (dst src : Register)
    (state : State)
    (contents : Field -> Word) : Field -> Word :=
  let sum := state.get dst + state.get src + bit carry
  carrySlots.write (some (additionEntries size carry).1)
    (some ((state.set dst sum).get src)) (some sum)
    (overflowSlots.write (some (additionEntries size carry).2)
      (some (state.get src)) (some (state.get dst)) contents)

section Evaluated

variable {size : OperandSize} {carry : Bool} {dst src : Register}
variable {state : State} {first second : BitVec size.bits}

theorem bit_setWidth (size : OperandSize) (carry : Bool) :
    (bit carry).setWidth size.bits = BitVec.ofNat size.bits carry.toNat := by
  cases carry <;> cases size <;> rfl

/-- The sum of two words has the bits of the sum of their parts. -/
theorem addition_setWidth
    (firstBits : (state.get dst).setWidth size.bits = first)
    (secondBits : (state.get src).setWidth size.bits = second) :
    (state.get dst + state.get src + bit carry).setWidth size.bits =
      addition first second carry := by
  rw [BitVec.setWidth_add _ _ size.bits_le, BitVec.setWidth_add _ _
    size.bits_le, firstBits, secondBits, bit_setWidth, addition]

/-- The flags that are evaluated after the sum of two registers.  An
overwritten source makes the carry what it was before. -/
theorem evaluated_addition
    (nonzero : dst ≠ .zero)
    (firstBits : (state.get dst).setWidth size.bits = first)
    (secondBits : (state.get src).setWidth size.bits = second)
    (contents : Field -> Word) :
    Evaluated
      (resultContents Flags.all (state.get dst + state.get src + bit carry)
        size (additionContents size carry dst src state contents))
      (resultFlags (addition first second carry)
        (if src = dst then carry
          else additionFlags first second carry .carry)
        (additionFlags first second carry .overflow)) := by
  have result := @addition_setWidth size carry dst src state first second
    firstBits secondBits
  rw [← result]
  refine evaluated_result ⟨(additionEntries size carry).1, rfl, ?_⟩
    ⟨(additionEntries size carry).2, rfl, ?_⟩
  · change (additionEntries size carry).1.carryFlag
      ((state.set dst (state.get dst + state.get src + bit carry)).get src)
      (state.get dst + state.get src + bit carry) = _
    by_cases same : src = dst
    · subst same
      rw [State.set_get_self _ _ nonzero, if_pos rfl]
      cases carry <;>
        simp [additionEntries, JumpTable.Entry.carryFlag]
    · rw [State.set_get_of_ne _ _ same, if_neg same]
      cases carry with
      | false => exact carryAdd_flag secondBits result
      | true => exact carryAdc_flag secondBits result
  · change (additionEntries size carry).2.overflowFlag (state.get src)
      (state.get dst) = _
    cases carry with
    | false => exact overflowAdd_flag secondBits firstBits
    | true => exact overflowAdc_flag secondBits firstBits

end Evaluated

/-! ## Additions of registers -/

section Execute

variable (inst : Instruction) {dst src : Register}
variable (pc : Word) (state : State)
variable (all : inst.updateFlags = Flags.all)
variable (scratch : Scratch dst) (dstNotTemp : dst ≠ .t4)
variable (srcNotTemp : src ≠ .t4)

include all scratch dstNotTemp srcNotTemp

theorem Add.executeRegister_fields :
    fields (applyAll pc state (Add.executeRegister inst dst src)) =
      additionContents inst.destinationSize false dst src state
        (fields state) := by
  have carry := mem_updateFlags all .carry
  have overflow := mem_updateFlags all .overflow
  have noCarry : state.get dst + state.get src + bit false =
      state.get src + state.get dst := by
    rw [add_comm (state.get dst)]
    exact BitVec.add_zero _
  let entries := inst.destinationEntries .carryAdd .overflowAdd
  have updates := inst.updateOverflow_updates entries.2 src dst .t4
  have first := updates.get pc state (by simpa : dst ∉ [.t4])
  have second := updates.get pc state (by simpa : src ∉ [.t4])
  change fields (applyAll pc state
    (inst.updateOverflow entries.2 src dst .t4 ++ [add dst src dst] ++
      inst.updateCarry entries.1 src dst .t4)) = _
  rw [applyAll_append, inst.updateCarry_fields carry _ _ _
      (fun _ => by decide) (by simpa) (by simpa), applyAll_append,
    applyAll_cons, applyAll_nil, apply_add, fields_set _ scratch.2,
    inst.updateOverflow_fields overflow _ _ _ (fun _ => by decide)
      (by simpa) (by simpa), first, second]
  simp only [Option.map_some, State.set_get_self _ _ scratch.1,
    State.set_get_congr second]
  rw [additionContents, noCarry]
  rfl

end Execute

/-! ## Additions of immediates -/

theorem additionFlags_comm
    {bits : Nat}
    (first second : BitVec bits)
    (carry : Bool) :
    additionFlags first second carry = additionFlags second first carry := by
  simp only [additionFlags, addition, BitVec.add_comm first,
    Nat.add_comm first.toNat, Int.add_comm first.toInt]

theorem addition_comm
    {bits : Nat}
    (first second : BitVec bits)
    (carry : Bool) :
    addition first second carry = addition second first carry := by
  rw [addition, addition, BitVec.add_comm first]

/-- The fields after the sum of a register and an immediate, or after their
difference: the operand and the result are stored for both flags. -/
def immediateContents
    (entries : JumpTable.Entry × JumpTable.Entry)
    (value result : Word)
    (contents : Field -> Word) : Field -> Word :=
  overflowSlots.write none none (some result)
    (carrySlots.write none none (some result)
      (overflowSlots.write (some entries.2) (some value) none
        (carrySlots.write (some entries.1) (some value) none contents)))

section Immediate

variable (inst : Instruction) {dst : Register}
variable (pc : Word) (state : State)

theorem Add.executeImmediate_fields
    (all : inst.updateFlags = Flags.all)
    (scratch : Scratch dst)
    (dstNotTemp : dst ≠ .t4)
    (small : inst.smallImmediate = true) :
    fields (applyAll pc state
        (Add.executeImmediate inst dst inst.immediate)) =
      immediateContents (immediateEntries inst inst.immediate)
        (state.get dst) (state.get dst + inst.immediate) (fields state) := by
  have carry := mem_updateFlags all .carry
  have overflow := mem_updateFlags all .overflow
  let entries := immediateEntries inst inst.immediate
  have updates := Updates.append
    (inst.updateCarry_updates entries.1 dst none .t4)
    (inst.updateOverflow_updates entries.2 dst none .t4)
  rw [executeImmediate_eq, applyAll_append,
    inst.updateBoth_fields carry overflow _ _ (by simp) (by simp)
      (by simpa using scratch.1),
    applyAll_append, applyAll_cons, applyAll_nil, apply_addi, fields_set _ scratch.2,
    inst.updateBoth_fields carry overflow _ _ (fun _ => by decide)
      (fun _ => by decide) (by simpa using dstNotTemp),
    updates.get _ _ (by simpa)]
  simp only [Option.map_some, Option.map_none,
    State.set_get_self _ _ scratch.1, signedImm_setWidth _ (by decide : 12 ≤ 16),
    inst.signedImm_immediate small]
  rfl

/-- The flags of a sum with an immediate are always right. -/
theorem evaluated_addImmediate
    {value : Word}
    {first second : BitVec inst.destinationSize.bits}
    (firstBits : value.setWidth inst.destinationSize.bits = first)
    (secondBits : inst.immediate.setWidth inst.destinationSize.bits = second)
    (extended : second.signExtend 64 = inst.immediate)
    (contents : Field -> Word) :
    Evaluated
      (resultContents Flags.all (value + inst.immediate) inst.destinationSize
        (immediateContents (Add.immediateEntries inst inst.immediate) value
          (value + inst.immediate) contents))
      (additionFlags first second false) := by
  have result : (value + inst.immediate).setWidth
      inst.destinationSize.bits = addition first second false := by
    rw [BitVec.setWidth_add _ _ inst.destinationSize.bits_le, firstBits,
      secondBits, addition]
    exact (BitVec.add_zero _).symm
  have sum : (value + inst.immediate).setWidth inst.destinationSize.bits =
      value.setWidth inst.destinationSize.bits +
        BitVec.ofInt inst.destinationSize.bits second.toInt := by
    rw [BitVec.setWidth_add _ _ inst.destinationSize.bits_le, secondBits,
      BitVec.ofInt_toInt]
  have number : inst.immediate.toInt = second.toInt := by
    rw [← extended, BitVec.toInt_signExtend_of_le
      inst.destinationSize.bits_le]
  have carryFlag := @carryAdd_flag inst.destinationSize value
    (value + inst.immediate) second first firstBits
    (result.trans (addition_comm first second false))
  rw [additionFlags_comm second first] at carryFlag
  have overflowFlag : (Add.immediateEntries inst
      inst.immediate).2.overflowFlag value (value + inst.immediate) =
        some (additionFlags first second false .overflow) := by
    obtain ⟨lower, upper⟩ := fits_toInt inst.destinationSize second
    have overflows : additionFlags first second false .overflow =
        decide (¬ Wrapped.Fits inst.destinationSize.bits
          ((value.setWidth inst.destinationSize.bits).toInt +
            second.toInt)) := by
      simp only [additionFlags, resultFlags, firstBits, Bool.toNat_false,
        Nat.cast_zero, Int.add_zero]
    have sign : (0 : BitVec 64).sle inst.immediate = true ↔
        0 ≤ second.toInt := by
      rw [BitVec.sle_iff_toInt_le, number]
      rfl
    rw [overflows, Add.immediateEntries]
    split
    · rename_i positive
      exact overflowAddPos_flag (sign.mp positive) (by omega) sum
    · rename_i negative
      rw [sign] at negative
      exact overflowAddNeg_flag lower (by omega) sum
  rw [additionFlags, ← result]
  refine evaluated_result ⟨.carryAdd inst.destinationSize.width, ?_, carryFlag⟩
    ⟨(Add.immediateEntries inst inst.immediate).2, rfl, overflowFlag⟩
  change (Add.immediateEntries inst inst.immediate).1.offset.setWidth 64 = _
  unfold Add.immediateEntries
  split <;> rfl

end Immediate

/-! ## Additions with a carry -/

/-- What follows the evaluation of the carry flag. -/
def Adc.addEvaluated (inst : Instruction) (dst src : Register) : List Inst :=
  if Flag.carry ∈ inst.updateFlags ∨ Flag.overflow ∈ inst.updateFlags then
    slli .t5 .t4 4 ::
      (storeOverflow inst dst src ++ addCarry dst src ++
        storeCarry inst dst src)
  else
    addCarry dst src

theorem Adc.executeRegister_eq (inst : Instruction) (dst src : Register) :
    executeRegister inst dst src =
      evaluateCarry ++ addEvaluated inst dst src := rfl

section AddEvaluated

variable (inst : Instruction) {dst src : Register}
variable (pc : Word) (state : State)

theorem Adc.storeOverflow_updates :
    UpdatesFields [.t6] (storeOverflow inst dst src) := by
  unfold storeOverflow
  simp only
  split
  · exact Updates.cons (Or.inl (Inst.computesInto_of_target rfl rfl (by simp)))
      ((storeRegister_updates overflowSlots_describes _ _ _).mono (by simp))
  · exact Updates.nil

theorem Adc.storeCarry_updates :
    UpdatesFields [.t4] (storeCarry inst dst src) := by
  unfold storeCarry
  simp only
  split
  · exact Updates.cons (Or.inl (Inst.computesInto_of_target rfl rfl (by simp)))
      ((storeRegister_updates carrySlots_describes _ _ _).mono (by simp))
  · exact Updates.nil

theorem Adc.addCarry_computesInto :
    ComputesInto [dst] (addCarry dst src) :=
  ComputesInto.cons_iff.mpr
    ⟨Inst.computesInto_of_target rfl rfl (by simp),
      ComputesInto.singleton rfl rfl (by simp)⟩

theorem Adc.addEvaluated_updates :
    UpdatesFields [dst, .t4, .t5, .t6] (addEvaluated inst dst src) := by
  have adds := UpdatesFields.computeInto
    (@addCarry_computesInto dst src)
  unfold addEvaluated
  split
  · refine Updates.cons
      (Or.inl (Inst.computesInto_of_target rfl rfl (by simp))) ?_
    exact Updates.append
      (Updates.append ((storeOverflow_updates inst).mono (by simp))
        (adds.mono (by simp)))
      ((storeCarry_updates inst).mono (by simp))
  · exact adds.mono (by simp)

theorem Adc.addCarry_value
    (nonzero : dst ≠ .zero)
    (dstNotTemp : dst ≠ .t4) :
    (applyAll pc state (addCarry dst src)).get dst =
      state.get dst + state.get src + state.get .t4 := by
  simp only [addCarry, applyAll_cons, applyAll_nil, apply_add,
    State.set_get_self _ _ nonzero,
    State.set_get_of_ne _ _ dstNotTemp.symm]
  rw [add_comm, add_comm (state.get src)]

theorem Adc.addEvaluated_value
    (nonzero : dst ≠ .zero)
    (dstNotTemp : dst ∉ [.t4, .t5, .t6])
    (srcNotTemp : src ∉ [.t4, .t5, .t6]) :
    (applyAll pc state (addEvaluated inst dst src)).get dst =
      state.get dst + state.get src + state.get .t4 := by
  simp only [List.mem_cons, List.not_mem_nil, or_false,
    not_or] at dstNotTemp srcNotTemp
  have overflow := @storeOverflow_updates inst dst src
  have carry := @storeCarry_updates inst dst src
  unfold addEvaluated
  split
  · rw [applyAll_cons, applyAll_append, applyAll_append,
      carry.get _ _ (by simp [dstNotTemp]),
      addCarry_value _ _ nonzero dstNotTemp.1,
      overflow.get _ _ (by simp [dstNotTemp]),
      overflow.get _ _ (by simp [srcNotTemp]),
      overflow.get _ _ (by decide), apply_slli,
      State.set_get_of_ne _ _ dstNotTemp.2.1,
      State.set_get_of_ne _ _ srcNotTemp.2.1,
      State.set_get_of_ne _ _ (by decide)]
  · exact addCarry_value _ _ nonzero dstNotTemp.1

/-- The entries for a sum with a carry lie behind those without. -/
theorem additionEntries_offset (size : OperandSize) (carry : Bool) :
    (bit carry <<< 4) +
          signedImm (JumpTable.Entry.carryAdd size.width).offset =
        (additionEntries size carry).1.offset.setWidth 64 ∧
      (bit carry <<< 4) +
          signedImm (JumpTable.Entry.overflowAdd size.width).offset =
        (additionEntries size carry).2.offset.setWidth 64 := by
  cases size <;> cases carry <;> decide

theorem Adc.storeOverflow_fields
    (updated : Flag.overflow ∈ inst.updateFlags)
    {carry : Bool}
    (offset : state.get .t5 = bit carry <<< 4)
    (dstNotTemp : dst ≠ .t6)
    (srcNotTemp : src ≠ .t6) :
    fields (applyAll pc state (storeOverflow inst dst src)) =
      overflowSlots.write
        (some (additionEntries inst.destinationSize carry).2)
        (some (state.get src)) (some (state.get dst)) (fields state) := by
  have entry := (additionEntries_offset inst.destinationSize carry).2
  simp only [storeOverflow, if_pos updated, applyAll_cons, apply_addi,
    updateOverflowRegister, offset]
  refine (storeRegister_fields _ _ overflowSlots_describes (by decide)
    ((State.set_get_self _ _ (by decide)).trans entry) _ _).trans ?_
  rw [State.set_get_of_ne _ _ srcNotTemp, State.set_get_of_ne _ _ dstNotTemp,
    fields_set _ (by decide)]

theorem Adc.storeCarry_fields
    (updated : Flag.carry ∈ inst.updateFlags)
    {carry : Bool}
    (offset : state.get .t5 = bit carry <<< 4)
    (dstNotTemp : dst ≠ .t4)
    (srcNotTemp : src ≠ .t4) :
    fields (applyAll pc state (storeCarry inst dst src)) =
      carrySlots.write
        (some (additionEntries inst.destinationSize carry).1)
        (some (state.get src)) (some (state.get dst)) (fields state) := by
  have entry := (additionEntries_offset inst.destinationSize carry).1
  simp only [storeCarry, if_pos updated, applyAll_cons, apply_addi,
    updateCarryRegister, offset]
  refine (storeRegister_fields _ _ carrySlots_describes (by decide)
    ((State.set_get_self _ _ (by decide)).trans entry) _ _).trans ?_
  rw [State.set_get_of_ne _ _ srcNotTemp, State.set_get_of_ne _ _ dstNotTemp,
    fields_set _ (by decide)]

/-- The registers in front of the stores for the carry flag. -/
theorem Adc.addCarry_registers
    (scratch : Scratch dst)
    (dstNotTemp : dst ∉ [.t4, .t5, .t6])
    (srcNotTemp : src ∉ [.t4, .t5, .t6])
    {carry : Bool}
    (evaluated : state.get .t4 = bit carry)
    (further : Word) :
    let stored := applyAll pc (state.set .t5 (state.get .t4 <<< 4))
      (storeOverflow inst dst src)
    let added := applyAll further stored (addCarry dst src)
    let sum := state.get dst + state.get src + bit carry
    added.get .t5 = bit carry <<< 4 ∧ added.get dst = sum ∧
      added.get src = (state.set dst sum).get src := by
  simp only [List.mem_cons, List.not_mem_nil, or_false,
    not_or] at dstNotTemp srcNotTemp
  have overflow := @storeOverflow_updates inst dst src
  have adds := @addCarry_computesInto dst src
  intro stored added sum
  have amount : stored.get .t5 = bit carry <<< 4 := by
    rw [overflow.get _ _ (by decide), State.set_get_self _ _ (by decide),
      evaluated]
  have first : stored.get dst = state.get dst := by
    rw [overflow.get _ _ (by simp [dstNotTemp]),
      State.set_get_of_ne _ _ dstNotTemp.2.1]
  have second : stored.get src = state.get src := by
    rw [overflow.get _ _ (by simp [srcNotTemp]),
      State.set_get_of_ne _ _ srcNotTemp.2.1]
  have result : added.get dst = sum := by
    rw [addCarry_value _ _ scratch.1 dstNotTemp.1, first, second,
      overflow.get _ _ (by decide), State.set_get_of_ne _ _ (by decide),
      evaluated]
  refine ⟨?_, result, ?_⟩
  · rw [adds.get _ _ (by simpa using Ne.symm dstNotTemp.2.1), amount]
  · by_cases same : src = dst
    · rw [same, result, State.set_get_self _ _ scratch.1]
    · rw [adds.get _ _ (by simpa), second, State.set_get_of_ne _ _ same]

/-- The values for the carry flag are those behind the addition. -/
theorem Adc.addEvaluated_fields
    (all : inst.updateFlags = Flags.all)
    (scratch : Scratch dst)
    (dstNotTemp : dst ∉ [.t4, .t5, .t6])
    (srcNotTemp : src ∉ [.t4, .t5, .t6])
    {carry : Bool}
    (evaluated : state.get .t4 = bit carry) :
    fields (applyAll pc state (addEvaluated inst dst src)) =
      additionContents inst.destinationSize carry dst src state
        (fields state) := by
  have carryUpdated := mem_updateFlags all .carry
  have overflowUpdated := mem_updateFlags all .overflow
  obtain ⟨offset, result, source⟩ := addCarry_registers inst (pc + 4) state
    scratch dstNotTemp srcNotTemp evaluated _
  simp only [List.mem_cons, List.not_mem_nil, or_false,
    not_or] at dstNotTemp srcNotTemp
  have adds := @addCarry_computesInto dst src
  have amount : (state.set .t5 (state.get .t4 <<< 4)).get .t5 =
      bit carry <<< 4 := by
    rw [State.set_get_self _ _ (by decide), evaluated]
  rw [addEvaluated, if_pos (Or.inl carryUpdated), applyAll_cons,
    applyAll_append, applyAll_append]
  refine (storeCarry_fields _ _ _ carryUpdated offset dstNotTemp.1
    srcNotTemp.1).trans ?_
  rw [fields_congr (adds.mem _ _)
      (adds.get _ _ (by simpa using scratch.2.symm)),
    storeOverflow_fields _ _ _ overflowUpdated amount dstNotTemp.2.2
      srcNotTemp.2.2, result, source, State.set_get_of_ne _ _ dstNotTemp.2.1,
    State.set_get_of_ne _ _ srcNotTemp.2.1, fields_set _ (by decide)]
  rfl

/-- The carry flag that is evaluated behind an addition with a carry, whether
or not the other flags are updated. -/
theorem Adc.addEvaluated_carry
    (updated : Flag.carry ∈ inst.updateFlags)
    (scratch : Scratch dst)
    (dstNotTemp : dst ∉ [.t4, .t5, .t6])
    (srcNotTemp : src ∉ [.t4, .t5, .t6])
    {carry : Bool}
    (evaluated : state.get .t4 = bit carry) :
    let sum := state.get dst + state.get src + bit carry
    ∃ contents, fields (applyAll pc state (addEvaluated inst dst src)) =
      carrySlots.write (some (additionEntries inst.destinationSize carry).1)
        (some ((state.set dst sum).get src)) (some sum) contents := by
  let stored := applyAll (pc + 4) (state.set .t5 (state.get .t4 <<< 4))
    (storeOverflow inst dst src)
  let between := pc + 4 +
    BitVec.ofNat 64 (4 * (storeOverflow inst dst src).length)
  obtain ⟨offset, result, source⟩ := addCarry_registers inst (pc + 4) state
    scratch dstNotTemp srcNotTemp evaluated between
  simp only [List.mem_cons, List.not_mem_nil, or_false,
    not_or] at dstNotTemp srcNotTemp
  refine ⟨fields (applyAll between stored (addCarry dst src)), ?_⟩
  rw [addEvaluated, if_pos (Or.inl updated), applyAll_cons, applyAll_append,
    applyAll_append]
  refine (storeCarry_fields _ _ _ updated offset dstNotTemp.1
    srcNotTemp.1).trans ?_
  rw [result, source]

end AddEvaluated

/-! ## The code of the additions -/

/-- The carry that goes into an addition: none for `ADD`, and for `ADC` the
carry flag, which must be one that is supported. -/
def CarryIn
    (operation : BinaryOperation)
    (state : State)
    (carry : Bool) : Prop :=
  match operation with
  | .adc => ∃ entry : JumpTable.Entry,
      fields state .carryOperation = entry.offset.setWidth 64 ∧
        entry.carryFlag (fields state .carryFirst)
          (fields state .carrySecond) = some carry
  | _ => carry = false

/-- The source is the destination itself, which is overwritten before the
operands of the carry flag are stored. -/
def Instruction.OverwritesSource (inst : Instruction) : Prop :=
  inst.immediateSource = false ∧
    inst.translateSource.value = inst.workRegister

instance (inst : Instruction) : Decidable inst.OverwritesSource :=
  inferInstanceAs (Decidable (_ ∧ _))

section Additions

variable {inst : Instruction} {runtime : JumpTable.Runtime}
variable {env : Environment} {state prepared : State}

/-- The flags that are evaluated after an addition. -/
def storedFlags
    (inst : Instruction)
    (carry : Bool)
    (state : State) : Flag -> Bool :=
  let flags := additionFlags (inst.firstBits state) (inst.secondBits state)
    carry
  resultFlags (addition (inst.firstBits state) (inst.secondBits state) carry)
    (if inst.OverwritesSource then carry else flags .carry) (flags .overflow)

/-- The addition of a register, without a carry. -/
theorem add_register_leaves
    (symbols : HostSymbols)
    (form : inst.RegisterForm)
    (all : inst.updateFlags = Flags.all)
    (permits : env.PermitsEverything)
    (loaded : inst.Prepared state prepared)
    (noImmediate : inst.immediateSource = false) :
    ∃ after, inst.Leaves (JumpTable.dispatch runtime env)
      (BinaryOperation.execute .add symbols inst) prepared after
      (addition (inst.firstBits state) (inst.secondBits state) false)
      (storedFlags inst false state) := by
  obtain ⟨work, workOutside⟩ := form.inRegister.workRegister_scratch
  obtain ⟨source, sourceOutside⟩ := form.source_scratch noImmediate
  have workNotTemp : inst.workRegister ≠ .t4 := by
    rintro same
    exact workOutside (same ▸ by decide)
  have sourceNotTemp : inst.translateSource.value ≠ .t4 := by
    rintro same
    exact sourceOutside (same ▸ by decide)
  have code : BinaryOperation.execute .add symbols inst =
      Add.executeRegister inst inst.workRegister
        inst.translateSource.value := by
    rw [BinaryOperation.execute, if_pos source.1]
    rfl
  have value := @BinaryOperation.executeRegister_value symbols inst
    inst.workRegister inst.translateSource.value env.origin prepared
    workNotTemp work.1 .add (by decide) sourceNotTemp
  have contents := Add.executeRegister_fields inst env.origin prepared all
    work workNotTemp sourceNotTemp
  have second := loaded.second noImmediate
  have noCarry : prepared.get inst.workRegister +
      prepared.get inst.translateSource.value =
        prepared.get inst.workRegister +
          prepared.get inst.translateSource.value + bit false :=
    (BitVec.add_zero _).symm
  change (applyAll env.origin prepared (Add.executeRegister inst _ _)).get
    _ = _ + _ at value
  rw [noCarry] at value
  have overwrites : inst.OverwritesSource ↔
      inst.translateSource.value = inst.workRegister :=
    ⟨And.right, And.intro noImmediate⟩
  refine ⟨_, leaves_of_updates permits ?_ ?_ ?_⟩
  · rw [code]
    exact Add.executeRegister_updates inst _
  · rw [code, value]
    exact addition_setWidth loaded.first second
  · rw [code, value, contents, storedFlags]
    simp only [overwrites]
    exact evaluated_addition work.1 loaded.first second _

/-- An immediate is never overwritten. -/
theorem not_overwritesSource
    (immediate : inst.immediateSource = true) :
    ¬ inst.OverwritesSource := by
  rintro ⟨noImmediate, -⟩
  rw [immediate] at noImmediate
  cases noImmediate

/-- The addition of an immediate, without a carry. -/
theorem add_immediate_leaves
    (symbols : HostSymbols)
    (form : inst.RegisterForm)
    (all : inst.updateFlags = Flags.all)
    (permits : env.PermitsEverything)
    (loaded : inst.Prepared state prepared)
    (immediate : inst.immediateSource = true) :
    ∃ after, inst.Leaves (JumpTable.dispatch runtime env)
      (BinaryOperation.execute .add symbols inst) prepared after
      (addition (inst.firstBits state) (inst.secondBits state) false)
      (storedFlags inst false state) := by
  obtain ⟨work, workOutside⟩ := form.inRegister.workRegister_scratch
  obtain ⟨isImm, small⟩ := Bool.and_eq_true_iff.mp immediate
  have workNotTemp : inst.workRegister ≠ .t4 := by
    rintro same
    exact workOutside (same ▸ by decide)
  have code : BinaryOperation.execute .add symbols inst =
      Add.executeImmediate inst inst.workRegister inst.immediate := by
    rw [BinaryOperation.execute,
      if_neg (not_not_intro (form.source_eq_zero.mpr immediate))]
    rfl
  have value := @BinaryOperation.executeImmediate_value symbols inst
    inst.workRegister env.origin prepared workNotTemp work.1 .add (by decide)
    small
  have contents := Add.executeImmediate_fields inst env.origin prepared all
    work workNotTemp small
  change (applyAll env.origin prepared (Add.executeImmediate inst _ _)).get
    _ = _ + _ at value
  have second : inst.immediate.setWidth inst.destinationSize.bits =
      inst.secondBits state :=
    (inst.secondBits_immediate isImm state).symm
  have extended : (inst.secondBits state).signExtend 64 =
      inst.immediate := by
    rw [← second]
    exact form.immediate isImm
  refine ⟨_, leaves_of_updates permits ?_ ?_ ?_⟩
  · rw [code]
    exact Add.executeImmediate_updates inst _
  · rw [code, value, BitVec.setWidth_add _ _ inst.destinationSize.bits_le,
      loaded.first, second, addition]
    exact (BitVec.add_zero _).symm
  · rw [code, value, contents, storedFlags]
    simp only [if_neg (not_overwritesSource immediate)]
    exact evaluated_addImmediate inst loaded.first second extended _

/-- An addition of a register with the carry flag. -/
theorem adc_leaves
    (form : inst.RegisterForm)
    (all : inst.updateFlags = Flags.all)
    (permits : env.PermitsEverything)
    {src : Register}
    (srcNotTemp : src ∉ [.t4, .t5, .t6, .ra])
    (firstBits : (prepared.get inst.workRegister).setWidth
      inst.destinationSize.bits = inst.firstBits state)
    (secondBits : (prepared.get src).setWidth inst.destinationSize.bits =
      inst.secondBits state)
    {carry : Bool}
    (evaluates : Evaluates (JumpTable.dispatch runtime env) evaluateCarry
      prepared carry)
    (overwrites : inst.OverwritesSource ↔ src = inst.workRegister) :
    ∃ after, inst.Leaves (JumpTable.dispatch runtime env)
      (Adc.executeRegister inst inst.workRegister src) prepared after
      (addition (inst.firstBits state) (inst.secondBits state) carry)
      (storedFlags inst carry state) := by
  obtain ⟨work, workOutside⟩ := form.inRegister.workRegister_scratch
  simp only [executionScratch, List.mem_cons, List.not_mem_nil, or_false,
    not_or] at workOutside srcNotTemp
  obtain ⟨evaluated, exits, flag, sameMemory, kept⟩ := evaluates
  have updates := @Adc.addEvaluated_updates inst inst.workRegister src
  have first : evaluated.get inst.workRegister =
      prepared.get inst.workRegister :=
    kept _ (by simp [evaluationScratch, workOutside])
  have second : evaluated.get src = prepared.get src :=
    kept _ (by simp [evaluationScratch, srcNotTemp])
  let further := env.shift evaluateCarry.length
  have workNotTemp : inst.workRegister ∉ [.t4, .t5, .t6] := by
    simp [workOutside]
  have srcNotScratch : src ∉ [.t4, .t5, .t6] := by
    simp [srcNotTemp]
  have value := @Adc.addEvaluated_value inst inst.workRegister src
    further.origin evaluated work.1 workNotTemp srcNotScratch
  have contents := @Adc.addEvaluated_fields inst inst.workRegister src
    further.origin evaluated all work workNotTemp srcNotScratch carry flag
  have permitsFurther : (JumpTable.dispatch runtime further).PermitsEverything :=
    permits
  rw [← first] at firstBits
  rw [← second] at secondBits
  rw [flag] at value
  refine ⟨applyAll further.origin evaluated
    (Adc.addEvaluated inst inst.workRegister src), ?_, ?_, ?_, ?_⟩
  · rw [Adc.executeRegister_eq]
    exact exits.append (Environment.exits_straight updates.straight
      (permitsFurther.permitsAll _ _)) (by simp)
  · intro register outside
    simp only [executionScratch, List.mem_cons, List.not_mem_nil, or_false,
      not_or] at outside
    rw [updates.get _ _ (by simp [outside]),
      kept _ (by simp [evaluationScratch, outside])]
  · rw [value]
    exact addition_setWidth firstBits secondBits
  · rw [value, contents, storedFlags]
    simp only [overwrites]
    exact evaluated_addition work.1 firstBits secondBits _

/-- The carry flag of an operation that adds it is evaluated from the fields in
front of the operation. -/
theorem CarryIn.evaluates
    {carry : Bool}
    (carryIn : CarryIn .adc state carry)
    (permits : env.PermitsEverything)
    (aligned : TableAligned prepared)
    (same : fields prepared = fields state) :
    Evaluates (JumpTable.dispatch runtime env) evaluateCarry prepared
      carry := by
  obtain ⟨entry, operation, value⟩ := carryIn
  rw [← same] at operation value
  rw [← carryValue_zero, ← carryValue_one] at value
  exact evaluateCarry_entry permits aligned operation value

/-- The addition of an immediate with the carry flag: the immediate is loaded
first. -/
theorem adc_immediate_leaves
    (symbols : HostSymbols)
    (form : inst.RegisterForm)
    (all : inst.updateFlags = Flags.all)
    (permits : env.PermitsEverything)
    (aligned : TableAligned state)
    (loaded : inst.Prepared state prepared)
    (immediate : inst.immediateSource = true)
    {carry : Bool}
    (carryIn : CarryIn .adc state carry) :
    ∃ after, inst.Leaves (JumpTable.dispatch runtime env)
      (BinaryOperation.execute .adc symbols inst) prepared after
      (addition (inst.firstBits state) (inst.secondBits state) carry)
      (storedFlags inst carry state) := by
  obtain ⟨work, workOutside⟩ := form.inRegister.workRegister_scratch
  obtain ⟨isImm, small⟩ := Bool.and_eq_true_iff.mp immediate
  have workNotTemp : inst.workRegister ≠ .t3 := by
    rintro same
    exact workOutside (same ▸ by decide)
  have code : BinaryOperation.execute .adc symbols inst =
      [addi .t3 .zero (inst.immediate.setWidth 16)] ++
        Adc.executeRegister inst inst.workRegister .t3 := by
    rw [BinaryOperation.execute,
      if_neg (not_not_intro (form.source_eq_zero.mpr immediate))]
    rfl
  let started := prepared.set .t3 inst.immediate
  have alignedStarted : TableAligned started := by
    rw [TableAligned, State.set_get_of_ne _ _ (by decide),
      loaded.others _ (by decide)]
    exact aligned
  have sameFields : fields started = fields state :=
    (fields_set prepared (by decide) _).trans
      (fields_congr loaded.mem (loaded.others _ (by decide)))
  have starts : (JumpTable.dispatch runtime env).Exits
      [addi .t3 .zero (inst.immediate.setWidth 16)] prepared
      (.ended started) := by
    have permits : (JumpTable.dispatch runtime env).PermitsEverything :=
      permits
    have loads : ComputesInto [.t3]
        [addi .t3 .zero (inst.immediate.setWidth 16)] :=
      ComputesInto.singleton rfl rfl (by simp)
    have exits := @Environment.exits_straight
      (JumpTable.dispatch runtime env) prepared _ loads.straight
      (permits.permitsAll _ _)
    rw [applyAll_cons, applyAll_nil, apply_addi, State.get_zero, zero_add,
      signedImm_setWidth _ (by decide : 12 ≤ 16),
      inst.signedImm_immediate small] at exits
    exact exits
  have overwrites : inst.OverwritesSource ↔
      Register.t3 = inst.workRegister :=
    ⟨fun overwritten => absurd overwritten (not_overwritesSource immediate),
      fun same => absurd same.symm workNotTemp⟩
  have further : (env.shift 1).PermitsEverything := permits
  obtain ⟨after, leaves⟩ := @adc_leaves inst runtime (env.shift 1) state
    started form all further .t3 (by decide)
    (by rw [State.set_get_of_ne _ _ workNotTemp, loaded.first])
    (by rw [State.set_get_self _ _ (by decide),
      inst.secondBits_immediate isImm])
    carry (carryIn.evaluates further alignedStarted sameFields) overwrites
  refine ⟨after, ?_, ?_, leaves.value, leaves.evaluated⟩
  · rw [code]
    exact starts.append leaves.exits (by simp)
  · intro register outside
    have notLoaded : register ≠ .t3 := by
      rintro rfl
      exact outside (by simp [executionScratch])
    rw [leaves.kept register outside, State.set_get_of_ne _ _ notLoaded]

/-- An addition leaves the sum, and flags that are right unless the source is
overwritten. -/
theorem addition_leaves
    (symbols : HostSymbols)
    (form : inst.RegisterForm)
    (all : inst.updateFlags = Flags.all)
    (permits : env.PermitsEverything)
    (aligned : TableAligned state)
    (loaded : inst.Prepared state prepared)
    {operation : BinaryOperation}
    (isAddition : operation = .add ∨ operation = .adc)
    {carry : Bool}
    (carryIn : CarryIn operation state carry) :
    ∃ after, inst.Leaves (JumpTable.dispatch runtime env)
      (operation.execute symbols inst) prepared after
      (addition (inst.firstBits state) (inst.secondBits state) carry)
      (storedFlags inst carry state) := by
  have alignedPrepared : TableAligned prepared := by
    rw [TableAligned, loaded.others _ (by decide)]
    exact aligned
  have sameFields : fields prepared = fields state :=
    fields_congr loaded.mem (loaded.others _ (by decide))
  by_cases immediate : inst.immediateSource = true
  · rcases isAddition with rfl | rfl
    · rw [show carry = false from carryIn]
      exact add_immediate_leaves symbols form all permits loaded immediate
    · exact adc_immediate_leaves symbols form all permits aligned loaded
        immediate carryIn
  · have noImmediate : inst.immediateSource = false := by
      simpa using immediate
    rcases isAddition with rfl | rfl
    · rw [show carry = false from carryIn]
      exact add_register_leaves symbols form all permits loaded noImmediate
    · obtain ⟨source, sourceOutside⟩ := form.source_scratch noImmediate
      have code : BinaryOperation.execute .adc symbols inst =
          Adc.executeRegister inst inst.workRegister
            inst.translateSource.value := by
        rw [BinaryOperation.execute, if_pos source.1]
        rfl
      rw [code]
      refine adc_leaves form all permits ?_ loaded.first
        (loaded.second noImmediate)
        (carryIn.evaluates permits alignedPrepared sameFields)
        ⟨And.right, And.intro noImmediate⟩
      intro member
      apply sourceOutside
      simp only [List.mem_cons, List.not_mem_nil, or_false] at member
      rcases member with same | same | same | same <;> rw [same] <;> decide

/-- The code of an addition computes what it should if and only if the flags
that are evaluated behind it are the right ones. -/
theorem addition_computes_iff_storedFlags
    (symbols : HostSymbols)
    (form : inst.RegisterForm)
    (all : inst.updateFlags = Flags.all)
    (permits : env.PermitsEverything)
    (aligned : TableAligned state)
    {operation : BinaryOperation}
    (isAddition : operation = .add ∨ operation = .adc)
    {carry : Bool}
    (carryIn : CarryIn operation state carry)
    (flags : Flag -> Bool) :
    inst.Computes runtime env (operation.generate symbols inst)
        (addition (inst.firstBits state) (inst.secondBits state) carry)
        flags state ↔
      storedFlags inst carry state = flags := by
  let loading := inst.translateSource.code ++ inst.translateFirst.code
  have further : (env.shift loading.length).PermitsEverything := permits
  obtain ⟨after, leaves⟩ := @addition_leaves inst runtime
    (env.shift loading.length) state _ symbols form all further aligned
    (form.prepared env.origin state) operation isAddition carry carryIn
  rw [operation.generate_eq symbols form.inRegister]
  exact form.computes_iff permits aligned all leaves flags

end Additions

/-! ## Overwritten sources -/

section Overwritten

variable {inst : Instruction}

/-- The source is overwritten if it is the destination and if the sum is
computed in the register itself. -/
theorem overwritesSource_iff
    (form : inst.RegisterForm) :
    inst.OverwritesSource ↔
      inst.getOperand 1 = inst.getOperand 0 ∧
        4 ≤ inst.destinationSize.bytes := by
  obtain ⟨size, number, type, first⟩ := form.inRegister.destination
  have destSize : inst.destinationSize = size := by
    rw [destinationSize, first]
    rfl
  have sameSize := form.sameSize
  have firstValid := form.firstValid
  have secondValid := form.secondValid
  rw [first] at sameSize firstValid
  by_cases long : 4 ≤ size.bytes
  · have low := low_of_valid firstValid long
    subst low
    have work : inst.workRegister = mapReg number := by
      rw [workRegister, first, destinationRegister, if_pos long]
      rfl
    have source : inst.immediateSource = false ->
        (inst.translateSource.value = inst.workRegister ↔
          inst.getOperand 1 = inst.getOperand 0) := by
      intro noImmediate
      rw [inst.translateSource_register noImmediate, work, first]
      cases second : inst.getOperand 1 with
      | reg sourceSize register sourceType =>
          rw [second] at sameSize secondValid
          cases sameSize
          have low := low_of_valid secondValid long
          subst low
          have value : (inst.translateOperand (.reg size register .gpl) .t2
              .t3 false false false false).value = mapReg register := by
            cases size <;> rfl
          rw [value, mapReg_inj]
          simp
      | _ => simp [translateOperand]
    rw [OverwritesSource, destSize]
    constructor
    · rintro ⟨noImmediate, value⟩
      exact ⟨(source noImmediate).mp value, long⟩
    · rintro ⟨same, -⟩
      have noImmediate : inst.immediateSource = false := by
        rw [immediateSource, same, first]
        rfl
      exact ⟨noImmediate, (source noImmediate).mpr same⟩
  · have work : inst.workRegister = .t0 := by
      rw [workRegister, first, destinationRegister, if_neg long]
    rw [destSize]
    refine iff_of_false ?_ fun overwritten => long overwritten.2
    rintro ⟨noImmediate, value⟩
    rcases form.sourceRegister noImmediate with temporary | guest
    · rw [temporary, work] at value
      cases value
    · rw [value, work] at guest
      cases guest

/-- The carry of a number that is added to itself is its highest bit. -/
theorem additionFlags_self_carry
    {bits : Nat}
    (positive : 0 < bits)
    (number : BitVec bits)
    (carry : Bool) :
    additionFlags number number carry .carry = number.msb := by
  have double : 2 ^ bits = 2 * 2 ^ (bits - 1) := by
    rw [← Nat.pow_succ', Nat.succ_eq_add_one, Nat.sub_add_cancel positive]
  rw [BitVec.msb_eq_decide]
  simp only [additionFlags, resultFlags, decide_eq_decide]
  cases carry <;> simp only [Bool.toNat_false, Bool.toNat_true] <;> omega

/-- The evaluated flags are those of the addition, unless the source is
overwritten and its highest bit is not the carry that is added. -/
theorem storedFlags_eq_iff
    (form : inst.RegisterForm)
    (carry : Bool)
    (state : State) :
    storedFlags inst carry state =
        additionFlags (inst.firstBits state) (inst.secondBits state) carry ↔
      (inst.getOperand 1 = inst.getOperand 0 ->
        4 ≤ inst.destinationSize.bytes ->
          (inst.firstBits state).msb = carry) := by
  have overwrites := overwritesSource_iff form
  have same : storedFlags inst carry state =
      additionFlags (inst.firstBits state) (inst.secondBits state) carry ↔
        (inst.OverwritesSource -> additionFlags (inst.firstBits state)
          (inst.secondBits state) carry .carry = carry) := by
    constructor
    · intro equal overwritten
      rw [← equal, storedFlags]
      simp only [if_pos overwritten]
      rfl
    · intro carries
      funext flag
      cases flag with
      | carry =>
          by_cases overwritten : inst.OverwritesSource
          · rw [carries overwritten, storedFlags]
            simp only [if_pos overwritten]
            rfl
          · rw [storedFlags]
            simp only [if_neg overwritten]
            rfl
      | _ => rfl
  rw [same, overwrites]
  constructor
  · intro carries equal long
    have value := carries ⟨equal, long⟩
    rwa [show inst.secondBits state = inst.firstBits state by
      rw [secondBits, firstBits, equal],
      additionFlags_self_carry inst.destinationSize.bits_pos] at value
  · rintro highest ⟨equal, long⟩
    rw [show inst.secondBits state = inst.firstBits state by
      rw [secondBits, firstBits, equal],
      additionFlags_self_carry inst.destinationSize.bits_pos]
    exact highest equal long

/-- Additions of registers and of immediates leave the sum, the other registers
and the flags of x86, unless a long register is added to itself: its highest
bit must be the carry that is added. -/
theorem addition_computes_iff
    (symbols : HostSymbols)
    (form : inst.RegisterForm)
    (all : inst.updateFlags = Flags.all)
    (runtime : JumpTable.Runtime)
    {env : Environment}
    (permits : env.PermitsEverything)
    {state : State}
    (aligned : TableAligned state)
    {operation : BinaryOperation}
    (isAddition : operation = .add ∨ operation = .adc)
    {carry : Bool}
    (carryIn : CarryIn operation state carry) :
    inst.Computes runtime env (operation.generate symbols inst)
        (addition (inst.firstBits state) (inst.secondBits state) carry)
        (additionFlags (inst.firstBits state) (inst.secondBits state) carry)
        state ↔
      (inst.getOperand 1 = inst.getOperand 0 ->
        4 ≤ inst.destinationSize.bytes ->
          (inst.firstBits state).msb = carry) := by
  rw [addition_computes_iff_storedFlags symbols form all permits aligned
    isAddition carryIn]
  exact storedFlags_eq_iff form carry state

/-- `add rax, source` -/
def addRax (source : Fadec.Register) : Instruction :=
  (InstructionClass.binaryOperation .add).construct
    { type := .add
      operands := [.reg .qword 0 .gpl, .reg .qword source .gpl] }

theorem addRax_registerForm (source : Fadec.Register) :
    (addRax source).RegisterForm where
  first := rfl
  second := Or.inl rfl
  firstValid := rfl
  secondValid := rfl
  sameSize := rfl
  immediate isImm := by cases isImm

/-- The sum of two other registers carries. -/
theorem addition_computes_iff_rbx :
    let state := (zeroState.set (mapReg 0) (-5)).set (mapReg 3) 7
    (addRax 3).Computes (fun _ _ => none) Stub.environment
      (BinaryOperation.generate sampleSymbols (addRax 3) .add)
      (addition ((addRax 3).firstBits state) ((addRax 3).secondBits state)
        false)
      (additionFlags ((addRax 3).firstBits state)
        ((addRax 3).secondBits state) false) state :=
  (addition_computes_iff sampleSymbols (addRax_registerForm 3) rfl _
    (fun _ _ => rfl) (by decide) (Or.inl rfl) rfl).mpr
      fun same => absurd same (by decide)

/-- The highest bit of rax is set. -/
def highestRax : State := zeroState.set (mapReg 0) (1 <<< 63)

/-- The carry of `add rax, rax` is lost. -/
theorem addRax_loses_carry :
    ¬ (addRax 0).Computes (fun _ _ => none) Stub.environment
        (BinaryOperation.generate sampleSymbols (addRax 0) .add)
        (addition ((addRax 0).firstBits highestRax)
          ((addRax 0).secondBits highestRax) false)
        (additionFlags ((addRax 0).firstBits highestRax)
          ((addRax 0).secondBits highestRax) false) highestRax := by
  intro computes
  have stored := (addition_computes_iff_storedFlags sampleSymbols
    (addRax_registerForm 0) rfl (fun _ _ => rfl) (by decide) (Or.inl rfl)
    rfl _).mp computes
  have carry := congrFun stored .carry
  revert carry
  decide +kernel

end Overwritten

end Oxtra

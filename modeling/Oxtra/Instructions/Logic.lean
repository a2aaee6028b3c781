import Oxtra.Instructions.Comparison

/-!
# Logical operations

`AND`, `OR` and `XOR` leave their result in the destination, `TEST` leaves that
of `AND` in a temporary.  All of them clear the carry and the overflow flag.
-/

namespace Oxtra

open RiscV
open Encoding
open Helper
open FlagInfo
open Instruction
open Fadec (Operand OperandSize)

/-! ## Results -/

/-- What a logical operation computes from the bits of its operands. -/
def BinaryOperation.bitwise
    {bits : Nat}
    (first second : BitVec bits) :
    BinaryOperation -> Option (BitVec bits)
  | and => some (first &&& second)
  | or => some (first ||| second)
  | xor => some (first ^^^ second)
  | _ => none

/-- The flags after a logical operation. -/
def logicFlags {bits : Nat} (result : BitVec bits) : Flag -> Bool :=
  resultFlags result false false

/-- The low bits of the word are those of the result. -/
theorem BinaryOperation.word_bitwise
    {operation : BinaryOperation}
    {bits : Nat}
    {first second : Word}
    {result : BitVec bits}
    (logical : operation.bitwise (first.setWidth bits)
      (second.setWidth bits) = some result) :
    (operation.word first second false).setWidth bits = result := by
  cases operation <;> cases logical
  · exact BitVec.setWidth_and
  · exact BitVec.setWidth_or
  · exact BitVec.setWidth_xor

/-! ## Flags -/

/-- Whatever the values are, the entries evaluate to clear flags. -/
theorem evaluated_cleared
    (result : Word)
    (size : OperandSize)
    (contents : Field -> Word) :
    Evaluated
      (resultContents Flags.all result size
        (overflowSlots.write (some .overflowClear) none none
          (carrySlots.write (some .carryClear) none none contents)))
      (logicFlags (result.setWidth size.bits)) :=
  evaluated_result ⟨.carryClear, rfl, rfl⟩ ⟨.overflowClear, rfl, rfl⟩

section Clear

variable {inst : Instruction}

theorem clearFlags_fields
    (all : inst.updateFlags = Flags.all)
    (pc : Word)
    (state : State) :
    fields (applyAll pc state (Logic.clearFlags inst)) =
      overflowSlots.write (some .overflowClear) none none
        (carrySlots.write (some .carryClear) none none (fields state)) := by
  rw [Logic.clearFlags, setCarry_eq, setOverflow_eq]
  exact inst.updateBoth_fields (mem_updateFlags all .carry)
    (mem_updateFlags all .overflow) pc state (fun _ => by decide)
    (fun _ => by decide) (by simp)

/-- The flags behind code that ends with clearing the flags. -/
theorem evaluated_clearFlags
    (all : inst.updateFlags = Flags.all)
    (operation : Inst)
    (pc : Word)
    (state : State)
    {value : Word} :
    Evaluated
      (resultContents Flags.all value inst.destinationSize
        (fields (applyAll pc state (Logic.execute inst operation))))
      (logicFlags (value.setWidth inst.destinationSize.bits)) := by
  rw [Logic.execute, applyAll_cons, clearFlags_fields all]
  exact evaluated_cleared _ _ _

end Clear

/-! ## `AND`, `OR` and `XOR` -/

section Write

variable {inst : Instruction} {runtime : JumpTable.Runtime}
variable {env : Environment} {state prepared : State}
variable {operation : BinaryOperation}
variable {result : BitVec inst.destinationSize.bits}

/-- A logical operation is one instruction in front of clearing the flags. -/
theorem BinaryOperation.execute_logic
    (symbols : HostSymbols)
    (logical : operation.bitwise (inst.firstBits state)
      (inst.secondBits state) = some result) :
    ∃ computation, operation.execute symbols inst =
      Logic.execute inst computation := by
  unfold execute
  cases operation <;> cases logical <;> split <;> exact ⟨_, rfl⟩

/-- The word that the operation leaves in its destination. -/
theorem BinaryOperation.execute_value
    (symbols : HostSymbols)
    (operands : inst.RegisterOperands)
    (loaded : inst.Prepared state prepared)
    (logical : operation.bitwise (inst.firstBits state)
      (inst.secondBits state) = some result)
    (pc : Word) :
    ((applyAll pc prepared (operation.execute symbols inst)).get
      inst.workRegister).setWidth inst.destinationSize.bits = result := by
  obtain ⟨work, workOutside⟩ := operands.inRegister.workRegister_scratch
  have workNotTemp : inst.workRegister ≠ .t4 := by
    rintro same
    exact workOutside (same ▸ by decide)
  have evaluatesNothing : operation ≠ .adc := by
    rintro rfl
    cases logical
  rw [← loaded.first] at logical
  by_cases immediate : inst.immediateSource = true
  · obtain ⟨isImm, small⟩ := Bool.and_eq_true_iff.mp immediate
    rw [inst.secondBits_immediate isImm] at logical
    rw [execute, if_neg (not_not_intro (operands.source_eq_zero.mpr immediate)),
      executeImmediate_value symbols inst workNotTemp work.1 evaluatesNothing
        small]
    exact word_bitwise logical
  · have noImmediate : inst.immediateSource = false := by
      simpa using immediate
    obtain ⟨source, sourceOutside⟩ := operands.source_scratch noImmediate
    have sourceNotTemp : inst.translateSource.value ≠ .t4 := by
      rintro same
      exact sourceOutside (same ▸ by decide)
    rw [← loaded.second noImmediate] at logical
    rw [execute, if_pos source.1, executeRegister_value symbols inst
      workNotTemp work.1 evaluatesNothing sourceNotTemp]
    exact word_bitwise logical

/-- A logical operation leaves its result and clears the two flags. -/
theorem logic_leaves
    (symbols : HostSymbols)
    (operands : inst.RegisterOperands)
    (all : inst.updateFlags = Flags.all)
    (permits : env.PermitsEverything)
    (loaded : inst.Prepared state prepared)
    (logical : operation.bitwise (inst.firstBits state)
      (inst.secondBits state) = some result) :
    ∃ after, inst.Leaves (JumpTable.dispatch runtime env)
      (operation.execute symbols inst) prepared after result
      (logicFlags result) := by
  have evaluatesNothing : operation ≠ .adc := by
    rintro rfl
    cases logical
  have updates : UpdatesFields [inst.workRegister, .t4]
      (operation.execute symbols inst) := by
    unfold BinaryOperation.execute
    split
    · exact BinaryOperation.executeRegister_updates symbols inst
        evaluatesNothing _
    · exact BinaryOperation.executeImmediate_updates symbols inst
        evaluatesNothing _
  have value := BinaryOperation.execute_value symbols operands loaded logical
    env.origin
  refine ⟨_, leaves_of_updates permits updates value ?_⟩
  obtain ⟨computation, code⟩ := BinaryOperation.execute_logic symbols logical
  rw [← value, code]
  exact evaluated_clearFlags all computation _ _

theorem logic_computes
    (symbols : HostSymbols)
    (operands : inst.RegisterOperands)
    (all : inst.updateFlags = Flags.all)
    (permits : env.PermitsEverything)
    (aligned : TableAligned state)
    (logical : operation.bitwise (inst.firstBits state)
      (inst.secondBits state) = some result) :
    inst.Computes runtime env (operation.generate symbols inst) result
      (logicFlags result) state := by
  let loading := inst.translateSource.code ++ inst.translateFirst.code
  have further : (env.shift loading.length).PermitsEverything := permits
  obtain ⟨after, leaves⟩ := @logic_leaves inst runtime
    (env.shift loading.length) state _ operation result symbols operands all
    further (operands.prepared env.origin state) logical
  rw [BinaryOperation.generate_eq operation symbols operands.inRegister]
  exact (operands.computes_iff permits aligned all leaves _).mpr rfl

end Write

/-! ## `TEST` -/

section Test

variable {inst : Instruction} {runtime : JumpTable.Runtime}
variable {env : Environment} {state prepared : State}

/-- `TEST` is one instruction in front of clearing the flags, which leaves the
conjunction of the operands in a temporary. -/
theorem Test.execute_conjunction
    (operands : inst.RegisterOperands) :
    ∃ computation,
      Comparable.execute .test inst = Test.execute inst computation ∧
        computation.isComputation = true ∧
        computation.target = some .t5 ∧
        ∀ prepared, inst.Prepared state prepared -> ∀ pc,
          ((computation.apply pc prepared).get .t5).setWidth
              inst.destinationSize.bits =
            inst.firstBits state &&& inst.secondBits state := by
  by_cases immediate : inst.immediateSource = true
  · obtain ⟨isImm, small⟩ := Bool.and_eq_true_iff.mp immediate
    refine ⟨_, if_neg (not_not_intro
      (operands.source_eq_zero.mpr immediate)), rfl, rfl, ?_⟩
    intro prepared loaded pc
    rw [apply_andi, State.set_get_self _ _ (by decide),
      signedImm_setWidth _ (by decide), inst.signedImm_immediate small,
      BitVec.setWidth_and, loaded.first, inst.secondBits_immediate isImm]
  · have noImmediate : inst.immediateSource = false := by
      simpa using immediate
    refine ⟨_, if_pos (operands.source_scratch noImmediate).1.1, rfl, rfl, ?_⟩
    intro prepared loaded pc
    rw [apply_and, State.set_get_self _ _ (by decide), BitVec.setWidth_and,
      loaded.first, loaded.second noImmediate]

theorem test_compares
    (operands : inst.RegisterOperands)
    (all : inst.updateFlags = Flags.all)
    (permits : env.PermitsEverything)
    (aligned : TableAligned state) :
    Compares runtime env (Comparable.generate inst .test)
      (logicFlags (inst.firstBits state &&& inst.secondBits state)) state := by
  obtain ⟨computation, code, computes, target, value⟩ :=
    @Test.execute_conjunction inst state operands
  have clears := inst.clearFlags_updates
  apply Comparable.compares_of_updates .test operands all permits aligned
  · rw [code]
    exact (by decide : Register.t5 ≠ .t3)
  · rw [code]
    exact (Logic.execute_updates inst computes target).mono (by simp)
  · intro prepared loaded pc
    simp only [code, Test.execute]
    have kept : (applyAll pc prepared (Logic.execute inst computation)).get
        .t5 = (computation.apply pc prepared).get .t5 := by
      rw [Logic.execute, applyAll_cons, clears.get _ _ (by decide)]
    rw [← value prepared loaded pc, ← kept]
    exact evaluated_clearFlags all computation _ _

end Test

/-! ## Logical operations -/

section Logic

variable {inst : Instruction}

/-- The logical operations leave the bitwise result in their destination, and
`TEST` leaves its destination as it is.  The other registers are kept, and the
flags are those of x86. -/
theorem logicalOperations_compute
    (symbols : HostSymbols)
    (operands : inst.RegisterOperands)
    (all : inst.updateFlags = Flags.all)
    (runtime : JumpTable.Runtime)
    {env : Environment}
    (permits : env.PermitsEverything)
    {state : State}
    (aligned : TableAligned state) :
    let first := inst.firstBits state
    let second := inst.secondBits state
    (∀ operation : BinaryOperation, ∀ result,
      operation.bitwise first second = some result ->
        inst.Computes runtime env (operation.generate symbols inst) result
          (logicFlags result) state) ∧
      Compares runtime env (Comparable.generate inst .test)
        (logicFlags (first &&& second)) state := by
  intro first second
  constructor
  · intro operation result logical
    exact logic_computes symbols operands all permits aligned logical
  · exact test_compares operands all permits aligned

end Logic

/-- `and ah, immediate` -/
def andAh (immediate : BitVec 64) : Instruction :=
  (InstructionClass.binaryOperation .and).construct
    { type := .andImm
      operands := [.reg .byte 4 .gph, .imm .byte]
      immediate := immediate }

theorem andAh_registerOperands (immediate : BitVec 64) :
    (andAh immediate).RegisterOperands where
  first := rfl
  second := Or.inr rfl
  firstValid := rfl
  secondValid := rfl
  sameSize := rfl

theorem logicalOperations_compute_andAh :
    let state := zeroState.set (mapReg 0) 0x8765
    let first := (andAh 0x0f).firstBits state
    let second := (andAh 0x0f).secondBits state
    (∀ operation : BinaryOperation, ∀ result,
      operation.bitwise first second = some result ->
        (andAh 0x0f).Computes (fun _ _ => none) Stub.environment
          (operation.generate sampleSymbols (andAh 0x0f)) result
          (logicFlags result) state) ∧
      Compares (fun _ _ => none) Stub.environment
        (Comparable.generate (andAh 0x0f) .test)
        (logicFlags (first &&& second)) state :=
  logicalOperations_compute sampleSymbols (andAh_registerOperands _) rfl _
    (fun _ _ => rfl) (by decide)

end Oxtra

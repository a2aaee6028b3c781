import Oxtra.Guest.Represents

/-!
# Operations on registers

The code of the arithmetic and logical instructions, the comparisons and the
instructions that set the carry flag does on the host what they do on the
machine, whatever part of their flags they have to update.
-/

namespace Oxtra
namespace Guest

open RiscV
open Helper
open FlagInfo
open Instruction
open Fadec (Operand OperandSize)

variable {layout : Layout} {known : Flag -> Prop} {machine after : Machine}
variable {inst : Instruction} {state final : State}
variable {runtime : JumpTable.Runtime} {env : Environment}

/-! ## What the codes have in common -/

section Common

/-- Memory of the guest and of the host behind code with updates of flags. -/
theorem Represents.of_keepsBut
    (represents : Represents layout known machine state)
    {temps : List Register}
    (keeps : KeepsBut temps state final)
    (inside : ∀ register ∈ temps,
      isGuest register = true ∨ register ∈ temporaries) :
    KeepsHost layout state final ∧
      ∀ pointer, layout.mapped pointer = true ->
        final.mem pointer = machine.memory pointer := by
  refine ⟨KeepsHost.of_keepsBut keeps inside, fun pointer mapped => ?_⟩
  rw [keeps.memory pointer (Layout.outside represents.context mapped).1,
    represents.memory pointer mapped]

/-- The registers that the code of an operation changes. -/
theorem operationScratch_inside
    (form : inst.RegisterDestination) :
    ∀ register ∈ inst.operationScratch,
      isGuest register = true ∨ register ∈ temporaries := by
  obtain ⟨size, number, type, first⟩ := form.destination
  have guest := isGuest_mapRegType number type
  simp only [operationScratch, guestDestination, first, List.forall_mem_cons]
  exact ⟨Or.inl guest, by decide⟩

/-- An operation on registers, of which the full code makes the flags of the
machine. -/
theorem follows_of_finished
    (represents : Represents layout known machine state)
    (form : inst.RegisterDestination)
    {pruned fullCode : List Inst}
    {full executed : State}
    (run : RunsPruned env inst.updateFlags inst.operationScratch pruned
      fullCode state final full)
    (finished : inst.Finished state executed final)
    {result : BitVec inst.destinationSize.bits}
    (value : (executed.get inst.workRegister).setWidth
      inst.destinationSize.bits = result)
    {written : Machine}
    (write : machine.write layout.mapped inst (inst.getOperand 0)
      (result.setWidth 64) = some written)
    {changed : BitVec 8}
    {flags : Flag -> Bool}
    (covers : ∀ flag ∈ inst.updateFlags, flag ∈ changed)
    (evaluated : ∀ flag ∈ inst.updateFlags,
      EvaluatedFlag (fields full) flag (flags flag)) :
    Follows layout inst (written.setFlags changed flags) state final := by
  obtain ⟨registers, same⟩ := represents.writtenRegisters form.first write
  obtain ⟨host, memory⟩ := represents.of_keepsBut run.prunedKeeps
    (operationScratch_inside form)
  have sameMemory : written.memory = machine.memory := by rw [same]
  refine ⟨fun reg => ?_, fun pointer mapped => ?_, fun flag member => ?_,
    run.runs.kept, host⟩
  · rw [finished.registers, writtenRegisters_bits form.firstValid value]
    exact registers reg
  · exact (memory pointer mapped).trans (congrFun sameMemory.symm pointer)
  · have right := evaluated flag member
    rw [← written.setFlags_of_mem (covers flag member) flags] at right
    refine right.congr ?_
    rintro field rfl
    exact run.runs.stored field member

/-- One of the sides of an exit is determined. -/
theorem exits_ended_unique
    {env : Environment}
    {code : List Inst}
    {first second : State}
    (exits : env.Exits code state (.ended first))
    (other : env.Exits code state (.ended second)) : first = second := by
  simpa using exits.unique other

end Common

/-! ## Operations on two operands -/

section Binary

variable {operation : BinaryOperation}

/-- The source of an addition is not overwritten before the operands of the
carry flag are stored. -/
def KeepsSource (inst : Instruction) (operation : BinaryOperation) : Prop :=
  operation = .add ∨ operation = .adc ->
    inst.getOperand 1 = inst.getOperand 0 -> inst.destinationSize.bytes < 4

/-- The full code of an operation leaves the result and the flags of the
machine. -/
theorem binary_leaves
    (symbols : HostSymbols)
    (form : inst.RegisterForm)
    (all : inst.updateFlags = Flags.all)
    (keepsSource : KeepsSource inst operation)
    (permits : env.PermitsEverything)
    (aligned : TableAligned state)
    {prepared : State}
    (loaded : inst.Prepared state prepared)
    {carry : Bool}
    (carryIn : operation = .adc -> CarryIn .adc state carry)
    {result : BitVec inst.destinationSize.bits}
    {flags : Flag -> Bool}
    (outcome : binaryOutcome (inst.firstBits state) (inst.secondBits state)
      carry operation = some (result, flags)) :
    ∃ executed, inst.Leaves (JumpTable.dispatch runtime env)
      (operation.execute symbols inst) prepared executed result flags := by
  have kept : ∀ added, operation = .add ∨ operation = .adc ->
      storedFlags inst added state =
        additionFlags (inst.firstBits state) (inst.secondBits state) added := by
    intro added isAddition
    rw [storedFlags_eq_iff form]
    intro same long
    exact absurd (keepsSource isAddition same) (by omega)
  cases operation with
  | add =>
      cases outcome
      rw [← kept false (Or.inl rfl)]
      exact addition_leaves symbols form all permits aligned loaded
        (Or.inl rfl) rfl
  | adc =>
      cases outcome
      rw [← kept carry (Or.inr rfl)]
      exact addition_leaves symbols form all permits aligned loaded
        (Or.inr rfl) (carryIn rfl)
  | sub =>
      cases outcome
      rw [← differenceFlags_eq form state]
      exact subtraction_leaves symbols form.toRegisterOperands all permits
        loaded
  | and | or | xor =>
      cases outcome
      exact logic_leaves symbols form.toRegisterOperands all permits loaded rfl
  | shl | shr | sar => cases outcome

/-- The operands of an operation on the machine are the bits on the host. -/
theorem Represents.operands
    (represents : Represents layout known machine state)
    {left right : Word}
    (readLeft : machine.read layout.mapped inst (inst.getOperand 0) =
      some left)
    (readRight : machine.read layout.mapped inst (inst.getOperand 1) =
      some right) :
    inst.firstBits state = left.setWidth inst.destinationSize.bits ∧
      inst.secondBits state = right.setWidth inst.destinationSize.bits :=
  ⟨represents.operandBits readLeft _, represents.operandBits readRight _⟩

/-- A known carry flag is what the lazy information evaluates to. -/
theorem Represents.carryIn
    (represents : Represents layout known machine state)
    (carryKnown : known .carry) :
    CarryIn .adc state (machine.flags .carry) := by
  obtain ⟨values, evaluated, right⟩ := represents.lazyFlags
  have carry := evaluated .carry
  rw [right _ carryKnown] at carry
  exact carry

theorem binary_follows
    (symbols : HostSymbols)
    (kind : inst.instructionClass = .binaryOperation operation)
    (form : inst.RegisterForm)
    (keepsSource : KeepsSource inst operation)
    (represents : Represents layout known machine state)
    (carryKnown : operation = .adc -> known .carry)
    (performs : perform layout.mapped inst machine = some after)
    (permits : env.PermitsEverything) :
    ∃ final, (JumpTable.dispatch runtime env).Exits
        (operation.generate symbols inst) state (.ended final) ∧
      Follows layout inst after state final := by
  have covers : ∀ flag ∈ inst.updateFlags, flag ∈ Flags.all :=
    fun _ _ => Flags.mem_all
  simp only [perform, kind, Option.bind_eq_bind, Option.bind_eq_some_iff]
    at performs
  obtain ⟨left, readLeft, right, readRight, ⟨result, flags⟩, outcome, written,
    write, same⟩ := performs
  obtain rfl := Option.some.inj same
  obtain ⟨first, second⟩ := represents.operands readLeft readRight
  rw [← first, ← second] at outcome
  have carryIn : operation = .adc ->
      CarryIn .adc state (machine.flags .carry) :=
    fun isAdc => represents.carryIn (carryKnown isAdc)
  let whole := inst.setUpdate Flags.all
  have formWhole : whole.RegisterForm :=
    ⟨⟨⟨form.first, form.second, form.firstValid, form.secondValid⟩,
      form.sameSize⟩, form.immediate⟩
  let loading := inst.translateSource.code ++ inst.translateFirst.code
  have further : (env.shift loading.length).PermitsEverything := permits
  obtain ⟨leftOver, leaves⟩ := @binary_leaves whole state runtime
    (env.shift loading.length) operation symbols formWhole rfl keepsSource
    further represents.aligned _ (formWhole.prepared env.origin state)
    (machine.flags .carry) carryIn result flags outcome
  obtain ⟨executed, executedFull, final, full, middle, run, finished,
    finishedFull⟩ := BinaryOperation.generate_runsPruned covers permits symbols
      form.toOnRegisters represents.aligned
      fun isAdc => ⟨_, carryIn isAdc⟩
  obtain rfl := exits_ended_unique leaves.exits middle.fullExits
  have work : inst.workRegister ∉ prunedScratch :=
    List.not_mem_cons_of_ne_of_not_mem
      (form.inRegister.workRegister_ne (by decide))
      form.inRegister.workRegister_scratch.2
  refine ⟨final, run.prunedExits, follows_of_finished represents
    form.inRegister run finished ?_ write covers fun flag _ => ?_⟩
  · rw [middle.runs.registers _ work]
    exact leaves.value
  · rw [finishedFull.fields]
    exact leaves.evaluated.flag flag

end Binary

/-! ## Operations on one operand -/

theorem unary_follows
    {operation : UnaryOperation}
    (kind : inst.instructionClass = .unaryOperation operation)
    (form : inst.RegisterDestination)
    (declared : ∀ flag ∈ inst.updateFlags,
      flag ∈ inst.instructionClass.declaredUpdate)
    (represents : Represents layout known machine state)
    (performs : perform layout.mapped inst machine = some after)
    (permits : env.PermitsEverything) :
    ∃ final, (JumpTable.dispatch runtime env).Exits
        (operation.generate inst) state (.ended final) ∧
      Follows layout inst after state final := by
  rw [kind] at declared
  simp only [perform, kind, Option.bind_eq_bind, Option.bind_eq_some_iff]
    at performs
  obtain ⟨value, read, written, write, same⟩ := performs
  obtain rfl := Option.some.inj same
  have first : inst.firstBits state = _ := represents.operandBits read _
  let more := (InstructionClass.unaryOperation operation).declaredUpdate
  let whole := inst.setUpdate more
  have formWhole : whole.RegisterDestination := ⟨form.first, form.firstValid⟩
  let loading := inst.translateFirst.code
  let prepared := applyAll env.origin state loading
  have loadedFirst : (prepared.get inst.workRegister).setWidth
      inst.destinationSize.bits = inst.firstBits state :=
    form.firstLoaded _ _
  have loadedFields : fields prepared = fields state :=
    fields_computesInto _ _ form.firstComputes (by decide)
  have further : (JumpTable.dispatch runtime
    (env.shift loading.length)).PermitsEverything := permits
  obtain ⟨executed, executedFull, final, full, middle, run, finished,
    finishedFull⟩ := @UnaryOperation.generate_runsPruned inst more declared
      runtime env permits state form operation
  have exits := Environment.exits_straight
    (@UnaryOperation.execute_updates whole inst.workRegister operation).straight
    (further.permitsAll prepared _)
  obtain rfl := exits_ended_unique exits middle.fullExits
  obtain ⟨work, workOutside⟩ := form.workRegister_scratch
  have workNotTemp : inst.workRegister ≠ .t4 := by
    rintro same
    exact workOutside (same ▸ by decide)
  have kept : inst.workRegister ∉ prunedScratch :=
    List.not_mem_cons_of_ne_of_not_mem (form.workRegister_ne (by decide))
      workOutside
  have word := @UnaryOperation.execute_value whole operation inst.workRegister
    work workNotTemp (env.shift loading.length).origin prepared
  refine ⟨final, run.prunedExits, follows_of_finished represents form run
    finished ?_ write declared fun flag member => ?_⟩
  · rw [middle.runs.registers _ kept, ← first, ← loadedFirst,
      ← UnaryOperation.setWidth_word]
    exact congrArg _ word
  · rw [finishedFull.fields, UnaryOperation.execute_fields work workNotTemp
      rfl, ← first, ← loadedFirst]
    exact UnaryOperation.evaluatedFlag_contents (declared flag member) word _

/-! ## Comparisons -/

/-- The smallest immediate is compared with a byte only. -/
def ComparesRight (inst : Instruction) (operation : Comparable) : Prop :=
  operation = .cmp -> (inst.getOperand 1).isImm = true ->
    inst.immediate = -0x800 -> inst.destinationSize = .byte

/-- The fields behind a comparison with all its updates, of operands that are
loaded. -/
theorem compared_evaluated
    {operation : Comparable}
    (form : inst.RegisterForm)
    (all : inst.updateFlags = Flags.all)
    (comparesRight : ComparesRight inst operation)
    {prepared : State}
    (loaded : inst.Prepared state prepared)
    (pc : Word) :
    let executed := applyAll pc prepared (operation.execute inst).1
    Evaluated
      (resultContents Flags.all (executed.get (operation.execute inst).2)
        inst.destinationSize (fields executed))
      (comparedFlags (inst.firstBits state) (inst.secondBits state)
        operation) := by
  cases operation with
  | cmp =>
      obtain ⟨value, bits, subtracts⟩ := cmp_subtracts
        form.toRegisterOperands all loaded
      have evaluated := subtracts.evaluated pc
      simp only [subtracts.computed, comparedFlags]
      rw [← differenceFlags_eq form,
        ← comparedFlags_eq_iff.mpr (comparesRight rfl), ← bits]
      exact evaluated
  | test =>
      obtain ⟨computation, code, computes, target, value⟩ :=
        @Test.execute_conjunction inst state form.toRegisterOperands
      have clears := inst.clearFlags_updates
      simp only [code, Test.execute]
      have kept : (applyAll pc prepared (Logic.execute inst computation)).get
          .t5 = (computation.apply pc prepared).get .t5 := by
        rw [Logic.execute, applyAll_cons, clears.get _ _ (by decide)]
      rw [comparedFlags, ← value prepared loaded pc, ← kept]
      exact evaluated_clearFlags all computation _ _

/-- The code of a comparison with all its updates. -/
theorem comparable_ends
    {operation : Comparable}
    (form : inst.RegisterForm)
    (all : inst.updateFlags = Flags.all)
    (comparesRight : ComparesRight inst operation)
    (permits : env.PermitsEverything) :
    ∃ final, (JumpTable.dispatch runtime env).Exits
        (operation.generate inst) state (.ended final) ∧
      Evaluated (fields final)
        (comparedFlags (inst.firstBits state) (inst.secondBits state)
          operation) := by
  have operands := form.toRegisterOperands
  let loading := inst.translateSource.code ++ inst.translateFirst.code
  let execution := operation.execute inst
  have loads : ComputesInto [.t2, .t0] loading := operands.loads
  have updates := Comparable.execute_updates inst operation
  have finishes := inst.resultUpdates_updates execution.2
    inst.destinationSize .t3
  have everything : UpdatesFields [.t0, .t2, .t3, .t4, .t5]
      (loading ++ execution.1 ++
        inst.resultUpdates execution.2 inst.destinationSize .t3) :=
    Updates.append
      (Updates.append ((UpdatesFields.computeInto loads).mono (by simp))
        (updates.mono (by simp)))
      (finishes.mono (by simp))
  have dispatched : (JumpTable.dispatch runtime env).PermitsEverything :=
    permits
  rw [Comparable.generate_eq operation operands.toOnRegisters]
  refine ⟨_, Environment.exits_straight everything.straight
    (dispatched.permitsAll state _), ?_⟩
  rw [applyAll_append, applyAll_append,
    inst.resultUpdates_fields _ _ (by decide : Scratch .t3)
      (Comparable.execute_result operands.toOnRegisters operation).1, all]
  exact compared_evaluated form all comparesRight
    (operands.prepared env.origin state) _

theorem comparable_follows
    {operation : Comparable}
    (kind : inst.instructionClass = .comparable operation)
    (form : inst.RegisterForm)
    (comparesRight : ComparesRight inst operation)
    (represents : Represents layout known machine state)
    (performs : perform layout.mapped inst machine = some after)
    (permits : env.PermitsEverything) :
    ∃ final, (JumpTable.dispatch runtime env).Exits
        (operation.generate inst) state (.ended final) ∧
      Follows layout inst after state final := by
  have covers : ∀ flag ∈ inst.updateFlags, flag ∈ Flags.all :=
    fun _ _ => Flags.mem_all
  simp only [perform, kind, Option.bind_eq_bind, Option.bind_eq_some_iff]
    at performs
  obtain ⟨left, readLeft, right, readRight, same⟩ := performs
  obtain rfl := Option.some.inj same
  obtain ⟨first, second⟩ := represents.operands readLeft readRight
  let whole := inst.setUpdate Flags.all
  have formWhole : whole.RegisterForm :=
    ⟨⟨⟨form.first, form.second, form.firstValid, form.secondValid⟩,
      form.sameSize⟩, form.immediate⟩
  obtain ⟨final, full, run⟩ := @Comparable.generate_runsPruned inst Flags.all
    covers runtime env permits state form.toOnRegisters operation
  obtain ⟨ended, exits, evaluated⟩ := @comparable_ends whole state runtime env
    operation formWhole rfl comparesRight permits
  obtain rfl := exits_ended_unique run.fullExits exits
  have inside : ∀ register ∈ [Register.t0, .t2, .t3, .t4, .t5],
      isGuest register = true ∨ register ∈ temporaries := by
    decide
  obtain ⟨host, memory⟩ := represents.of_keepsBut run.prunedKeeps inside
  refine ⟨final, run.prunedExits, fun reg => ?_, memory,
    fun flag member => ?_, run.runs.kept, host⟩
  · rw [run.prunedKeeps.registers _ (by simp)]
    exact represents.registers reg
  · have flags : EvaluatedFlag (fields full) flag
        (comparedFlags (inst.firstBits state) (inst.secondBits state) operation
          flag) := evaluated.flag flag
    rw [first, second] at flags
    rw [machine.setFlags_of_mem Flags.mem_all]
    refine flags.congr ?_
    rintro field rfl
    exact run.runs.stored field member

/-! ## The carry flag -/

theorem setCarry_follows
    (set : Bool)
    (declared : ∀ flag ∈ inst.updateFlags, flag ∈ Flags.carry)
    (represents : Represents layout known machine state)
    (permits : env.PermitsEverything) :
    ∃ final, (JumpTable.dispatch runtime env).Exits
        (inst.setCarry set .t4) state (.ended final) ∧
      Follows layout inst (machine.setFlags Flags.carry fun _ => set) state
        final := by
  rw [setCarry_eq]
  let entry := if set then JumpTable.Entry.carrySet else .carryClear
  let code := inst.updateCarry (some entry) none none .t4
  have updates : UpdatesFields [.t4] code :=
    inst.updateCarry_updates (some entry) none none .t4
  have contents : fields (applyAll env.origin state code) =
      if Flag.carry ∈ inst.updateFlags then
        carrySlots.write (some entry) none none (fields state)
      else
        fields state :=
    inst.updateOperation_fields _ _ carrySlots_describes _
      (fun _ => by decide) (by simp) (by simp)
  have dispatched : (JumpTable.dispatch runtime env).PermitsEverything :=
    permits
  have inside : ∀ register ∈ [Register.t4],
      isGuest register = true ∨ register ∈ temporaries := by
    decide
  obtain ⟨host, memory⟩ := represents.of_keepsBut
    (KeepsBut.of_updates updates (by decide) env.origin state) inside
  refine ⟨applyAll env.origin state code,
    Environment.exits_straight updates.straight (dispatched.permitsAll _ _),
    fun reg => ?_, memory, fun flag member => ?_, fun field absent => ?_,
    host⟩
  · rw [updates.get _ _ (by simp)]
    exact represents.registers reg
  · have isCarry : flag = .carry := by
      have := declared flag member
      revert this
      cases flag <;> decide
    subst isCarry
    rw [contents, if_pos member,
      machine.setFlags_of_mem (by decide : Flag.carry ∈ Flags.carry)]
    refine ⟨entry, rfl, ?_⟩
    cases set <;> rfl
  · rw [contents]
    split
    · rename_i carry
      cases field <;> first | rfl | exact absurd carry absent
    · rfl

end Guest
end Oxtra

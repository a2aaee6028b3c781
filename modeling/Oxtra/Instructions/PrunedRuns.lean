import Oxtra.Instructions.Generate
import Oxtra.Instructions.Pruning

/-!
# Runs of pruned code

The code of an operation on registers with some of its updates next to the code
with all of them.  Both end in states with the same registers of the guest, and
what the pruned code stores about the flags agrees with the full code.
-/

namespace Oxtra

open RiscV
open Encoding
open Helper
open FlagInfo
open Instruction
open Fadec (Operand OperandSize)

/-! ## The operations with their operands loaded -/

/-- The address is none of the fields of the lazy information. -/
def FlagInfo.Outside (state : State) (pointer : Word) : Prop :=
  ¬ (0x200 ≤ (pointer - state.get contextAddress).toNat ∧
    (pointer - state.get contextAddress).toNat < Field.limit)

namespace Instruction

/-- Some code keeps every register but some temporaries, and the memory outside
of the lazy information. -/
structure KeepsBut
    (temps : List Register)
    (before after : State) : Prop where
  registers : ∀ register, register ∉ temps ->
    after.get register = before.get register
  memory : ∀ pointer, FlagInfo.Outside before pointer ->
    after.mem pointer = before.mem pointer

namespace KeepsBut

variable {temps more : List Register} {before middle after : State}

theorem refl (temps : List Register) (state : State) :
    KeepsBut temps state state :=
  ⟨fun _ _ => rfl, fun _ _ => rfl⟩

theorem mono
    (keeps : KeepsBut temps before after)
    (subset : ∀ register ∈ temps, register ∈ more) :
    KeepsBut more before after :=
  ⟨fun register outside =>
    keeps.registers register fun member => outside (subset register member),
    keeps.memory⟩

theorem trans
    (context : contextAddress ∉ temps)
    (first : KeepsBut temps before middle)
    (second : KeepsBut temps middle after) :
    KeepsBut temps before after where
  registers register outside :=
    (second.registers register outside).trans
      (first.registers register outside)
  memory pointer outside := by
    rw [second.memory pointer, first.memory pointer outside]
    unfold FlagInfo.Outside
    rw [first.registers contextAddress context]
    exact outside

theorem of_updates
    {code : List Inst}
    (updates : UpdatesFields temps code)
    (context : contextAddress ∉ temps)
    (pc : Word)
    (state : State) :
    KeepsBut temps state (applyAll pc state code) :=
  ⟨fun _ outside => updates.get pc state outside,
    fun _ outside => updates.mem (by decide) context pc state outside⟩

theorem of_evaluates
    {env : Environment}
    {code : List Inst}
    {value : Bool}
    (evaluates : Evaluates env code before value) :
    ∃ after, env.Exits code before (.ended after) ∧
      after.get .t4 = bit value ∧ after.mem = before.mem ∧
      KeepsBut evaluationScratch before after := by
  obtain ⟨after, exits, flag, memory, registers⟩ := evaluates
  exact ⟨after, exits, flag, memory, registers, fun _ _ => by rw [memory]⟩

end KeepsBut

/-- Registers in which runs of pruned and of full code may differ. -/
def prunedScratch : List Register := .t2 :: executionScratch

/-- Pruned code runs next to the full code from the same state. -/
structure RunsPruned
    (env : Environment)
    (updated : BitVec 8)
    (temps : List Register)
    (pruned full : List Inst)
    (before afterPruned afterFull : State) : Prop where
  prunedExits : env.Exits pruned before (.ended afterPruned)
  fullExits : env.Exits full before (.ended afterFull)
  runs : Pruned prunedScratch updated before afterPruned afterFull
  prunedKeeps : KeepsBut temps before afterPruned
  fullKeeps : KeepsBut temps before afterFull

theorem RunsPruned.mono
    {env : Environment}
    {updated : BitVec 8}
    {temps more : List Register}
    {pruned full : List Inst}
    {before afterPruned afterFull : State}
    (run : RunsPruned env updated temps pruned full before afterPruned
      afterFull)
    (subset : ∀ register ∈ temps, register ∈ more) :
    RunsPruned env updated more pruned full before afterPruned afterFull where
  prunedExits := run.prunedExits
  fullExits := run.fullExits
  runs := run.runs
  prunedKeeps := run.prunedKeeps.mono subset
  fullKeeps := run.fullKeeps.mono subset

/-- Straight code that may be pruned. -/
theorem RunsPruned.of_prunes
    {runtime : JumpTable.Runtime}
    {env : Environment}
    (permits : env.PermitsEverything)
    {updated : BitVec 8}
    {temps : List Register}
    {pruned full : List Inst}
    (prunes : Prunes executionScratch updated pruned full)
    (prunedUpdates : UpdatesFields temps pruned)
    (fullUpdates : UpdatesFields temps full)
    (context : contextAddress ∉ temps)
    (before : State) :
    RunsPruned (JumpTable.dispatch runtime env) updated temps pruned full
      before (applyAll env.origin before pruned)
      (applyAll env.origin before full) := by
  have permits : (JumpTable.dispatch runtime env).PermitsEverything := permits
  exact
    { prunedExits := Environment.exits_straight prunedUpdates.straight
        (permits.permitsAll _ _)
      fullExits := Environment.exits_straight fullUpdates.straight
        (permits.permitsAll _ _)
      runs := (prunes _ _ _ (Pruned.refl before) _ _).mono
        fun _ member => List.mem_cons_of_mem _ member
      prunedKeeps := KeepsBut.of_updates prunedUpdates context _ _
      fullKeeps := KeepsBut.of_updates fullUpdates context _ _ }

/-- The same code in front of both. -/
theorem RunsPruned.behind
    {env : Environment}
    {updated : BitVec 8}
    {temps : List Register}
    {first pruned full : List Inst}
    {before middle afterPruned afterFull : State}
    (context : contextAddress ∉ temps)
    (exits : env.Exits first before (.ended middle))
    (keeps : KeepsBut temps before middle)
    (sameFields : fields middle = fields before)
    (further : RunsPruned (env.shift first.length) updated temps pruned full
      middle afterPruned afterFull) :
    RunsPruned env updated temps (first ++ pruned) (first ++ full) before
      afterPruned afterFull where
  prunedExits := exits.append further.prunedExits (by simp)
  fullExits := exits.append further.fullExits (by simp)
  runs := ⟨further.runs.registers, further.runs.stored, fun field absent =>
    (further.runs.kept field absent).trans (congrFun sameFields field)⟩
  prunedKeeps := keeps.trans context further.prunedKeeps
  fullKeeps := keeps.trans context further.fullKeeps

end Instruction

section Execute

variable {inst : Instruction} {more : BitVec 8}
variable (covers : ∀ flag ∈ inst.updateFlags, flag ∈ more)
variable {runtime : JumpTable.Runtime} {env : Environment} {prepared : State}
variable (permits : env.PermitsEverything)

include covers permits

/-- The addition of two registers and the carry flag. -/
theorem Adc.executeRegister_runsPruned
    {dst src : Register}
    (scratch : Scratch dst)
    (dstKept : dst ∉ [.t4, .t5, .t6, .ra])
    (srcKept : src ∉ [.t4, .t5, .t6, .ra])
    {carry : Bool}
    (evaluates : Evaluates (JumpTable.dispatch runtime env)
      Instruction.evaluateCarry prepared carry) :
    ∃ executed full,
      RunsPruned (JumpTable.dispatch runtime env) inst.updateFlags
        (dst :: evaluationScratch) (executeRegister inst dst src)
        (executeRegister (inst.setUpdate more) dst src) prepared executed
        full := by
  obtain ⟨evaluated, exits, flag, memory, keeps⟩ :=
    KeepsBut.of_evaluates evaluates
  let further := env.shift Instruction.evaluateCarry.length
  have permitsFurther : (JumpTable.dispatch runtime further).PermitsEverything :=
    permits
  have context : contextAddress ∉ dst :: evaluationScratch :=
    List.not_mem_cons_of_ne_of_not_mem scratch.2.symm (by decide)
  simp only [List.mem_cons, List.not_mem_nil, or_false, not_or]
    at dstKept srcKept
  have dstOutside : dst ∉ [.t4, .t5, .t6] := by
    simp [dstKept]
  have srcOutside : src ∉ [.t4, .t5, .t6] := by
    simp [srcKept]
  have pruned := @addEvaluated_updates inst dst src
  have full := @addEvaluated_updates (inst.setUpdate more) dst src
  have subset : ∀ register ∈ [dst, .t4, .t5, .t6],
      register ∈ dst :: evaluationScratch := by
    simp [evaluationScratch]
  have keepsAll : KeepsBut (dst :: evaluationScratch) prepared evaluated :=
    keeps.mono fun _ member => List.mem_cons_of_mem _ member
  have runs := addEvaluated_prunes inst scratch dstOutside srcOutside covers
    further.origin further.origin flag
  have executes : RunsPruned (JumpTable.dispatch runtime further)
      inst.updateFlags (dst :: evaluationScratch) (addEvaluated inst dst src)
      (addEvaluated (inst.setUpdate more) dst src) evaluated
      (applyAll further.origin evaluated (addEvaluated inst dst src))
      (applyAll further.origin evaluated
        (addEvaluated (inst.setUpdate more) dst src)) :=
    { prunedExits := Environment.exits_straight pruned.straight
        (permitsFurther.permitsAll _ _)
      fullExits := Environment.exits_straight full.straight
        (permitsFurther.permitsAll _ _)
      runs := runs.mono (by simp [prunedScratch, executionScratch])
      prunedKeeps := KeepsBut.of_updates (pruned.mono subset) context _ _
      fullKeeps := KeepsBut.of_updates (full.mono subset) context _ _ }
  exact ⟨_, _, RunsPruned.behind context exits keepsAll
    (fields_congr memory (keeps.registers _ (by decide))) executes⟩

/-- The addition with the carry flag, with its operands loaded.  An immediate
is loaded in front of the evaluation of the flag. -/
theorem BinaryOperation.execute_adc_runsPruned
    (symbols : HostSymbols)
    (operands : inst.OnRegisters)
    (aligned : TableAligned prepared)
    {carry : Bool}
    (carryIn : CarryIn .adc prepared carry) :
    ∃ executed full,
      RunsPruned (JumpTable.dispatch runtime env) inst.updateFlags
        (inst.workRegister :: executionScratch)
        (BinaryOperation.execute .adc symbols inst)
        (BinaryOperation.execute .adc symbols (inst.setUpdate more)) prepared
        executed full := by
  obtain ⟨work, workOutside⟩ := operands.inRegister.workRegister_scratch
  have subset : ∀ register ∈ inst.workRegister :: evaluationScratch,
      register ∈ inst.workRegister :: executionScratch := by
    intro register member
    rcases List.mem_cons.mp member with rfl | temporary
    · exact List.mem_cons_self
    · exact List.mem_cons_of_mem _ (List.mem_cons_of_mem _ temporary)
  have workKept : inst.workRegister ∉ [.t4, .t5, .t6, .ra] := fun member =>
    workOutside (List.mem_cons_of_mem _ member)
  by_cases immediate : inst.immediateSource = true
  · have zero := operands.source_eq_zero.mpr immediate
    let first := [addi .t3 .zero (inst.immediate.setWidth 16)]
    have code : BinaryOperation.execute .adc symbols inst =
        first ++ Adc.executeRegister inst inst.workRegister .t3 :=
      if_neg (not_not_intro zero)
    have fullCode : BinaryOperation.execute .adc symbols
        (inst.setUpdate more) =
          first ++ Adc.executeRegister (inst.setUpdate more)
            inst.workRegister .t3 :=
      if_neg (not_not_intro zero)
    have loads : ComputesInto [.t3] first :=
      ComputesInto.singleton rfl rfl (by simp)
    let started := applyAll env.origin prepared first
    have permitsAll : (JumpTable.dispatch runtime env).PermitsEverything :=
      permits
    have exits := Environment.exits_straight loads.straight
      (permitsAll.permitsAll prepared first)
    have keeps : KeepsBut (inst.workRegister :: executionScratch) prepared
        started :=
      (KeepsBut.of_updates (UpdatesFields.computeInto loads) (by decide) _
        _).mono (by simp [executionScratch])
    have sameFields : fields started = fields prepared :=
      fields_computesInto _ _ loads (by decide)
    have startedAligned : TableAligned started := by
      rw [TableAligned, loads.get _ _ (by decide)]
      exact aligned
    have further : (env.shift first.length).PermitsEverything := permits
    obtain ⟨executed, full, run⟩ := Adc.executeRegister_runsPruned covers
      further work workKept (by decide : Register.t3 ∉ [.t4, .t5, .t6, .ra])
      (carryIn.evaluates further startedAligned sameFields)
    rw [code, fullCode]
    exact ⟨executed, full, RunsPruned.behind
      (List.not_mem_cons_of_ne_of_not_mem work.2.symm (by decide)) exits keeps
      sameFields (run.mono subset)⟩
  · have noImmediate : inst.immediateSource = false := by
      simpa using immediate
    obtain ⟨source, sourceOutside⟩ := operands.source_scratch noImmediate
    have code : BinaryOperation.execute .adc symbols inst =
        Adc.executeRegister inst inst.workRegister
          inst.translateSource.value :=
      if_pos source.1
    have fullCode : BinaryOperation.execute .adc symbols
        (inst.setUpdate more) =
          Adc.executeRegister (inst.setUpdate more) inst.workRegister
            inst.translateSource.value :=
      if_pos source.1
    obtain ⟨executed, full, run⟩ := Adc.executeRegister_runsPruned covers
      permits work workKept
      (fun member => sourceOutside (List.mem_cons_of_mem _ member))
      (carryIn.evaluates permits aligned rfl)
    rw [code, fullCode]
    exact ⟨executed, full, run.mono subset⟩

omit permits in
/-- The other operations are straight code. -/
theorem BinaryOperation.execute_prunes
    (symbols : HostSymbols)
    (operands : inst.OnRegisters)
    {operation : BinaryOperation}
    (evaluatesNothing : operation ≠ .adc) :
    Prunes executionScratch inst.updateFlags (operation.execute symbols inst)
        (operation.execute symbols (inst.setUpdate more)) ∧
      ∀ updater : Instruction, updater = inst ∨ updater = inst.setUpdate more ->
        UpdatesFields [inst.workRegister, .t4]
          (operation.execute symbols updater) := by
  obtain ⟨work, workOutside⟩ := operands.inRegister.workRegister_scratch
  have temporary : Register.t4 ∈ executionScratch := by decide
  by_cases immediate : inst.immediateSource = true
  · have zero := operands.source_eq_zero.mpr immediate
    have code : operation.execute symbols inst =
        operation.executeImmediate symbols inst inst.workRegister
          inst.immediate :=
      if_neg (not_not_intro zero)
    have fullCode : operation.execute symbols (inst.setUpdate more) =
        operation.executeImmediate symbols (inst.setUpdate more)
          inst.workRegister inst.immediate :=
      if_neg (not_not_intro zero)
    constructor
    · rw [code, fullCode]
      exact executeImmediate_prunes covers temporary work workOutside symbols
        evaluatesNothing
    · rintro updater (rfl | rfl)
      · rw [code]
        exact executeImmediate_updates symbols _ evaluatesNothing _
      · rw [fullCode]
        exact executeImmediate_updates symbols _ evaluatesNothing _
  · have noImmediate : inst.immediateSource = false := by
      simpa using immediate
    obtain ⟨source, sourceOutside⟩ := operands.source_scratch noImmediate
    have code : operation.execute symbols inst =
        operation.executeRegister symbols inst inst.workRegister
          inst.translateSource.value :=
      if_pos source.1
    have fullCode : operation.execute symbols (inst.setUpdate more) =
        operation.executeRegister symbols (inst.setUpdate more)
          inst.workRegister inst.translateSource.value :=
      if_pos source.1
    constructor
    · rw [code, fullCode]
      exact executeRegister_prunes covers temporary work workOutside symbols
        evaluatesNothing sourceOutside
    · rintro updater (rfl | rfl)
      · rw [code]
        exact executeRegister_updates symbols _ evaluatesNothing _
      · rw [fullCode]
        exact executeRegister_updates symbols _ evaluatesNothing _

/-- An operation on two operands, with its operands loaded. -/
theorem BinaryOperation.execute_runsPruned
    (symbols : HostSymbols)
    (operands : inst.OnRegisters)
    (aligned : TableAligned prepared)
    {operation : BinaryOperation}
    (carryIn : operation = .adc -> ∃ carry, CarryIn .adc prepared carry) :
    ∃ executed full,
      RunsPruned (JumpTable.dispatch runtime env) inst.updateFlags
        (inst.workRegister :: executionScratch)
        (operation.execute symbols inst)
        (operation.execute symbols (inst.setUpdate more)) prepared executed
        full := by
  obtain ⟨work, -⟩ := operands.inRegister.workRegister_scratch
  by_cases isAdc : operation = .adc
  · subst isAdc
    obtain ⟨carry, carryIn⟩ := carryIn rfl
    exact execute_adc_runsPruned covers permits symbols operands aligned
      carryIn
  · obtain ⟨prunes, updates⟩ := execute_prunes covers symbols operands isAdc
    have subset : ∀ register ∈ [inst.workRegister, .t4],
        register ∈ inst.workRegister :: executionScratch := by
      simp [executionScratch]
    exact ⟨_, _, RunsPruned.of_prunes permits prunes
      ((updates _ (Or.inl rfl)).mono subset)
      ((updates _ (Or.inr rfl)).mono subset)
      (List.not_mem_cons_of_ne_of_not_mem work.2.symm (by decide)) prepared⟩

/-- An operation on one operand, with its operand loaded. -/
theorem UnaryOperation.execute_runsPruned
    (form : inst.RegisterDestination)
    (operation : UnaryOperation) :
    ∃ executed full,
      RunsPruned (JumpTable.dispatch runtime env) inst.updateFlags
        (inst.workRegister :: executionScratch)
        (operation.execute inst inst.workRegister)
        (operation.execute (inst.setUpdate more) inst.workRegister) prepared
        executed full := by
  obtain ⟨work, workOutside⟩ := form.workRegister_scratch
  have subset : ∀ register ∈ [inst.workRegister, .t4],
      register ∈ inst.workRegister :: executionScratch := by
    simp [executionScratch]
  exact ⟨_, _, RunsPruned.of_prunes permits
    (UnaryOperation.execute_prunes covers (by decide) work workOutside
      (by decide) operation)
    ((execute_updates inst operation).mono subset)
    ((execute_updates (inst.setUpdate more) operation).mono subset)
    (List.not_mem_cons_of_ne_of_not_mem work.2.symm (by decide)) prepared⟩

omit permits in
/-- A comparison, with its operands loaded.  Both codes leave their result in
the same register, which is no temporary. -/
theorem Comparable.execute_prunes
    (operands : inst.OnRegisters)
    (operation : Comparable) :
    Prunes [.t4] inst.updateFlags (operation.execute inst).1
        (operation.execute (inst.setUpdate more)).1 ∧
      (operation.execute (inst.setUpdate more)).2 =
        (operation.execute inst).2 := by
  obtain ⟨work, workOutside⟩ := operands.inRegister.workRegister_scratch
  simp only [executionScratch, List.mem_cons, List.not_mem_nil, or_false,
    not_or] at workOutside
  have temporary : Register.t4 ∈ [Register.t4] := by decide
  have workKept : inst.workRegister ∉ [Register.t4] := by
    simp [workOutside]
  have notContext : contextAddress ≠ Register.t5 := by decide
  by_cases immediate : inst.immediateSource = true
  · have zero := operands.source_eq_zero.mpr immediate
    have reads : ∀ register ∈ [inst.workRegister], register ∉ [Register.t4] := by
      simp [workOutside]
    have code : operation.execute inst =
        operation.executeImmediate inst inst.workRegister inst.immediate :=
      if_neg (not_not_intro zero)
    have fullCode : operation.execute (inst.setUpdate more) =
        operation.executeImmediate (inst.setUpdate more) inst.workRegister
          (inst.setUpdate more).immediate :=
      if_neg (not_not_intro zero)
    rw [code, fullCode]
    cases operation with
    | cmp =>
        simp only [executeImmediate, Cmp.executeImmediate_difference]
        refine ⟨immediateDifference_prunes covers temporary workKept
          (Prunes.computation (Cmp.compareImmediate_computesInto _ _)
            (by decide) ?_) ?_, rfl⟩
        · have adds : ∀ number, (addi .t5 inst.workRegister
              number).computesOutside [.t4] = true := fun number =>
            Inst.computesOutside_of_sources rfl rfl rfl reads
          unfold Cmp.compareImmediate
          split
          · simp
          · split <;> simp [adds]
        · unfold Cmp.resultRegister
          split
          · exact ⟨workKept, work.1⟩
          · decide
    | test =>
        refine ⟨Logic.execute_prunes covers temporary ?_, rfl⟩
        exact Prunes.single rfl rfl notContext rfl
          (rfl : _ = [inst.workRegister]) reads
  · have noImmediate : inst.immediateSource = false := by
      simpa using immediate
    obtain ⟨source, sourceOutside⟩ := operands.source_scratch noImmediate
    simp only [executionScratch, List.mem_cons, List.not_mem_nil, or_false,
      not_or] at sourceOutside
    have sourceKept : inst.translateSource.value ∉ [Register.t4] := by
      simp [sourceOutside]
    have reads : ∀ register ∈ [inst.workRegister, inst.translateSource.value],
        register ∉ [Register.t4] := by
      simp [workOutside, sourceOutside]
    have code : operation.execute inst =
        operation.executeRegister inst inst.workRegister
          inst.translateSource.value :=
      if_pos source.1
    have fullCode : operation.execute (inst.setUpdate more) =
        operation.executeRegister (inst.setUpdate more) inst.workRegister
          inst.translateSource.value :=
      if_pos source.1
    rw [code, fullCode]
    cases operation with
    | cmp =>
        simp only [executeRegister, Cmp.executeRegister_eq]
        refine ⟨registerDifference_prunes covers temporary workKept ?_
          sourceKept (by decide), trivial⟩
        exact Prunes.single rfl rfl notContext rfl
          (rfl : _ = [inst.workRegister, inst.translateSource.value]) reads
    | test =>
        refine ⟨Logic.execute_prunes covers temporary ?_, rfl⟩
        exact Prunes.single rfl rfl notContext rfl
          (rfl : _ = [inst.workRegister, inst.translateSource.value]) reads

end Execute

/-! ## Results and destinations -/

namespace Instruction

/-- The register of the guest that the destination is in. -/
def guestDestination (inst : Instruction) : Register :=
  match inst.getOperand 0 with
  | .reg _ number type => mapRegType number type
  | _ => .zero

/-- Registers that the code of an operation on registers may change. -/
def operationScratch (inst : Instruction) : List Register :=
  [inst.guestDestination, .t0, .t2, .t3, .t4, .t5, .t6, .ra]

/-- Contents with the result of an operation, for a smaller and for a larger
update set. -/
theorem resultContents_pruned
    {updated more : BitVec 8}
    (covers : ∀ flag ∈ updated, flag ∈ more)
    {start pruned full : Field -> Word}
    (stored : ∀ field : Field, field.flag ∈ updated ->
      pruned field = full field)
    (kept : ∀ field : Field, field.flag ∉ updated ->
      pruned field = start field)
    (result : Word)
    (size : OperandSize)
    (field : Field) :
    (field.flag ∈ updated ->
        resultContents updated result size pruned field =
          resultContents more result size full field) ∧
      (field.flag ∉ updated ->
        resultContents updated result size pruned field = start field) := by
  have stored := stored field
  have kept := kept field
  have covers := covers field.flag
  constructor
  · intro member
    have further := covers member
    have same := stored member
    cases field <;> simp only [Field.flag] at member further <;>
      simp only [resultContents, member, further, if_true, same]
  · intro absent
    have same := kept absent
    cases field <;> simp only [Field.flag] at absent <;>
      simp only [resultContents, absent, if_false, same]

/-- The updates for the result of a comparison. -/
theorem Pruned.resultUpdates
    {inst : Instruction}
    {temps : List Register}
    {more : BitVec 8}
    (covers : ∀ flag ∈ inst.updateFlags, flag ∈ more)
    {start pruned full : State}
    (runs : Pruned temps inst.updateFlags start pruned full)
    {va : Register}
    (outside : va ∉ temps)
    (kept : va ≠ .t3)
    (size : OperandSize)
    (prunedPc fullPc : Word) :
    Pruned (.t3 :: temps) inst.updateFlags start
      (applyAll prunedPc pruned (inst.resultUpdates va size .t3))
      (applyAll fullPc full
        ((inst.setUpdate more).resultUpdates va size .t3)) := by
  have updates := inst.resultUpdates_updates va size .t3
  have fullUpdates := (inst.setUpdate more).resultUpdates_updates va size .t3
  have contents := resultContents_pruned covers runs.stored runs.kept
    (pruned.get va) size
  refine ⟨?_, ?_, ?_⟩
  · intro register other
    rw [List.mem_cons, not_or] at other
    rw [updates.get _ _ (by simpa using other.1),
      fullUpdates.get _ _ (by simpa using other.1)]
    exact runs.registers register other.2
  · intro field member
    rw [inst.resultUpdates_fields _ _ (by decide) kept,
      (inst.setUpdate more).resultUpdates_fields _ _ (by decide) kept,
      ← runs.registers va outside]
    exact (contents field).1 member
  · intro field absent
    rw [inst.resultUpdates_fields _ _ (by decide) kept]
    exact (contents field).2 absent

section Finish

variable {inst : Instruction} {more : BitVec 8}
variable {runtime : JumpTable.Runtime} {env : Environment}
variable {temp : Register}

theorem RegisterDestination.work_mem (form : inst.RegisterDestination) :
    inst.workRegister ∈ inst.operationScratch := by
  obtain ⟨size, number, type, first⟩ := form.destination
  simp only [operationScratch, guestDestination, workRegister, first,
    destinationRegister]
  split
  · rename_i long
    have low := low_of_valid (first ▸ form.firstValid) long
    subst low
    exact List.mem_cons_self
  · simp

theorem RegisterDestination.finish_updates
    (form : inst.RegisterDestination)
    (isTemp : temp = .t2 ∨ temp = .t3) :
    UpdatesFields inst.operationScratch (inst.finishThrough temp) := by
  obtain ⟨size, number, type, first⟩ := form.destination
  have writes := inst.translateDestination_computesInto first
    inst.workRegister .zero .t2 .t3
  have updates := inst.resultUpdates_updates inst.workRegister
    inst.destinationSize temp
  refine Updates.append (updates.mono ?_)
    ((UpdatesFields.computeInto writes).mono ?_)
  · rcases isTemp with rfl | rfl <;> simp [operationScratch]
  · simp [operationScratch, guestDestination, first]

theorem RegisterDestination.context_kept (form : inst.RegisterDestination) :
    contextAddress ∉ inst.operationScratch := by
  obtain ⟨size, number, type, first⟩ := form.destination
  have guest := isGuest_mapRegType number type
  simp only [operationScratch, guestDestination, first, List.mem_cons,
    List.not_mem_nil, or_false, not_or]
  exact ⟨(ne_of_isGuest guest (by decide)).symm, by decide⟩

/-- One of the codes behind its operation. -/
theorem RegisterDestination.finish_exits
    (permits : env.PermitsEverything)
    (form : inst.RegisterDestination)
    (isTemp : temp = .t2 ∨ temp = .t3)
    {loading middle : List Inst}
    (loads : ComputesInto [.t2, .t0] loading)
    {state executed : State}
    (exits : (JumpTable.dispatch runtime (env.shift loading.length)).Exits
      middle (applyAll env.origin state loading) (.ended executed))
    (keeps : KeepsBut (inst.workRegister :: executionScratch)
      (applyAll env.origin state loading) executed) :
    ∃ final,
      (JumpTable.dispatch runtime env).Exits
          (loading ++ middle ++ inst.finishThrough temp) state
          (.ended final) ∧
        inst.Finished state executed final ∧
        KeepsBut inst.operationScratch state final := by
  have permitsAll : (JumpTable.dispatch runtime env).PermitsEverything :=
    permits
  let further := (env.shift loading.length).shift middle.length
  have permitsFurther :
      (JumpTable.dispatch runtime further).PermitsEverything := permits
  have context := form.context_kept
  have loading := Environment.exits_straight loads.straight
    (permitsAll.permitsAll state _)
  have finishes := @form.finish_updates inst temp isTemp
  have finishing := Environment.exits_straight finishes.straight
    (permitsFurther.permitsAll executed _)
  have guest : ∀ reg, mapReg reg ≠ inst.workRegister ->
      executed.get (mapReg reg) = state.get (mapReg reg) := by
    intro reg other
    rw [keeps.registers _ (by simp [other, executionScratch]),
      loads.get _ _ (by simp)]
  refine ⟨_, ?_, form.finished isTemp further.origin guest, ?_⟩
  · rw [List.append_assoc]
    exact loading.append (exits.append finishing (by simp)) (by simp)
  · have loadKeeps := (KeepsBut.of_updates (UpdatesFields.computeInto loads)
      (by decide) env.origin state).mono
        (by simp [operationScratch] : ∀ register ∈ [Register.t2, .t0],
          register ∈ inst.operationScratch)
    have middleKeeps := keeps.mono
      (by
        intro register member
        rcases List.mem_cons.mp member with rfl | temporary
        · exact form.work_mem
        · revert temporary
          simp only [executionScratch, operationScratch, List.mem_cons,
            List.not_mem_nil, or_false]
          tauto : ∀ register ∈ inst.workRegister :: executionScratch,
            register ∈ inst.operationScratch)
    exact (loadKeeps.trans context middleKeeps).trans context
      (KeepsBut.of_updates finishes context _ _)

/-- The code behind an operation runs next to the full code. -/
theorem RegisterDestination.finish_runsPruned
    (covers : ∀ flag ∈ inst.updateFlags, flag ∈ more)
    (permits : env.PermitsEverything)
    (form : inst.RegisterDestination)
    (isTemp : temp = .t2 ∨ temp = .t3)
    {loading middle middleFull : List Inst}
    (loads : ComputesInto [.t2, .t0] loading)
    {state executed executedFull : State}
    (run : RunsPruned (JumpTable.dispatch runtime (env.shift loading.length))
      inst.updateFlags (inst.workRegister :: executionScratch) middle
      middleFull (applyAll env.origin state loading) executed executedFull) :
    ∃ final full,
      RunsPruned (JumpTable.dispatch runtime env) inst.updateFlags
          inst.operationScratch (loading ++ middle ++ inst.finishThrough temp)
          (loading ++ middleFull ++
            (inst.setUpdate more).finishThrough temp) state final full ∧
        inst.Finished state executed final ∧
        (inst.setUpdate more).Finished state executedFull full := by
  have formFull : (inst.setUpdate more).RegisterDestination :=
    ⟨form.first, form.firstValid⟩
  obtain ⟨final, exits, finished, keeps⟩ := form.finish_exits permits isTemp
    loads run.prunedExits run.prunedKeeps
  obtain ⟨full, fullExits, finishedFull, fullKeeps⟩ :=
    formFull.finish_exits permits isTemp loads run.fullExits run.fullKeeps
  have loaded : fields (applyAll env.origin state loading) = fields state :=
    fields_computesInto _ _ loads (by decide)
  have work : inst.workRegister ∉ prunedScratch :=
    List.not_mem_cons_of_ne_of_not_mem (form.workRegister_ne (by decide))
      form.workRegister_scratch.2
  have value : executed.get inst.workRegister =
      executedFull.get inst.workRegister := run.runs.registers _ work
  have contents := resultContents_pruned covers run.runs.stored
    (fun field absent => (run.runs.kept field absent).trans
      (congrFun loaded field))
    (executed.get inst.workRegister) inst.destinationSize
  refine ⟨final, full, ⟨exits, fullExits, ⟨?_, ?_, ?_⟩, keeps, fullKeeps⟩,
    finished, finishedFull⟩
  · intro register outside
    by_cases guest : isGuest register = true
    · obtain ⟨reg, rfl⟩ := exists_mapReg_of_isGuest guest
      rw [finished.registers, finishedFull.registers, value]
      rfl
    · have notGuest : isGuest register = false := by simpa using guest
      have notTemp : register ∉ [.t2, .t3] := by
        simp only [prunedScratch, executionScratch, List.mem_cons,
          List.not_mem_nil, or_false, not_or] at outside ⊢
        exact ⟨outside.1, outside.2.1⟩
      rw [finished.others _ notGuest notTemp,
        finishedFull.others _ notGuest notTemp]
      exact run.runs.registers register outside
  · intro field member
    rw [finished.fields, finishedFull.fields]
    exact ((contents field).1 member).trans (by rw [value]; rfl)
  · intro field absent
    rw [finished.fields]
    exact (contents field).2 absent

end Finish
end Instruction

/-! ## Whole instructions -/

section Generate

variable {inst : Instruction} {more : BitVec 8}
variable (covers : ∀ flag ∈ inst.updateFlags, flag ∈ more)
variable {runtime : JumpTable.Runtime} {env : Environment}
variable (permits : env.PermitsEverything) {state : State}

include covers permits

theorem BinaryOperation.generate_runsPruned
    (symbols : HostSymbols)
    (operands : inst.OnRegisters)
    (aligned : TableAligned state)
    {operation : BinaryOperation}
    (carryIn : operation = .adc -> ∃ carry, CarryIn .adc state carry) :
    let loading := inst.translateSource.code ++ inst.translateFirst.code
    ∃ executed executedFull final full,
      RunsPruned (JumpTable.dispatch runtime (env.shift loading.length))
          inst.updateFlags (inst.workRegister :: executionScratch)
          (operation.execute symbols inst)
          (operation.execute symbols (inst.setUpdate more))
          (applyAll env.origin state loading) executed executedFull ∧
        RunsPruned (JumpTable.dispatch runtime env) inst.updateFlags
          inst.operationScratch (operation.generate symbols inst)
          (operation.generate symbols (inst.setUpdate more)) state final
          full ∧
        inst.Finished state executed final ∧
        (inst.setUpdate more).Finished state executedFull full := by
  intro loading
  let prepared := applyAll env.origin state loading
  have loads := operands.loads
  have formFull : (inst.setUpdate more).RegisterDestination :=
    ⟨operands.first, operands.firstValid⟩
  have sameFields : fields prepared = fields state :=
    fields_computesInto _ _ loads (by decide)
  have preparedAligned : TableAligned prepared := by
    rw [TableAligned, loads.get _ _ (by decide)]
    exact aligned
  have preparedCarry : operation = .adc ->
      ∃ carry, CarryIn .adc prepared carry := by
    intro isAdc
    obtain ⟨carry, entry, stored, value⟩ := carryIn isAdc
    rw [← sameFields] at stored value
    exact ⟨carry, entry, stored, value⟩
  have permitsFurther : (env.shift loading.length).PermitsEverything := permits
  obtain ⟨executed, executedFull, run⟩ :=
    @BinaryOperation.execute_runsPruned inst more covers runtime
      (env.shift loading.length) prepared permitsFurther symbols operands
      preparedAligned operation preparedCarry
  obtain ⟨final, full, runs, finished, finishedFull⟩ :=
    operands.inRegister.finish_runsPruned covers permits
      (Or.inr rfl : Register.t3 = .t2 ∨ Register.t3 = .t3) loads run
  rw [operation.generate_eq symbols operands.inRegister,
    operation.generate_eq symbols formFull]
  exact ⟨executed, executedFull, final, full, run, runs, finished,
    finishedFull⟩

theorem UnaryOperation.generate_runsPruned
    (form : inst.RegisterDestination)
    (operation : UnaryOperation) :
    let loading := inst.translateFirst.code
    ∃ executed executedFull final full,
      RunsPruned (JumpTable.dispatch runtime (env.shift loading.length))
          inst.updateFlags (inst.workRegister :: executionScratch)
          (operation.execute inst inst.workRegister)
          (operation.execute (inst.setUpdate more) inst.workRegister)
          (applyAll env.origin state loading) executed executedFull ∧
        RunsPruned (JumpTable.dispatch runtime env) inst.updateFlags
          inst.operationScratch (operation.generate inst)
          (operation.generate (inst.setUpdate more)) state final full ∧
        inst.Finished state executed final ∧
        (inst.setUpdate more).Finished state executedFull full := by
  intro loading
  have loads : ComputesInto [.t2, .t0] loading :=
    form.firstComputes.mono (by simp)
  have formFull : (inst.setUpdate more).RegisterDestination :=
    ⟨form.first, form.firstValid⟩
  have permitsFurther : (env.shift loading.length).PermitsEverything := permits
  obtain ⟨executed, executedFull, run⟩ :=
    @UnaryOperation.execute_runsPruned inst more covers runtime
      (env.shift loading.length) (applyAll env.origin state loading)
      permitsFurther form operation
  obtain ⟨final, full, runs, finished, finishedFull⟩ :=
    form.finish_runsPruned covers permits
      (Or.inl rfl : Register.t2 = .t2 ∨ Register.t2 = .t3) loads run
  rw [UnaryOperation.generate_eq form, UnaryOperation.generate_eq formFull]
  exact ⟨executed, executedFull, final, full, run, runs, finished,
    finishedFull⟩

omit covers permits in
theorem Comparable.execute_updates
    (inst : Instruction)
    (operation : Comparable) :
    UpdatesFields [.t4, .t5] (operation.execute inst).1 := by
  unfold execute
  split
  · cases operation with
    | cmp =>
        simp only [executeRegister, Cmp.executeRegister_eq]
        exact registerDifference_updates inst
          (ComputesInto.singleton rfl rfl (by simp))
    | test => exact (Logic.execute_updates inst rfl rfl).mono (by simp)
  · cases operation with
    | cmp =>
        simp only [executeImmediate, Cmp.executeImmediate_difference]
        exact immediateDifference_updates inst
          (Cmp.compareImmediate_computesInto _ _)
    | test => exact (Logic.execute_updates inst rfl rfl).mono (by simp)

omit covers permits in
/-- The result of a comparison is in no temporary of the updates. -/
theorem Comparable.execute_result
    (operands : inst.OnRegisters)
    (operation : Comparable) :
    (operation.execute inst).2 ≠ .t3 ∧ (operation.execute inst).2 ≠ .t4 := by
  obtain ⟨-, workOutside⟩ := operands.inRegister.workRegister_scratch
  simp only [executionScratch, List.mem_cons, List.not_mem_nil, or_false,
    not_or] at workOutside
  have temporary : Register.t5 ≠ .t3 ∧ Register.t5 ≠ .t4 := by decide
  unfold execute
  split
  · cases operation <;> exact temporary
  · cases operation with
    | test => exact temporary
    | cmp =>
        simp only [executeImmediate, Cmp.executeImmediate_difference,
          Cmp.resultRegister]
        split
        · exact ⟨workOutside.1, workOutside.2.1⟩
        · exact temporary

theorem Comparable.generate_runsPruned
    (operands : inst.OnRegisters)
    (operation : Comparable) :
    ∃ final full,
      RunsPruned (JumpTable.dispatch runtime env) inst.updateFlags
        [.t0, .t2, .t3, .t4, .t5] (operation.generate inst)
        (operation.generate (inst.setUpdate more)) state final full := by
  have operandsFull : (inst.setUpdate more).OnRegisters :=
    ⟨operands.first, operands.second, operands.firstValid,
      operands.secondValid⟩
  let loading := inst.translateSource.code ++ inst.translateFirst.code
  have loads : ComputesInto [.t2, .t0] loading := operands.loads
  obtain ⟨prunes, sameResult⟩ :=
    Comparable.execute_prunes covers operands operation
  obtain ⟨resultKept, resultOutside⟩ :=
    Comparable.execute_result operands operation
  have updates : ∀ updater : Instruction, updater.OnRegisters ->
      UpdatesFields [.t0, .t2, .t3, .t4, .t5]
        (updater.translateSource.code ++ updater.translateFirst.code ++
          (operation.execute updater).1 ++
          updater.resultUpdates (operation.execute updater).2
            updater.destinationSize .t3) := by
    intro updater operands
    exact Updates.append
      (Updates.append ((UpdatesFields.computeInto operands.loads).mono
        (by simp)) ((execute_updates updater operation).mono (by simp)))
      ((updater.resultUpdates_updates _ _ _).mono (by simp))
  have exits : ∀ updater : Instruction, updater.OnRegisters ->
      (JumpTable.dispatch runtime env).Exits (operation.generate updater)
        state (.ended (applyAll env.origin state
          (operation.generate updater))) := by
    intro updater operands
    have permits : (JumpTable.dispatch runtime env).PermitsEverything :=
      permits
    rw [Comparable.generate_eq operation operands]
    exact Environment.exits_straight (updates updater operands).straight
      (permits.permitsAll _ _)
  have keeps : ∀ updater : Instruction, updater.OnRegisters ->
      KeepsBut [.t0, .t2, .t3, .t4, .t5] state
        (applyAll env.origin state (operation.generate updater)) := by
    intro updater operands
    rw [Comparable.generate_eq operation operands]
    exact KeepsBut.of_updates (updates updater operands) (by decide) _ _
  refine ⟨_, _, exits inst operands, exits _ operandsFull, ?_,
    keeps inst operands, keeps _ operandsFull⟩
  have split : ∀ updater : Instruction, updater.OnRegisters ->
      applyAll env.origin state (operation.generate updater) =
        let loading := updater.translateSource.code ++
          updater.translateFirst.code
        let middle := loading ++ (operation.execute updater).1
        applyAll (env.origin + BitVec.ofNat 64 (4 * middle.length))
          (applyAll (env.origin + BitVec.ofNat 64 (4 * loading.length))
            (applyAll env.origin state loading) (operation.execute updater).1)
          (updater.resultUpdates (operation.execute updater).2
            updater.destinationSize .t3) := by
    intro updater operands
    rw [Comparable.generate_eq operation operands, applyAll_append,
      applyAll_append env.origin state
        (updater.translateSource.code ++ updater.translateFirst.code)]
  rw [split inst operands, split _ operandsFull, sameResult]
  have executed := prunes _ _ _
    (Pruned.refl (applyAll env.origin state loading))
    (env.origin + BitVec.ofNat 64 (4 * loading.length))
    (env.origin + BitVec.ofNat 64 (4 * loading.length))
  have updated := executed.resultUpdates covers (by simpa using resultOutside)
    resultKept inst.destinationSize
  exact ⟨(updated _ _).registers.mono
      (by simp [prunedScratch, executionScratch]),
    (updated _ _).stored, fun field absent =>
      ((updated _ env.origin).kept field absent).trans
        (congrFun (fields_computesInto _ _ loads (by decide)) field)⟩

theorem setCarry_runsPruned (set : Bool) :
    ∃ final full,
      RunsPruned (JumpTable.dispatch runtime env) inst.updateFlags [.t4]
        (inst.setCarry set .t4) ((inst.setUpdate more).setCarry set .t4) state
        final full := by
  have updates : ∀ updater : Instruction,
      UpdatesFields [.t4] (updater.setCarry set .t4) := by
    intro updater
    rw [setCarry_eq]
    exact updater.updateCarry_updates _ _ _ _
  exact ⟨_, _, RunsPruned.of_prunes permits
    (setCarry_prunes covers (by decide) set) (updates inst) (updates _)
    (by decide) state⟩

end Generate

/-- The instruction makes straight updates of flags: an operation on registers,
whose carry flag is supported if it adds it, or an instruction that sets the
carry flag. -/
def Instruction.PrunableFrom (inst : Instruction) (state : State) : Prop :=
  match inst.instructionClass with
  | .binaryOperation operation =>
      inst.OnRegisters ∧
        (operation = .adc -> ∃ carry, CarryIn .adc state carry)
  | .unaryOperation _ => inst.RegisterDestination
  | .comparable _ => inst.OnRegisters
  | .clc | .stc => True
  | _ => False

/-- Code with a smaller update set runs like the code with a larger one: it
leaves the same registers of the guest and the same information about the flags
that it updates, keeps the information about the others, and both keep the rest
of the memory. -/
theorem Instruction.pruned_agrees
    (symbols : HostSymbols)
    (entries : Nat)
    {inst : Instruction}
    {more : BitVec 8}
    (covers : ∀ flag ∈ inst.updateFlags, flag ∈ more)
    {state : State}
    (prunable : inst.PrunableFrom state)
    (runtime : JumpTable.Runtime)
    {env : Environment}
    (permits : env.PermitsEverything)
    (aligned : TableAligned state) :
    ∃ pruned full afterPruned afterFull,
      inst.generate symbols entries = some pruned ∧
        (inst.setUpdate more).generate symbols entries = some full ∧
        RunsPruned (JumpTable.dispatch runtime env) inst.updateFlags
          inst.operationScratch pruned full state afterPruned afterFull := by
  have comparing : ∀ register ∈ [Register.t0, .t2, .t3, .t4, .t5],
      register ∈ inst.operationScratch := by
    simp [operationScratch]
  have clearing : ∀ register ∈ [Register.t4],
      register ∈ inst.operationScratch := by
    simp [operationScratch]
  unfold PrunableFrom at prunable
  cases kind : inst.instructionClass <;> rw [kind] at prunable
  case binaryOperation operation =>
    obtain ⟨-, -, final, full, -, run, -⟩ :=
      BinaryOperation.generate_runsPruned covers permits symbols prunable.1
        aligned prunable.2
    exact ⟨_, _, final, full, by rw [generate, kind],
      by rw [generate, setUpdate_instructionClass, kind], run⟩
  case unaryOperation operation =>
    obtain ⟨-, -, final, full, -, run, -⟩ :=
      @UnaryOperation.generate_runsPruned inst more covers runtime env permits
        state prunable operation
    exact ⟨_, _, final, full, by rw [generate, kind],
      by rw [generate, setUpdate_instructionClass, kind], run⟩
  case comparable operation =>
    obtain ⟨final, full, run⟩ :=
      @Comparable.generate_runsPruned inst more covers runtime env permits
        state prunable operation
    exact ⟨_, _, final, full, by rw [generate, kind],
      by rw [generate, setUpdate_instructionClass, kind], run.mono comparing⟩
  case clc =>
    obtain ⟨final, full, run⟩ :=
      @setCarry_runsPruned inst more covers runtime env permits state false
    exact ⟨_, _, final, full, by rw [generate, kind, Clc.generate],
      by rw [generate, setUpdate_instructionClass, kind, Clc.generate],
      run.mono clearing⟩
  case stc =>
    obtain ⟨final, full, run⟩ :=
      @setCarry_runsPruned inst more covers runtime env permits state true
    exact ⟨_, _, final, full, by rw [generate, kind, Stc.generate],
      by rw [generate, setUpdate_instructionClass, kind, Stc.generate],
      run.mono clearing⟩
  all_goals exact absurd prunable id

/-- `add rax, rbx` that updates only the zero flag. -/
def addRaxForZero : Instruction := (addRax 3).setUpdate Flags.zero

theorem Instruction.pruned_agrees_addRaxForZero :
    let state := (zeroState.set (mapReg 0) (-5)).set (mapReg 3) 7
    ∃ pruned full afterPruned afterFull,
      addRaxForZero.generate sampleSymbols 0 = some pruned ∧
        (addRaxForZero.setUpdate Flags.all).generate sampleSymbols 0 =
          some full ∧
        RunsPruned (JumpTable.dispatch (fun _ _ => none) Stub.environment)
          addRaxForZero.updateFlags addRaxForZero.operationScratch pruned full
          state afterPruned afterFull := by
  intro state
  have operands := (addRax_registerForm 3).toOnRegisters
  have prunable : addRaxForZero.PrunableFrom state :=
    ⟨⟨operands.first, operands.second, operands.firstValid,
      operands.secondValid⟩,
      fun isAdc => absurd isAdc (by decide)⟩
  exact Instruction.pruned_agrees sampleSymbols 0 (fun _ _ => Flags.mem_all)
    prunable _ (fun _ _ => rfl) (by decide)

end Oxtra

import Oxtra.Instructions.Arithmetic

/-!
# Operations on registers

The base class of the operations loads the operands, lets the operation
compute its result, and updates the flags and the destination.  When the
destination is a register, all of this but the operation itself is the same
for every operation.
-/

namespace Oxtra

open RiscV
open Encoding
open Helper
open FlagInfo
open Fadec (Operand OperandSize)

namespace Instruction

variable (inst : Instruction)

/-! ## Operands -/

/-- The destination is a register, and the source is a register or an
immediate. -/
structure OnRegisters : Prop where
  first : (inst.getOperand 0).isReg = true
  second : (inst.getOperand 1).isReg = true ∨ (inst.getOperand 1).isImm = true
  firstValid : (inst.getOperand 0).valid = true
  secondValid : (inst.getOperand 1).valid = true

/-- The operands also have the same size. -/
structure RegisterOperands : Prop extends inst.OnRegisters where
  sameSize : (inst.getOperand 1).size = (inst.getOperand 0).size

/-- The destination is a register, whatever the source is. -/
structure RegisterDestination : Prop where
  first : (inst.getOperand 0).isReg = true
  firstValid : (inst.getOperand 0).valid = true

/-- An immediate is also sign-extended from the size of the operation. -/
structure RegisterForm : Prop extends inst.RegisterOperands where
  immediate : (inst.getOperand 1).isImm = true ->
    (inst.immediate.setWidth inst.destinationSize.bits).signExtend 64 =
      inst.immediate

/-- The value of the destination. -/
def firstBits (state : State) : BitVec inst.destinationSize.bits :=
  inst.operandBits (inst.getOperand 0) inst.destinationSize state

/-- The value of the source. -/
def secondBits (state : State) : BitVec inst.destinationSize.bits :=
  inst.operandBits (inst.getOperand 1) inst.destinationSize state

theorem mem_updateFlags
    {inst : Instruction}
    (all : inst.updateFlags = Flags.all)
    (flag : Flag) : flag ∈ inst.updateFlags := by
  rw [all]
  cases flag <;> decide

theorem secondBits_immediate
    (isImm : (inst.getOperand 1).isImm = true)
    (state : State) :
    inst.secondBits state =
      inst.immediate.setWidth inst.destinationSize.bits := by
  rw [secondBits]
  cases operand : inst.getOperand 1 with
  | imm size => rfl
  | _ =>
      rw [operand] at isImm
      cases isImm

/-- The destination as it is loaded. -/
def translateFirst : Translation :=
  inst.translateOperand (inst.getOperand 0) .t0 .t1 true false false true

/-- The register that has the value of the destination. -/
def workRegister : Register := destinationRegister (inst.getOperand 0) .t0

/-- The source is an immediate in the instructions. -/
def immediateSource : Bool :=
  (inst.getOperand 1).isImm && inst.smallImmediate

theorem translateSource_immediate
    (immediate : inst.immediateSource = true) :
    inst.translateSource = { code := [], value := .zero } := by
  rw [immediateSource, Bool.and_eq_true] at immediate
  rw [translateSource, if_pos immediate]

theorem translateSource_register
    (noImmediate : inst.immediateSource = false) :
    inst.translateSource =
      inst.translateOperand (inst.getOperand 1) .t2 .t3 false false false
        false := by
  rw [immediateSource, Bool.and_eq_false_iff] at noImmediate
  rw [translateSource, if_neg]
  rintro ⟨isImm, small⟩
  rcases noImmediate with notImm | large
  · rw [isImm] at notImm
    cases notImm
  · rw [small] at large
    cases large

section Source

variable (valued : (inst.getOperand 1).isReg = true ∨
  (inst.getOperand 1).isImm = true)

include valued

theorem translateSource_computesInto :
    ComputesInto [.t2] inst.translateSource.code := by
  by_cases immediate : inst.immediateSource = true
  · rw [inst.translateSource_immediate immediate]
    exact ComputesInto.nil
  · rw [inst.translateSource_register (by simpa using immediate)]
    exact inst.translateOperand_computesInto (not_isMem valued) _ _ _ _ _ _

/-- The source is in its temporary or in a register of the guest. -/
theorem translateSource_location
    (noImmediate : inst.immediateSource = false) :
    inst.translateSource.value = .t2 ∨
      isGuest inst.translateSource.value = true := by
  rw [inst.translateSource_register noImmediate]
  exact inst.translateOperand_register valued _ _ _ _ _ _

end Source

/-! ## Loading the operands -/

/-- A state in which the operands have been loaded. -/
structure Prepared (state prepared : State) : Prop where
  others : ∀ register, register ∉ [.t0, .t2] ->
    prepared.get register = state.get register
  mem : prepared.mem = state.mem
  first : (prepared.get inst.workRegister).setWidth inst.destinationSize.bits =
    inst.firstBits state
  second : inst.immediateSource = false ->
    (prepared.get inst.translateSource.value).setWidth
      inst.destinationSize.bits = inst.secondBits state

/-- A register that is a temporary of the loads or belongs to the guest is no
temporary of the operation. -/
theorem not_mem_executionScratch
    {register temp : Register}
    (location : register = temp ∨ isGuest register = true)
    (loading : temp = .t0 ∨ temp = .t2) :
    Scratch register ∧ register ∉ executionScratch := by
  rcases location with rfl | guest
  · rcases loading with rfl | rfl <;> decide
  · refine ⟨⟨ne_of_isGuest guest (by decide), ne_of_isGuest guest (by decide)⟩,
      ?_⟩
    intro member
    simp only [executionScratch, List.mem_cons, List.not_mem_nil,
      or_false] at member
    rcases member with rfl | rfl | rfl | rfl | rfl <;> cases guest

/-- Operands that are no memory depend on the registers of the guest only. -/
theorem operandBits_congr
    {op : Operand}
    (valued : op.isReg = true ∨ op.isImm = true)
    (size : OperandSize)
    {first second : State}
    (same : ∀ reg, first.get (mapReg reg) = second.get (mapReg reg)) :
    inst.operandBits op size first = inst.operandBits op size second := by
  cases op with
  | reg opSize register type =>
      have mapped : first.get (mapRegType register type) =
          second.get (mapRegType register type) := by
        cases type with
        | gpl => exact same register
        | gph => exact same (register - 4)
      simp only [operandBits, operandValue, mapped]
  | imm _ => rfl
  | _ => simp [Operand.isReg, Operand.isImm] at valued

section Destination

variable {inst}
variable (form : inst.RegisterDestination)

include form

theorem RegisterDestination.firstComputes :
    ComputesInto [.t0] inst.translateFirst.code :=
  inst.translateOperand_computesInto (not_isMem (Or.inl form.first)) _ _ _ _
    _ _

theorem RegisterDestination.firstValue :
    inst.translateFirst.value = inst.workRegister :=
  inst.translateOperand_destination form.first .t0 .t1

/-- The destination is loaded into the register that it is computed in. -/
theorem RegisterDestination.firstLoaded (pc : Word) (state : State) :
    ((applyAll pc state inst.translateFirst.code).get
        inst.workRegister).setWidth inst.destinationSize.bits =
      inst.firstBits state := by
  rw [← form.firstValue]
  exact inst.translateOperand_value pc state (Or.inl form.first)
    form.firstValid (by decide : Register.t0 ≠ .zero) .t1 true true

theorem RegisterDestination.destination :
    ∃ size number type, inst.getOperand 0 = .reg size number type := by
  have isReg := form.first
  cases operand : inst.getOperand 0 with
  | reg size number type => exact ⟨size, number, type, rfl⟩
  | _ =>
      rw [operand] at isReg
      cases isReg

theorem RegisterDestination.workRegister_eq :
    inst.workRegister = .t0 ∨ isGuest inst.workRegister = true := by
  obtain ⟨size, number, type, first⟩ := form.destination
  rw [workRegister, first, destinationRegister]
  split
  · exact Or.inr (isGuest_mapRegType number type)
  · exact Or.inl rfl

theorem RegisterDestination.workRegister_scratch :
    Scratch inst.workRegister ∧ inst.workRegister ∉ executionScratch :=
  not_mem_executionScratch form.workRegister_eq (Or.inl rfl)

/-- The register of the operation is none of the temporaries. -/
theorem RegisterDestination.workRegister_ne
    {temp : Register}
    (isTemp : temp ∈ [.t2, .t3, .t4, .t5, .t6, jumpTableAddress]) :
    inst.workRegister ≠ temp := by
  rcases form.workRegister_eq with work | guest
  · rw [work]
    rintro rfl
    exact absurd isTemp (by decide)
  · rintro rfl
    have notGuest : ∀ register ∈ [Register.t2, .t3, .t4, .t5, .t6,
        jumpTableAddress], isGuest register = false := by
      decide
    rw [notGuest _ isTemp] at guest
    cases guest

end Destination

section Prepare

variable {inst}

section Sources

variable (form : inst.OnRegisters)

include form

theorem OnRegisters.inRegister : inst.RegisterDestination :=
  ⟨form.first, form.firstValid⟩

theorem OnRegisters.sourceComputes :
    ComputesInto [.t2] inst.translateSource.code :=
  inst.translateSource_computesInto form.second

/-- The source is in its temporary or in a register of the guest. -/
theorem OnRegisters.sourceRegister
    (noImmediate : inst.immediateSource = false) :
    inst.translateSource.value = .t2 ∨
      isGuest inst.translateSource.value = true :=
  inst.translateSource_location form.second noImmediate

theorem OnRegisters.source_eq_zero :
    inst.translateSource.value = .zero ↔ inst.immediateSource = true := by
  by_cases immediate : inst.immediateSource = true
  · rw [inst.translateSource_immediate immediate]
    simp [immediate]
  · have noImmediate : inst.immediateSource = false := by
      simpa using immediate
    simp only [noImmediate, Bool.false_eq_true, iff_false]
    rcases form.sourceRegister noImmediate with temporary | guest
    · rw [temporary]
      decide
    · exact ne_of_isGuest guest (by decide)

theorem OnRegisters.source_scratch
    (noImmediate : inst.immediateSource = false) :
    Scratch inst.translateSource.value ∧
      inst.translateSource.value ∉ executionScratch :=
  not_mem_executionScratch (form.sourceRegister noImmediate) (Or.inr rfl)

theorem OnRegisters.loads :
    ComputesInto [.t2, .t0]
      (inst.translateSource.code ++ inst.translateFirst.code) :=
  ComputesInto.append_iff.mpr
    ⟨form.sourceComputes.mono (by simp),
      form.inRegister.firstComputes.mono (by simp)⟩

end Sources

theorem RegisterOperands.prepared
    (form : inst.RegisterOperands)
    (pc : Word)
    (state : State) :
    inst.Prepared state
      (applyAll pc state
        (inst.translateSource.code ++ inst.translateFirst.code)) where
  others register outside := by
    simp only [List.mem_cons, List.not_mem_nil, or_false, not_or] at outside
    rw [applyAll_append, form.inRegister.firstComputes.get _ _ (by simp [outside]),
      form.sourceComputes.get _ _ (by simp [outside])]
  mem := by
    rw [applyAll_append, form.inRegister.firstComputes.mem, form.sourceComputes.mem]
  first := by
    rw [applyAll_append]
    refine (form.inRegister.firstLoaded _ _).trans
      (inst.operandBits_congr (Or.inl form.first) _ fun reg => ?_)
    exact form.sourceComputes.get _ _ (by simp)
  second := by
    intro noImmediate
    have loaded := inst.translateOperand_value pc state form.second
      form.secondValid (by decide : Register.t2 ≠ .zero) .t3 false false
    have kept : inst.translateSource.value ∉ [Register.t0] := by
      rcases form.sourceRegister noImmediate with temporary | guest
      · rw [temporary]
        decide
      · simpa using ne_of_isGuest guest (by decide)
    rw [applyAll_append, form.inRegister.firstComputes.get _ _ kept,
      inst.translateSource_register noImmediate]
    rw [form.sameSize] at loaded
    exact loaded

end Prepare

/-! ## Writing the destination -/

section Write

variable {inst}

/-- The updates of the flags of the result and the write of the destination
behind the operation. -/
def finish (inst : Instruction) : List Inst :=
  inst.resultUpdates inst.workRegister inst.destinationSize .t3 ++
    inst.translateDestination inst.workRegister .zero .t2 .t3

/-- The updates use another temporary for the sign behind the operations on one
operand. -/
def finishThrough (inst : Instruction) (temp : Register) : List Inst :=
  inst.resultUpdates inst.workRegister inst.destinationSize temp ++
    inst.translateDestination inst.workRegister .zero .t2 .t3

/-- A write of a long register does not depend on what was in it. -/
theorem writtenRegisters_congr
    {op : Operand}
    (valid : op.valid = true)
    {first second : State}
    (same : ∀ reg, mapReg reg ≠ destinationRegister op .t0 ->
      first.get (mapReg reg) = second.get (mapReg reg))
    (value : Word)
    (reg : Fadec.Register) :
    writtenRegisters op value first reg =
      writtenRegisters op value second reg := by
  by_cases work : mapReg reg = destinationRegister op .t0
  · cases op with
    | reg size register type =>
        simp only [destinationRegister] at work
        by_cases long : 4 ≤ size.bytes
        · rw [if_pos long] at work
          have low := low_of_valid valid long
          subst low
          simp only [writtenRegisters, if_pos work]
          cases size with
          | byte | word => exact absurd long (by decide)
          | dword | qword => rfl
        · rw [if_neg long] at work
          exact absurd work (by simp)
    | _ => exact absurd work (by simp [destinationRegister])
  · have equal := same reg work
    cases op <;> simp only [writtenRegisters, equal]

/-- What is left after the result has been written. -/
structure Finished (inst : Instruction) (state executed final : State) :
    Prop where
  registers : ∀ reg, final.get (mapReg reg) =
    writtenRegisters (inst.getOperand 0) (executed.get inst.workRegister)
      state reg
  others : ∀ register, isGuest register = false ->
    register ∉ [.t2, .t3] -> final.get register = executed.get register
  fields : fields final =
    resultContents inst.updateFlags (executed.get inst.workRegister)
      inst.destinationSize (fields executed)

section Finish

variable (form : inst.RegisterDestination) {temp : Register}
variable (isTemp : temp = .t2 ∨ temp = .t3)

include form isTemp

theorem RegisterDestination.finished
    (pc : Word)
    {state executed : State}
    (kept : ∀ reg, mapReg reg ≠ inst.workRegister ->
      executed.get (mapReg reg) = state.get (mapReg reg)) :
    inst.Finished state executed
      (applyAll pc executed (inst.finishThrough temp)) := by
  have updates := inst.resultUpdates_updates inst.workRegister
    inst.destinationSize temp
  have notGuest : isGuest temp = false := by
    rcases isTemp with rfl | rfl <;> rfl
  have scratch : Scratch temp := by
    rcases isTemp with rfl | rfl <;> decide
  have notTemp : inst.workRegister ≠ temp :=
    form.workRegister_ne (by rcases isTemp with rfl | rfl <;> decide)
  let updated := applyAll pc executed
    (inst.resultUpdates inst.workRegister inst.destinationSize temp)
  have value : updated.get inst.workRegister =
      executed.get inst.workRegister :=
    updates.get _ _ (by simpa)
  obtain ⟨size, number, type, first⟩ := form.destination
  have writes := inst.translateDestination_computesInto first
    inst.workRegister .zero .t2 .t3
  constructor
  · intro reg
    rw [finishThrough, applyAll_append]
    have written := inst.translateDestination_registers
      (pc + BitVec.ofNat 64 (4 * (inst.resultUpdates inst.workRegister
        inst.destinationSize temp).length)) updated rfl form.first
      form.firstValid (by decide : isGuest .t0 = false)
      (by decide : isGuest .t2 = false) (by decide) (by decide) .zero .t3 reg
    refine written.trans ?_
    rw [show updated.get (destinationRegister (inst.getOperand 0) .t0) =
      executed.get inst.workRegister from value]
    apply writtenRegisters_congr form.firstValid
    intro reg other
    refine (updates.get _ _ ?_).trans (kept reg other)
    simpa using ne_of_isGuest (isGuest_mapReg reg) notGuest
  · intro register other outside
    simp only [List.mem_cons, List.not_mem_nil, or_false, not_or] at outside
    have notWritten : register ∉ [mapRegType number type, .t2] := by
      simp only [List.mem_cons, List.not_mem_nil, or_false, not_or]
      exact ⟨(ne_of_isGuest (isGuest_mapRegType number type) other).symm,
        outside.1⟩
    have notUpdated : register ∉ [temp] := by
      rcases isTemp with rfl | rfl <;> simp [outside]
    rw [finishThrough, applyAll_append, writes.get _ _ notWritten,
      updates.get _ _ notUpdated]
  · rw [finishThrough, applyAll_append]
    have context : contextAddress ∉ [mapRegType number type, .t2] := by
      have different := ne_of_isGuest (isGuest_mapRegType number type)
        (by decide : isGuest contextAddress = false)
      simpa using ⟨different.symm, by decide⟩
    rw [fields_congr (writes.mem _ _) (writes.get _ _ context),
      inst.resultUpdates_fields _ _ scratch notTemp]

omit isTemp in
theorem RegisterDestination.finishStraight :
    ∀ written ∈ inst.finishThrough temp, written.isStraight = true := by
  have updates := inst.resultUpdates_updates inst.workRegister
    inst.destinationSize temp
  obtain ⟨size, number, type, first⟩ := form.destination
  have writes := inst.translateDestination_computesInto first
    inst.workRegister .zero .t2 .t3
  intro written member
  rcases List.mem_append.mp member with update | write
  · exact updates.straight written update
  · exact writes.straight written write

/-- The code behind the operation runs to its end. -/
theorem RegisterDestination.completes
    {runtime : JumpTable.Runtime}
    {env : Environment}
    (permits : env.PermitsEverything)
    {state executed : State}
    {loading middle : List Inst}
    (loads : ComputesInto [.t2, .t0] loading)
    (exits :
      (JumpTable.dispatch runtime (env.shift loading.length)).Exits middle
        (applyAll env.origin state loading) (.ended executed))
    (kept : ∀ register, register ∉ inst.workRegister :: executionScratch ->
      executed.get register =
        (applyAll env.origin state loading).get register) :
    ∃ final, (JumpTable.dispatch runtime env).Exits
        (loading ++ middle ++ inst.finishThrough temp) state (.ended final) ∧
      inst.Finished state executed final ∧
      final.get jumpTableAddress = state.get jumpTableAddress := by
  let shifted := (env.shift loading.length).shift middle.length
  have guest : ∀ reg, mapReg reg ≠ inst.workRegister ->
      executed.get (mapReg reg) = state.get (mapReg reg) := by
    intro reg other
    rw [kept _ (by simp [other, executionScratch]), loads.get _ _ (by simp)]
  have finished := form.finished isTemp shifted.origin guest
  have dispatched : (JumpTable.dispatch runtime env).PermitsEverything :=
    permits
  have shiftedPermits :
      (JumpTable.dispatch runtime shifted).PermitsEverything := permits
  have first := @Environment.exits_straight
    (JumpTable.dispatch runtime env) state loading loads.straight
    (dispatched.permitsAll _ _)
  have last := @Environment.exits_straight
    (JumpTable.dispatch runtime shifted) executed (inst.finishThrough temp)
    form.finishStraight (shiftedPermits.permitsAll _ _)
  have notWork : jumpTableAddress ∉ inst.workRegister :: executionScratch := by
    have different := form.workRegister_ne
      (by decide : jumpTableAddress ∈ [Register.t2, .t3, .t4, .t5, .t6,
        jumpTableAddress])
    simp only [List.mem_cons, different.symm, false_or]
    decide
  refine ⟨applyAll shifted.origin executed (inst.finishThrough temp), ?_,
    finished, ?_⟩
  · rw [List.append_assoc]
    exact first.append (exits.append last (by simp)) (by simp)
  · rw [finished.others _ (by decide) (by decide), kept _ notWork,
      loads.get _ _ (by decide)]

end Finish

end Write

/-! ## The whole code -/

section Whole

variable {inst}
variable (form : inst.RegisterOperands)

include form

/-- What an operation leaves behind, in front of the updates and the write that
all operations share. -/
structure Leaves
    (inst : Instruction)
    (env : Environment)
    (code : List Inst)
    (before after : State)
    (result : BitVec inst.destinationSize.bits)
    (flags : Flag -> Bool) : Prop where
  exits : env.Exits code before (.ended after)
  kept : ∀ register, register ∉ inst.workRegister :: executionScratch ->
    after.get register = before.get register
  value : (after.get inst.workRegister).setWidth inst.destinationSize.bits =
    result
  evaluated : Evaluated
    (resultContents Flags.all (after.get inst.workRegister)
      inst.destinationSize (fields after)) flags

omit form in
/-- Straight code of an operation. -/
theorem leaves_of_updates
    {runtime : JumpTable.Runtime}
    {env : Environment}
    {prepared : State}
    {code : List Inst}
    (permits : env.PermitsEverything)
    (updates : UpdatesFields [inst.workRegister, .t4] code)
    {result : BitVec inst.destinationSize.bits}
    {flags : Flag -> Bool}
    (value : ((applyAll env.origin prepared code).get
      inst.workRegister).setWidth inst.destinationSize.bits = result)
    (evaluated : Evaluated
      (resultContents Flags.all
        ((applyAll env.origin prepared code).get inst.workRegister)
        inst.destinationSize (fields (applyAll env.origin prepared code)))
      flags) :
    inst.Leaves (JumpTable.dispatch runtime env) code prepared
      (applyAll env.origin prepared code) result flags where
  exits := by
    have permits : (JumpTable.dispatch runtime env).PermitsEverything :=
      permits
    exact Environment.exits_straight updates.straight
      (permits.permitsAll _ _)
  kept register outside := by
    apply updates.get
    simp only [executionScratch, List.mem_cons, List.not_mem_nil, or_false,
      not_or] at outside ⊢
    exact ⟨outside.1, outside.2.2.1⟩
  value := value
  evaluated := evaluated

/-- Some code leaves a result in the destination, keeps the other registers of
the guest, and the flags have these values when they are evaluated behind it,
wherever that is. -/
def Computes
    (inst : Instruction)
    (runtime : JumpTable.Runtime)
    (env : Environment)
    (code : List Inst)
    (result : BitVec inst.destinationSize.bits)
    (flags : Flag -> Bool)
    (state : State) : Prop :=
  ∃ final, (JumpTable.dispatch runtime env).Exits code state (.ended final) ∧
    (∀ reg, final.get (mapReg reg) =
      writtenRegisters (inst.getOperand 0) (result.setWidth 64) state reg) ∧
    ∀ later : Environment, later.PermitsEverything -> ∀ flag,
      Evaluates (JumpTable.dispatch runtime later) (evaluate flag) final
        (flags flag)

omit form in
/-- Only the bits of the operand are written. -/
theorem writtenRegisters_bits
    {op : Operand}
    (valid : op.valid = true)
    {value : Word}
    {result : BitVec op.size.bits}
    (same : value.setWidth op.size.bits = result)
    (state : State)
    (reg : Fadec.Register) :
    writtenRegisters op value state reg =
      writtenRegisters op (result.setWidth 64) state reg := by
  cases op with
  | reg size register type =>
      simp only [writtenRegisters]
      split
      · apply RegisterAccess.merge_congr
        rw [registerAccess_bits valid, ← same]
        exact ((BitVec.setWidth_setWidth_of_le _ size.bits_le).trans
          (BitVec.setWidth_eq _)).symm
      · rfl
  | _ => rfl

@[inherit_doc RegisterDestination.completes]
theorem RegisterOperands.completes
    {runtime : JumpTable.Runtime}
    {env : Environment}
    (permits : env.PermitsEverything)
    {state executed : State}
    {middle : List Inst}
    (exits :
      let loading := inst.translateSource.code ++ inst.translateFirst.code
      (JumpTable.dispatch runtime (env.shift loading.length)).Exits middle
        (applyAll env.origin state loading) (.ended executed))
    (kept : ∀ register, register ∉ inst.workRegister :: executionScratch ->
      executed.get register =
        (applyAll env.origin state (inst.translateSource.code ++
          inst.translateFirst.code)).get register) :
    ∃ final, (JumpTable.dispatch runtime env).Exits
        (inst.translateSource.code ++ inst.translateFirst.code ++ middle ++
          finish inst) state (.ended final) ∧
      inst.Finished state executed final ∧
      final.get jumpTableAddress = state.get jumpTableAddress :=
  form.inRegister.completes (Or.inr rfl) permits form.loads exits kept

/-- Behind the operation everything is determined by its result and by the
fields.  The code computes what it should if and only if the flags are those
that it should make. -/
theorem RegisterOperands.computes_iff
    {runtime : JumpTable.Runtime}
    {env : Environment}
    (permits : env.PermitsEverything)
    {state executed : State}
    (aligned : TableAligned state)
    {middle : List Inst}
    (all : inst.updateFlags = Flags.all)
    {result : BitVec inst.destinationSize.bits}
    {actual : Flag -> Bool}
    (leaves :
      let loading := inst.translateSource.code ++ inst.translateFirst.code
      inst.Leaves (JumpTable.dispatch runtime (env.shift loading.length))
        middle (applyAll env.origin state loading) executed result actual)
    (flags : Flag -> Bool) :
    inst.Computes runtime env
        (inst.translateSource.code ++ inst.translateFirst.code ++ middle ++
          finish inst)
        result flags state ↔
      actual = flags := by
  obtain ⟨final, exits, finished, table⟩ :=
    form.completes permits leaves.exits leaves.kept
  have finalAligned : TableAligned final := by
    rw [TableAligned, table]
    exact aligned
  have evaluates : ∀ later : Environment, later.PermitsEverything ->
      ∀ flag, Evaluates (JumpTable.dispatch runtime later) (evaluate flag)
        final (actual flag) := by
    intro later permitsLater flag
    have contents := finished.fields
    rw [all] at contents
    exact evaluates_of_evaluated permitsLater finalAligned
      (contents ▸ leaves.evaluated) flag
  constructor
  · rintro ⟨other, otherExits, -, otherFlags⟩
    have same : other = final := by
      simpa using otherExits.unique exits
    funext flag
    exact (evaluates env permits flag).unique
      (same ▸ otherFlags env permits flag)
  · rintro rfl
    refine ⟨final, exits, fun reg => ?_, evaluates⟩
    rw [finished.registers]
    exact writtenRegisters_bits form.firstValid leaves.value state reg

end Whole

end Instruction

/-- The operation between the loads of the operands and the updates. -/
def BinaryOperation.execute
    (operation : BinaryOperation)
    (symbols : Instruction.HostSymbols)
    (inst : Instruction) : List Inst :=
  if inst.translateSource.value ≠ .zero then
    operation.executeRegister symbols inst inst.workRegister
      inst.translateSource.value
  else
    operation.executeImmediate symbols inst inst.workRegister inst.immediate

/-- The code of an operation on a register. -/
theorem BinaryOperation.generate_eq
    (operation : BinaryOperation)
    (symbols : Instruction.HostSymbols)
    {inst : Instruction}
    (form : inst.RegisterDestination) :
    operation.generate symbols inst =
      inst.translateSource.code ++ inst.translateFirst.code ++
        operation.execute symbols inst ++ inst.finish := by
  obtain ⟨size, number, type, first⟩ := form.destination
  have noAddress : inst.translateFirst.address = .zero := by
    rw [Instruction.translateFirst, first, Instruction.translateOperand]
    split <;> rfl
  have value := form.firstValue
  simp only [Instruction.translateFirst] at value noAddress
  simp only [generate, execute, Instruction.finish, Instruction.resultUpdates,
    Instruction.translateFirst, value, noAddress, List.append_assoc]

end Oxtra

import Oxtra.Instruction.FlagTargets
import Oxtra.Instructions.Sparing

/-!
# Where flags are evaluated behind instructions

The code of every instruction keeps the offsets of routines for the carry and
the overflow flag where they belong.  `ADC` and the bit tests compute the offset
that they store, from a flag that has been evaluated and from a bit.
-/

namespace Oxtra

open RiscV
open Encoding
open Helper
open FlagInfo
open Instruction (apply_store_field)
open Fadec (Operand OperandSize)

/-! ## Evaluation -/

section Evaluation

variable {runtime : JumpTable.Runtime} {env : Environment} {state : State}

/-- Code that evaluates the carry flag leaves zero or one, unless the flag is
not supported. -/
theorem evaluateCarry_asserts
    (keeps : KeepsLazy runtime)
    (targeted : WellTargeted state) :
    (JumpTable.dispatch runtime env).Asserts WellTargeted
      Instruction.evaluateCarry
      (fun after => WellTargeted after ∧ ∃ flag, after.get .t4 = bit flag)
      state := by
  obtain ⟨entry, isCarry, notHighLevel, operation⟩ := targeted.carry
  have free : Free .t4 := by decide
  have loads (pc : Word) :
      (lhu .t4 contextAddress (carryOperationOffset.setWidth 16)).apply pc
        state = state.set .t4 (entry.offset.setWidth 64) := by
    rw [← operation]
    rfl
  refine Environment.asserts_straight rfl targeted fun _ _ => ?_
  rw [loads]
  have loaded := targeted.set free (entry.offset.setWidth 64)
  refine Environment.asserts_straight rfl loaded fun _ _ => ?_
  rw [apply_add, State.set_get_self _ _ (by decide),
    State.set_get_of_ne _ _ (by decide)]
  have jumping := loaded.set free
    (state.get jumpTableAddress + entry.offset.setWidth 64)
  refine ⟨jumping, fun _ => Environment.behind_jalr fun index => ?_⟩
  intro called callTarget
  have linked : WellTargeted called := jumping.set (by decide) _
  have canReturn : Stub.CanReturn called :=
    jumpTarget_of_aligned (Environment.address_aligned _ _)
  have target : callTarget =
      called.get jumpTableAddress + entry.offset.setWidth 64 :=
    jumpTarget_of_aligned (targeted.aligned.entry entry)
  have entered := JumpTable.call_entry runtime entry called
  change (∀ returned, JumpTable.call runtime callTarget called =
      some returned -> WellTargeted returned ∧
        ∃ flag, returned.get .t4 = bit flag) ∧
    (JumpTable.call runtime callTarget called = none -> WellTargeted called)
  rw [target, entered]
  refine ⟨fun returned returns => ?_, fun _ => linked⟩
  cases destination : entry.destination with
  | routine routine =>
      have unsupported : routine = .unsupportedCarry := by
        cases entry <;> first
          | exact absurd isCarry id
          | exact absurd rfl notHighLevel
          | cases destination
        rfl
      simp only [destination, unsupported, keeps.unsupportedCarry] at returns
      cases returns
  | evaluator stub =>
      simp only [destination] at returns
      obtain ⟨flag, final, runs, value, mem, registers⟩ :=
        isCarry.yields destination canReturn
      obtain rfl := Option.some.inj (returns.symm.trans runs)
      have same : fields returned = fields called :=
        fields_congr mem (registers _ (by decide))
      exact ⟨linked.of_fields (registers _ (by decide)) same, flag, value⟩

/-- A store to a whole field that does not matter. -/
theorem asserts_storeOther
    {kind : Store}
    {field : Field}
    (whole : kind.width.bytes = field.bytes)
    (other : field.targets = false)
    (value : Register)
    {rest : List Inst}
    {post : State -> Prop}
    (targeted : WellTargeted state)
    (further : ∀ stored : State, WellTargeted stored ->
      (∀ register, stored.get register = state.get register) ->
        env.Asserts WellTargeted rest post stored) :
    env.Asserts WellTargeted
      (store kind contextAddress value field.offset :: rest) post state := by
  refine Environment.asserts_straight rfl targeted fun _ _ => ?_
  rw [apply_store_field, whole]
  exact further _ (targeted.storeOther other _) fun _ => rfl

/-- A store of the offset of an entry that is in a register. -/
theorem asserts_storeOffset
    {field : Field}
    {entry : JumpTable.Entry}
    (stores : WellTargeted (state.store (field.address state) 2
      (entry.offset.setWidth 64)))
    {value : Register}
    (isOffset : state.get value = entry.offset.setWidth 64)
    (targeted : WellTargeted state) :
    env.Asserts WellTargeted [store .sh contextAddress value field.offset]
      (fun after => WellTargeted after ∧
        ∀ register, after.get register = state.get register) state := by
  refine Environment.asserts_straight rfl targeted fun _ _ => ?_
  rw [Environment.asserts_nil, apply_store_field, isOffset]
  exact ⟨stores, fun _ => rfl⟩

end Evaluation

/-! ## Addition with carry -/

namespace Adc

variable {env : Environment} {state : State} (inst : Instruction)
variable {dst src : Register}

/-- The carry flag has been evaluated and is in `t5`, sixteen times. -/
def CarryScaled (state : State) : Prop :=
  WellTargeted state ∧ ∃ flag, state.get .t5 = bit flag <<< 4

/-- The entry for the carry flag, which is behind that of `ADD` if there was a
carry. -/
def carryEntry (carry : Bool) (width : Width) : JumpTable.Entry :=
  if carry then .carryAdc width else .carryAdd width

@[inherit_doc carryEntry]
def overflowEntry (carry : Bool) (width : Width) : JumpTable.Entry :=
  if carry then .overflowAdc width else .overflowAdd width

theorem scaled_carry (carry : Bool) (width : Width) :
    bit carry <<< 4 + signedImm (JumpTable.Entry.carryAdd width).offset =
      (carryEntry carry width).offset.setWidth 64 := by
  cases carry <;> cases width <;> rfl

theorem scaled_overflow (carry : Bool) (width : Width) :
    bit carry <<< 4 + signedImm (JumpTable.Entry.overflowAdd width).offset =
      (overflowEntry carry width).offset.setWidth 64 := by
  cases carry <;> cases width <;> rfl

theorem storeOverflow_asserts (scaled : CarryScaled state) :
    env.Asserts WellTargeted (storeOverflow inst dst src) CarryScaled
      state := by
  obtain ⟨targeted, carry, value⟩ := scaled
  unfold storeOverflow
  simp only [Instruction.destinationEntries]
  split
  case isFalse => exact ⟨targeted, carry, value⟩
  let entry := overflowEntry carry inst.destinationSize.width
  refine Environment.asserts_straight rfl targeted fun _ _ => ?_
  rw [apply_addi, value, scaled_overflow]
  have loaded := targeted.set (by decide : Free .t6) (entry.offset.setWidth 64)
  refine @asserts_storeOther _ _ .sd .overflowFirst rfl rfl src _ _ loaded
    fun first firstTargeted firstKept => ?_
  refine @asserts_storeOther _ _ .sd .overflowSecond rfl rfl dst _ _
    firstTargeted fun second secondTargeted secondKept => ?_
  have kept (register : Register) : second.get register = _ :=
    (secondKept register).trans (firstKept register)
  have stores := @WellTargeted.storeOverflow second secondTargeted entry
    (by cases carry <;> exact trivial)
    (by cases carry <;> simp [entry, overflowEntry])
  refine (asserts_storeOffset stores ((kept .t6).trans
    (State.set_get_self _ _ (by decide))) secondTargeted).imp
      fun after ⟨held, registers⟩ => ⟨held, carry, ?_⟩
  rw [registers, kept, State.set_get_of_ne _ _ (by decide), value]

theorem storeCarry_asserts (scaled : CarryScaled state) :
    env.Asserts WellTargeted (storeCarry inst dst src) WellTargeted state := by
  obtain ⟨targeted, carry, value⟩ := scaled
  unfold storeCarry
  simp only [Instruction.destinationEntries]
  split
  case isFalse => exact targeted
  let entry := carryEntry carry inst.destinationSize.width
  refine Environment.asserts_straight rfl targeted fun _ _ => ?_
  rw [apply_addi, value, scaled_carry]
  have loaded := targeted.set (by decide : Free .t4) (entry.offset.setWidth 64)
  refine @asserts_storeOther _ _ .sd .carryFirst rfl rfl src _ _ loaded
    fun first firstTargeted firstKept => ?_
  refine @asserts_storeOther _ _ .sd .carrySecond rfl rfl dst _ _
    firstTargeted fun second secondTargeted secondKept => ?_
  have kept : second.get .t4 = entry.offset.setWidth 64 :=
    ((secondKept .t4).trans (firstKept .t4)).trans
      (State.set_get_self _ _ (by decide))
  have stores := @WellTargeted.storeCarry second secondTargeted entry
    (by cases carry <;> exact trivial)
    (by cases carry <;> simp [entry, carryEntry])
  exact (asserts_storeOffset stores kept secondTargeted).imp
    fun _ held => held.1

theorem addCarry_asserts
    (free : Free dst)
    (notScaled : dst ≠ .t5)
    (scaled : CarryScaled state) :
    env.Asserts WellTargeted (addCarry dst src) CarryScaled state := by
  obtain ⟨targeted, carry, value⟩ := scaled
  refine Environment.asserts_straight rfl targeted fun _ _ => ?_
  rw [apply_add]
  have added := targeted.set free (state.get src + state.get dst)
  refine Environment.asserts_straight rfl added fun _ _ => ?_
  rw [apply_add]
  refine ⟨added.set free _, carry, ?_⟩
  rw [State.set_get_of_ne _ _ notScaled.symm,
    State.set_get_of_ne _ _ notScaled.symm, value]

theorem storeOverflow_falls : FallsThrough (storeOverflow inst dst src) := by
  unfold storeOverflow
  simp only
  split <;> simp [Instruction.updateOverflowRegister,
    Instruction.OperationFields.storeRegister, Inst.directOffset, addi, opImm,
    sd, sh, store]

theorem storeCarry_falls : FallsThrough (storeCarry inst dst src) := by
  unfold storeCarry
  simp only
  split <;> simp [Instruction.updateCarryRegister,
    Instruction.OperationFields.storeRegister, Inst.directOffset, addi, opImm,
    sd, sh, store]

/-- The entries that are stored are those of the table. -/
theorem executeRegister_keepsTargets
    (free : Free dst)
    (notScaled : dst ≠ .t5) :
    KeepsTargets (executeRegister inst dst src) where
  falls := by
    unfold executeRegister
    split <;> simp [Instruction.evaluateCarry, JumpTable.jumpTableOffset,
      addCarry, storeOverflow_falls, storeCarry_falls, Inst.directOffset, lhu,
      load, add, jalr, slli, shift]
  asserts keeps _ targeted := by
    refine ((evaluateCarry_asserts keeps targeted).imp
      fun evaluated held => ?_).append
    obtain ⟨evaluatedTargeted, carry, value⟩ := held
    split
    · refine Environment.asserts_straight rfl evaluatedTargeted fun _ _ => ?_
      rw [apply_slli, value]
      have scaled : CarryScaled (evaluated.set .t5 (bit carry <<< 4)) :=
        ⟨evaluatedTargeted.set (by decide) _, carry,
          State.set_get_self _ _ (by decide)⟩
      exact (((storeOverflow_asserts inst scaled).imp fun _ held =>
        addCarry_asserts free notScaled held).append.imp fun _ held =>
          storeCarry_asserts inst held).append
    · exact (KeepsTargets.of_spares (by simp [addCarry, Inst.directOffset, add])
        fun field _ => by simp [addCarry, add, free]).asserts keeps
          (fun _ _ _ _ _ member => by simp [addCarry, add] at member)
          evaluatedTargeted

end Adc

/-! ## Bits -/

section Bits

variable {env : Environment} {state : State} {reg : Register}

/-- A bit becomes the offset of the entry for its value. -/
theorem storeBit_asserts
    (free : Free reg)
    (nonzero : reg ≠ .zero)
    (targeted : WellTargeted state)
    {value : Bool}
    (isBit : state.get reg = bit value) :
    env.Asserts WellTargeted (storeBit reg) WellTargeted state := by
  let entry : JumpTable.Entry := if value then .carrySet else .carryClear
  have offset : bit value <<< 2 +
      signedImm JumpTable.Entry.carryClear.offset =
        entry.offset.setWidth 64 := by
    cases value <;> rfl
  refine Environment.asserts_straight rfl targeted fun _ _ => ?_
  rw [apply_slli, isBit]
  refine Environment.asserts_straight rfl (targeted.set free _) fun _ _ => ?_
  rw [apply_addi, State.set_get_self _ _ nonzero]
  have computed := (targeted.set free (bit value <<< 2)).set free
    (entry.offset.setWidth 64)
  have stores := @WellTargeted.storeCarry _ computed entry
    (by cases value <;> exact trivial) (by cases value <;> simp [entry])
  refine (@asserts_storeOffset env _ .carryOperation entry ?_ reg ?_ ?_).imp
    fun _ held => held.1
  · exact offset ▸ stores
  · rw [State.set_get_self _ _ nonzero]
    exact offset
  · exact (targeted.set free _).set free _

theorem storeBit_falls : FallsThrough (storeBit reg) := by
  simp [storeBit, Instruction.updateCarryEntry, Inst.directOffset, slli, shift,
    addi, opImm, sh, store]

/-- The bit is computed in front of the store. -/
theorem storeBit_keepsTargets
    (free : Free reg)
    (nonzero : reg ≠ .zero)
    {computation : Inst}
    (straight : computation.isStraight = true)
    (computes : ∀ pc state, ∃ value,
      computation.apply pc state = state.set reg (bit value)) :
    KeepsTargets (computation :: storeBit reg) where
  falls := FallsThrough.cons_iff.mpr
    ⟨(by cases computation <;> first | rfl | cases straight), storeBit_falls⟩
  asserts _ _ targeted := by
    refine Environment.asserts_straight straight targeted fun _ _ => ?_
    obtain ⟨value, computed⟩ := computes _ _
    rw [computed]
    exact storeBit_asserts free nonzero (targeted.set free _)
      (State.set_get_self _ _ nonzero)

end Bits

/-! ## Operands -/

section Operands

variable (inst : Instruction)

theorem readFromMemory_keepsTargets
    (op : Operand)
    {dest temp : Register}
    (free : Free dest)
    (tempFree : Free temp)
    (signExtend : Bool) :
    KeepsTargets (inst.readFromMemory op dest temp signExtend).1 :=
  .of_spares (.of_straight (inst.readFromMemory_straight _ _ _)) fun _ _ =>
    readFromMemory_spares inst op free tempFree signExtend

theorem writeToMemory_keepsTargets
    (op : Operand)
    (src : Register)
    {tempA tempB address : Register}
    (freeA : Free tempA)
    (freeB : Free tempB)
    (free : Free address) :
    KeepsTargets (inst.writeToMemory op src tempA tempB address) :=
  .of_spares (.of_straight (inst.writeToMemory_straight _ _ _ _)) fun _ _ =>
    writeToMemory_spares inst op src freeA freeB free

theorem moveToRegister_keepsTargets
    {dest : Register}
    (free : Free dest)
    (src : Register)
    (access : RegisterAccess)
    {temp : Register}
    (tempFree : Free temp)
    (cleared : Bool) :
    KeepsTargets (moveToRegister dest src access temp cleared) :=
  .of_computesInto (moveToRegister_computesInto access cleared)
    (by simp [free, tempFree])

theorem translateOperand_keepsTargets
    (op : Operand)
    {tempA tempB : Register}
    (freeA : Free tempA)
    (freeB : Free tempB)
    (modifiable fullLoad signExtend destination : Bool) :
    KeepsTargets (inst.translateOperand op tempA tempB modifiable fullLoad
      signExtend destination).code := by
  cases op with
  | mem size base =>
      exact readFromMemory_keepsTargets inst _ freeA freeB signExtend
  | _ =>
      exact .of_computesInto
        (inst.translateOperand_computesInto rfl _ _ _ _ _ _) (by simpa)

theorem translateDestination_keepsTargets
    (reg : Register)
    {address tempA tempB : Register}
    (free : Free address)
    (freeA : Free tempA)
    (freeB : Free tempB) :
    KeepsTargets (inst.translateDestination reg address tempA tempB) := by
  unfold Instruction.translateDestination
  split
  · simp only
    split
    · exact moveToRegister_keepsTargets (free_mapRegType _ _) _ _ freeA _
    · exact KeepsTargets.nil
  · exact writeToMemory_keepsTargets inst _ _ freeA freeB free
  all_goals exact KeepsTargets.nil

theorem translateSource_keepsTargets :
    KeepsTargets inst.translateSource.code := by
  unfold Instruction.translateSource
  simp only
  split
  · exact KeepsTargets.nil
  · exact translateOperand_keepsTargets inst _ (by decide) (by decide) _ _ _ _

/-- An instruction that computes into a register. -/
theorem keepsTargets_compute
    {computation : Inst}
    {register : Register}
    (straight : computation.isStraight = true)
    (target : computation.target = some register)
    (free : Free register) :
    KeepsTargets [computation] :=
  .of_spares (.of_straight (by simpa)) fun _ _ =>
    Spares.cons_iff.mpr ⟨(spares_of_target target).mpr free, Spares.nil⟩

end Operands

/-! ## Operations -/

section Operations

variable (symbols : Instruction.HostSymbols) (inst : Instruction)
variable {dst src : Register}

theorem Add.executeRegister_keepsTargets (free : Free dst) :
    KeepsTargets (Add.executeRegister inst dst src) :=
  ((updateOverflow_keepsTargets inst (by decide) (by decide)
    (by exact trivial) (by simp) _ _).append
      (keepsTargets_compute rfl rfl free)).append
    (updateCarry_keepsTargets inst (by decide) (by decide)
      (by exact trivial) (by simp) _ _)

theorem Add.executeImmediate_keepsTargets
    (free : Free dst)
    (imm : BitVec 64) :
    KeepsTargets (Add.executeImmediate inst dst imm) := by
  rw [Add.executeImmediate_eq]
  refine (((updateCarry_keepsTargets inst (by decide) (by decide) ?_ ?_ _
    _).append (updateOverflow_keepsTargets inst (by decide) (by decide) ?_ ?_ _
      _)).append (keepsTargets_compute rfl rfl free)).append
        ((updateCarryValues_keepsTargets inst _ _).append
          (updateOverflowValues_keepsTargets inst _ _))
  all_goals
    unfold Add.immediateEntries Instruction.destinationEntries
    split <;> first | exact trivial | simp

theorem Sub.executeRegister_keepsTargets (free : Free dst) :
    KeepsTargets (Sub.executeRegister inst dst src) :=
  (((updateCarry_keepsTargets inst (by decide) (by decide)
    (by exact trivial) (by simp) _ _).append
      (updateOverflow_keepsTargets inst (by decide) (by decide)
        (by exact trivial) (by simp) _ _)).append
      (keepsTargets_compute rfl rfl free)).append
    (updateCarryValues_keepsTargets inst _ _)

/-- The entries for the subtraction of an immediate are stored in front of
it. -/
theorem Sub.immediateEntries_keepsTargets
    (imm : BitVec 64)
    (va vb : Option Register) :
    KeepsTargets (inst.updateCarry (Sub.immediateEntries inst imm).1 none va
        .t4 ++
      inst.updateOverflow (Sub.immediateEntries inst imm).2 vb none .t4) := by
  refine (updateCarry_keepsTargets inst (by decide) (by decide) ?_ ?_ _
    _).append (updateOverflow_keepsTargets inst (by decide) (by decide) ?_ ?_ _
      _)
  all_goals
    unfold Sub.immediateEntries Instruction.destinationEntries
    split <;> first | exact trivial | simp

theorem Sub.executeImmediate_keepsTargets
    (free : Free dst)
    (imm : BitVec 64) :
    KeepsTargets (Sub.executeImmediate inst dst imm) := by
  rw [Sub.executeImmediate_eq]
  exact ((Sub.immediateEntries_keepsTargets inst imm _ _).append
    (.of_computesInto (Sub.subtractImmediate_computesInto imm)
      (by simpa))).append
    ((updateCarryValues_keepsTargets inst _ _).append
      (updateOverflowValues_keepsTargets inst _ _))

theorem Logic.execute_keepsTargets
    {operation : Inst}
    (straight : operation.isStraight = true)
    (target : operation.target = some dst)
    (free : Free dst) :
    KeepsTargets (Logic.execute inst operation) :=
  (keepsTargets_compute straight target free).append
    ((setCarry_keepsTargets inst (by decide) (by decide) false).append
      (setOverflow_keepsTargets inst (by decide) (by decide) false))

theorem Shift.execute_keepsTargets
    {operation : Inst}
    (straight : operation.isStraight = true)
    (target : operation.target = some dst)
    (free : Free dst)
    (name : String) :
    KeepsTargets (Shift.execute symbols inst operation name) :=
  (keepsTargets_compute straight target free).append
    ((updateOverflowUnsupported_keepsTargets inst (by decide) (by decide)
      _).append
        (updateCarryUnsupported_keepsTargets inst (by decide) (by decide) _))

theorem BinaryOperation.executeRegister_keepsTargets
    (free : Free dst)
    (notScaled : dst ≠ .t5)
    (operation : BinaryOperation) :
    KeepsTargets (operation.executeRegister symbols inst dst src) := by
  cases operation with
  | add => exact Add.executeRegister_keepsTargets inst free
  | adc => exact Adc.executeRegister_keepsTargets inst free notScaled
  | sub => exact Sub.executeRegister_keepsTargets inst free
  | and | or | xor => exact Logic.execute_keepsTargets inst rfl rfl free
  | shl | shr | sar =>
      exact Shift.execute_keepsTargets symbols inst rfl rfl free _

theorem BinaryOperation.executeImmediate_keepsTargets
    (free : Free dst)
    (notScaled : dst ≠ .t5)
    (imm : BitVec 64)
    (operation : BinaryOperation) :
    KeepsTargets (operation.executeImmediate symbols inst dst imm) := by
  cases operation with
  | add => exact Add.executeImmediate_keepsTargets inst free imm
  | adc =>
      exact (keepsTargets_compute rfl rfl (by decide : Free .t3)).append
        (Adc.executeRegister_keepsTargets inst free notScaled)
  | sub => exact Sub.executeImmediate_keepsTargets inst free imm
  | and | or | xor => exact Logic.execute_keepsTargets inst rfl rfl free
  | shl | shr | sar =>
      exact Shift.execute_keepsTargets symbols inst rfl rfl free _

theorem UnaryOperation.execute_keepsTargets
    (free : Free dst)
    (operation : UnaryOperation) :
    KeepsTargets (operation.execute inst dst) := by
  have computes {operation : Inst}
      (straight : operation.isStraight = true)
      (target : operation.target = some dst) : KeepsTargets [operation] :=
    keepsTargets_compute straight target free
  cases operation with
  | inc | dec =>
      exact (updateOverflow_keepsTargets inst (by decide) (by decide)
        (by exact trivial) (by simp) _ _).append (computes rfl rfl)
  | neg =>
      exact ((updateCarry_keepsTargets inst (by decide) (by decide)
        (by exact trivial) (by simp) _ _).append
          (updateOverflow_keepsTargets inst (by decide) (by decide)
            (by exact trivial) (by simp) _ _)).append (computes rfl rfl)
  | not => exact computes rfl rfl

/-! ## Comparisons -/

theorem Cmp.executeImmediate_keepsTargets (imm : BitVec 64) :
    KeepsTargets (Cmp.executeImmediate inst dst imm).1 := by
  refine (((Sub.immediateEntries_keepsTargets inst imm _ _).append ?_).append
    (updateCarryValues_keepsTargets inst _ _)).append
      (updateOverflowValues_keepsTargets inst _ _)
  split
  · exact KeepsTargets.nil
  · have computes (number : BitVec 16) :=
      @keepsTargets_compute (addi .t5 dst number) .t5 rfl rfl (by decide)
    split
    · exact (computes _).append (computes _)
    · exact computes _

theorem Comparable.executeRegister_keepsTargets (operation : Comparable) :
    KeepsTargets (operation.executeRegister inst dst src).1 := by
  have free : Free .t5 := by decide
  cases operation with
  | cmp =>
      exact (((updateCarry_keepsTargets inst (by decide) (by decide)
        (by exact trivial) (by simp) _ _).append
          (updateOverflow_keepsTargets inst (by decide) (by decide)
            (by exact trivial) (by simp) _ _)).append
          (keepsTargets_compute rfl rfl free)).append
        (updateCarryValues_keepsTargets inst _ _)
  | test => exact Logic.execute_keepsTargets inst rfl rfl free

theorem Comparable.executeImmediate_keepsTargets
    (imm : BitVec 64)
    (operation : Comparable) :
    KeepsTargets (operation.executeImmediate inst dst imm).1 := by
  cases operation with
  | cmp => exact Cmp.executeImmediate_keepsTargets inst imm
  | test =>
      exact Logic.execute_keepsTargets inst rfl rfl (by decide : Free .t5)

end Operations

/-! ## Instructions that update flags -/

section Generate

variable (symbols : Instruction.HostSymbols) (inst : Instruction)

theorem resultUpdates_keepsTargets
    (va : Register)
    (size : OperandSize)
    {temp : Register}
    (free : Free temp)
    (nonzero : temp ≠ .zero) :
    KeepsTargets (inst.resultUpdates va size temp) :=
  ((updateZero_keepsTargets inst va size).append
    (updateSign_keepsTargets inst va size free nonzero)).append
      (updateParity_keepsTargets inst va)

/-- The destination is read. -/
theorem destination_keepsTargets :
    KeepsTargets (inst.translateOperand (inst.getOperand 0) .t0 .t1 true false
      false true).code :=
  translateOperand_keepsTargets inst _ (by decide) (by decide) _ _ _ _

/-- The result is written. -/
theorem writeDestination_keepsTargets (value : Register) :
    KeepsTargets (inst.translateDestination value
      (inst.translateOperand (inst.getOperand 0) .t0 .t1 true false false
        true).address .t2 .t3) :=
  translateDestination_keepsTargets inst value
    (translateOperand_free inst _ (by decide) (by decide) _ _ _ _) (by decide)
    (by decide)

theorem BinaryOperation.generate_keepsTargets (operation : BinaryOperation) :
    KeepsTargets (operation.generate symbols inst) := by
  obtain ⟨free, notScaled⟩ := destination_register inst
  refine (((((translateSource_keepsTargets inst).append
    (destination_keepsTargets inst)).append ?_).append
      (updateZero_keepsTargets inst _ _)).append
        (updateSign_keepsTargets inst _ _ (by decide) (by decide))).append
          (updateParity_keepsTargets inst _) |>.append
            (writeDestination_keepsTargets inst _)
  split
  · exact executeRegister_keepsTargets symbols inst free notScaled operation
  · exact executeImmediate_keepsTargets symbols inst free notScaled _ operation

theorem UnaryOperation.generate_keepsTargets (operation : UnaryOperation) :
    KeepsTargets (operation.generate inst) :=
  ((((destination_keepsTargets inst).append
    (execute_keepsTargets inst (destination_register inst).1 operation)).append
      (updateZero_keepsTargets inst _ _)).append
        (updateSign_keepsTargets inst _ _ (by decide) (by decide))).append
          (updateParity_keepsTargets inst _) |>.append
            (writeDestination_keepsTargets inst _)

theorem Comparable.generate_keepsTargets (operation : Comparable) :
    KeepsTargets (operation.generate inst) := by
  let dst := (inst.translateOperand (inst.getOperand 0) .t0 .t1 true false
    false true).value
  let src := inst.translateSource.value
  have executes : KeepsTargets (if src ≠ .zero then
      operation.executeRegister inst dst src
    else
      operation.executeImmediate inst dst inst.immediate).1 := by
    split
    · exact executeRegister_keepsTargets inst operation
    · exact executeImmediate_keepsTargets inst _ operation
  exact (((((translateSource_keepsTargets inst).append
    (destination_keepsTargets inst)).append executes).append
      (updateZero_keepsTargets inst _ _)).append
        (updateSign_keepsTargets inst _ _ (by decide) (by decide))).append
          (updateParity_keepsTargets inst _)

end Generate

end Oxtra

import Oxtra.Instructions.Addition
import Oxtra.Instructions.Comparison
import Oxtra.Instructions.UnaryOperations
import Oxtra.Library.RiscV.Agreement

/-!
# Pruned updates

The translator drops the updates of flags that no later instruction needs.  The
code of an operation that is left computes the same registers, stores the same
information about the flags it still updates, and keeps what was stored about
the others.
-/

namespace Oxtra

open RiscV
open Encoding
open Helper
open FlagInfo
open Fadec (Operand OperandSize)

namespace Instruction

/-! ## Two runs -/

/-- A run of pruned code next to one of the full code.  The registers are the
same up to some temporaries.  The fields of the flags that are still updated
are the same, and those of the others are still those of the start. -/
structure Pruned
    (temps : List Register)
    (updated : BitVec 8)
    (start pruned full : State) : Prop where
  registers : AgreesOutside temps pruned full
  stored : ∀ field : Field, field.flag ∈ updated ->
    fields pruned field = fields full field
  kept : ∀ field : Field, field.flag ∉ updated ->
    fields pruned field = fields start field

/-- Pruned code, and the full code that it is left of. -/
def Prunes
    (temps : List Register)
    (updated : BitVec 8)
    (pruned full : List Inst) : Prop :=
  ∀ start prunedState fullState,
    Pruned temps updated start prunedState fullState ->
      ∀ prunedPc fullPc,
        Pruned temps updated start (applyAll prunedPc prunedState pruned)
          (applyAll fullPc fullState full)

variable {temps : List Register} {updated : BitVec 8}

theorem Pruned.refl (state : State) :
    Pruned temps updated state state state :=
  ⟨AgreesOutside.refl temps state, fun _ _ => rfl, fun _ _ => rfl⟩

theorem Pruned.mono
    {more : List Register}
    {start pruned full : State}
    (runs : Pruned temps updated start pruned full)
    (subset : ∀ register ∈ temps, register ∈ more) :
    Pruned more updated start pruned full :=
  ⟨runs.registers.mono subset, runs.stored, runs.kept⟩

namespace Prunes

variable {pruned full : List Inst}

theorem append
    {prunedRest fullRest : List Inst}
    (first : Prunes temps updated pruned full)
    (second : Prunes temps updated prunedRest fullRest) :
    Prunes temps updated (pruned ++ prunedRest) (full ++ fullRest) := by
  intro start prunedState fullState runs prunedPc fullPc
  rw [applyAll_append, applyAll_append]
  exact second start _ _ (first start _ _ runs _ _) _ _

/-- Code that computes from registers which are no temporaries is kept. -/
theorem computation
    {targets : List Register}
    {code : List Inst}
    (computes : ComputesInto targets code)
    (notContext : contextAddress ∉ targets)
    (clean : ∀ inst ∈ code, inst.computesOutside temps = true) :
    Prunes temps updated code code := by
  intro start prunedState fullState runs prunedPc fullPc
  refine ⟨runs.registers.applyAll clean _ _, ?_, ?_⟩
  · intro field member
    rw [fields_computesInto _ _ computes notContext,
      fields_computesInto _ _ computes notContext]
    exact runs.stored field member
  · intro field outside
    rw [fields_computesInto _ _ computes notContext]
    exact runs.kept field outside

end Prunes

/-! ## Updates of one flag -/

/-- What the code of an update makes of the fields: the fields of its flag get
new contents, which depend on registers that are no temporaries. -/
structure UpdateEffect
    (temps : List Register)
    (flag : Flag)
    (code : List Inst)
    (effect : State -> (Field -> Word) -> Field -> Word) : Prop where
  updates : UpdatesFields temps code
  applies : ∀ pc state,
    fields (applyAll pc state code) = effect state (fields state)
  others : ∀ state contents field, field.flag ≠ flag ->
    effect state contents field = contents field
  same : ∀ first second contents further,
    AgreesOutside temps first second ->
      (∀ field : Field, field.flag = flag ->
        contents field = further field) ->
      ∀ field : Field, field.flag = flag ->
        effect first contents field = effect second further field

section Update

variable {inst : Instruction} {more : BitVec 8}
variable (covers : ∀ flag ∈ inst.updateFlags, flag ∈ more)

include covers

/-- The update of a flag may be pruned. -/
theorem UpdateEffect.prunes
    {flag : Flag}
    {code : List Inst}
    {effect : State -> (Field -> Word) -> Field -> Word}
    (update : UpdateEffect temps flag code effect) :
    Prunes temps inst.updateFlags (inst.updating flag code)
      ((inst.setUpdate more).updating flag code) := by
  intro start prunedState fullState runs prunedPc fullPc
  have outside : ∀ (pc : Word) (state : State) (field : Field),
      field.flag ≠ flag ->
        fields (applyAll pc state code) field = fields state field := by
    intro pc state field other
    rw [update.applies, update.others _ _ _ other]
  have dropped : ∀ (updater : Instruction) (pc : Word) (state : State)
      (field : Field), field.flag ≠ flag ∨ flag ∉ updater.updateFlags ->
        fields (applyAll pc state (updater.updating flag code)) field =
          fields state field := by
    intro updater pc state field unchanged
    unfold updating
    split
    · rename_i member
      exact outside pc state field
        (unchanged.resolve_right fun absent => absent member)
    · rfl
  refine ⟨?_, ?_, ?_⟩
  · intro register kept
    rw [(inst.updating_updates flag update.updates).get _ _ kept,
      ((inst.setUpdate more).updating_updates flag update.updates).get _ _
        kept]
    exact runs.registers register kept
  · intro field member
    by_cases own : field.flag = flag
    · have here : flag ∈ inst.updateFlags := own ▸ member
      have there : flag ∈ (inst.setUpdate more).updateFlags :=
        covers flag here
      rw [updating, if_pos here, updating, if_pos there, update.applies,
        update.applies]
      refine update.same _ _ _ _ runs.registers ?_ field own
      intro other ofFlag
      exact runs.stored other (ofFlag ▸ here)
    · rw [dropped _ _ _ _ (Or.inl own), dropped _ _ _ _ (Or.inl own)]
      exact runs.stored field member
  · intro field absent
    rw [dropped]
    · exact runs.kept field absent
    · by_cases own : field.flag = flag
      · exact Or.inr (own ▸ absent)
      · exact Or.inl own

/-! ## The updates of the fields -/

section Operation

variable {slots : Slots} {operationFields : OperationFields}

omit covers in
theorem Slots.write_of_flag_ne
    (belongs : Belongs slots operationFields)
    {field : Field}
    (other : field.flag ≠ operationFields.flag)
    (entry : Option JumpTable.Entry)
    (first second : Option Word)
    (contents : Field -> Word) :
    slots.write entry first second contents field = contents field := by
  have apart : ∀ slot : Field, slot.flag = operationFields.flag ->
      field ≠ slot := by
    rintro slot own rfl
    exact other own
  simp only [write, Function.update_of_ne (apart _ belongs.second),
    Function.update_of_ne (apart _ belongs.first),
    Function.update_of_ne (apart _ belongs.operation)]

omit covers in
theorem Slots.write_congr
    (belongs : Belongs slots operationFields)
    {contents further : Field -> Word}
    (same : ∀ field : Field, field.flag = operationFields.flag ->
      contents field = further field)
    {field : Field}
    (own : field.flag = operationFields.flag)
    (entry : Option JumpTable.Entry)
    (first second : Option Word) :
    slots.write entry first second contents field =
      slots.write entry first second further field := by
  simp only [write, Function.update_apply, same _ belongs.operation,
    same _ belongs.first, same _ belongs.second, same field own]

/-- The update of a flag that a routine evaluates. -/
theorem updateOperation_prunes
    (describes : slots.Describes operationFields)
    (belongs : Belongs slots operationFields)
    (entry : Option JumpTable.Entry)
    {va vb : Option Register}
    {temp : Register}
    (scratch : entry.isSome = true -> Scratch temp)
    (isTemp : entry.isSome = true -> temp ∈ temps)
    (firstKept : ∀ register ∈ va, register ∉ temps ∧ register ≠ temp)
    (secondKept : ∀ register ∈ vb, register ∉ temps ∧ register ≠ temp) :
    Prunes temps inst.updateFlags
      (inst.updateOperation operationFields entry va vb temp)
      ((inst.setUpdate more).updateOperation operationFields entry va vb
        temp) := by
  let entryCode :=
    entry.elim [] fun entry => operationFields.storeEntry entry temp
  have entryUpdates : UpdatesFields [temp] entryCode ∧
      UpdatesFields temps entryCode := by
    cases entry with
    | none => exact ⟨Updates.nil, Updates.nil⟩
    | some entry =>
        have stores := storeEntry_updates describes entry temp
        exact ⟨stores, stores.mono (by simpa using isTemp rfl)⟩
  have entryFields : ∀ pc state, fields (applyAll pc state entryCode) =
      Function.update (fields state) slots.operation
        ((entry.map fun entry => entry.offset.setWidth 64).getD
          (fields state slots.operation)) := by
    intro pc state
    cases entry with
    | none => exact (Function.update_eq_self _ _).symm
    | some entry => exact storeEntry_fields pc state describes entry (scratch rfl)
  have values : ∀ value : Option Register,
      (∀ register ∈ value, register ∉ temps ∧ register ≠ temp) ->
        ∀ first second, AgreesOutside temps first second ->
          value.map first.get = value.map second.get := by
    intro value outside first second agrees
    cases value with
    | none => rfl
    | some register =>
        exact congrArg some (agrees register (outside register rfl).1)
  have shape : ∀ updater : Instruction,
      updater.updateOperation operationFields entry va vb temp =
        updater.updating operationFields.flag
          (entryCode ++ operationFields.storeValue 0 va ++
            operationFields.storeValue 1 vb) := by
    intro updater
    cases entry <;> rfl
  rw [shape inst, shape (inst.setUpdate more)]
  refine @UpdateEffect.prunes temps inst more covers operationFields.flag
    (entryCode ++ operationFields.storeValue 0 va ++
      operationFields.storeValue 1 vb)
    (fun state contents => slots.write entry (va.map state.get)
      (vb.map state.get) contents) ⟨?_, ?_, ?_, ?_⟩
  · refine Updates.append (Updates.append entryUpdates.2 ?_) ?_
    · exact (storeValue_updates (by simpa using describes.first)
        describes.firstBytes va).mono (by simp)
    · exact (storeValue_updates (by simpa using describes.second)
        describes.secondBytes vb).mono (by simp)
  · intro pc state
    exact storeValues_fields pc state describes entryUpdates.1
      (entryFields pc state) (fun register member =>
        (firstKept register member).2) fun register member =>
          (secondKept register member).2
  · intro state contents field other
    exact Slots.write_of_flag_ne belongs other _ _ _ _
  · intro first second contents further agrees same field own
    rw [values va firstKept _ _ agrees, values vb secondKept _ _ agrees]
    exact Slots.write_congr belongs same own _ _ _

end Operation

section Flags

variable (temporary : .t4 ∈ temps)

include temporary

/-- An update with an entry, which is stored through the temporary. -/
theorem updateEntry_prunes
    {slots : Slots}
    {operationFields : OperationFields}
    (describes : slots.Describes operationFields)
    (belongs : Belongs slots operationFields)
    (entry : JumpTable.Entry)
    {va vb : Option Register}
    (firstKept : ∀ register ∈ va, register ∉ temps)
    (secondKept : ∀ register ∈ vb, register ∉ temps) :
    Prunes temps inst.updateFlags
      (inst.updateOperation operationFields entry va vb .t4)
      ((inst.setUpdate more).updateOperation operationFields entry va vb
        .t4) := by
  have apart : ∀ register, register ∉ temps -> register ≠ .t4 := by
    rintro register outside rfl
    exact outside temporary
  exact updateOperation_prunes covers describes belongs entry
    (fun _ => by decide) (fun _ => temporary)
    (fun register member =>
      ⟨firstKept register member, apart _ (firstKept register member)⟩)
    (fun register member =>
      ⟨secondKept register member, apart _ (secondKept register member)⟩)

theorem setCarry_prunes (set : Bool) :
    Prunes temps inst.updateFlags (inst.setCarry set .t4)
      ((inst.setUpdate more).setCarry set .t4) := by
  rw [setCarry_eq, setCarry_eq]
  exact updateEntry_prunes covers temporary carrySlots_describes
    carrySlots_belongs _ (by simp) (by simp)

theorem setOverflow_prunes (set : Bool) :
    Prunes temps inst.updateFlags (inst.setOverflow set .t4)
      ((inst.setUpdate more).setOverflow set .t4) := by
  rw [setOverflow_eq, setOverflow_eq]
  exact updateEntry_prunes covers temporary overflowSlots_describes
    overflowSlots_belongs _ (by simp) (by simp)

/-- The update of a flag that is not supported. -/
theorem updateUnsupported_prunes
    {slots : Slots}
    {operationFields : OperationFields}
    (describes : slots.Describes operationFields)
    (belongs : Belongs slots operationFields)
    {pointer : Field}
    (offset : operationFields.pointer = pointer.offset)
    (whole : pointer.bytes = 8)
    (own : pointer.flag = operationFields.flag)
    (entry : JumpTable.Entry)
    (name : BitVec 64) :
    Prunes temps inst.updateFlags
      (inst.updateUnsupported operationFields entry name .t4)
      ((inst.setUpdate more).updateUnsupported operationFields entry name
        .t4) := by
  let all := inst.setUpdate Flags.all
  have member : operationFields.flag ∈ all.updateFlags := Flags.mem_all
  have updates := @updateUnsupported_updates all _ _ describes _ offset whole
    entry name .t4
  have stores := fun pc state => @updateUnsupported_fields all _ _ describes _
    offset whole member entry name .t4 (by decide) pc state
  simp only [updateUnsupported, updating, if_pos member] at updates stores
  refine @UpdateEffect.prunes temps inst more covers operationFields.flag _
    (fun _ contents => Function.update (Function.update contents
      slots.operation (entry.offset.setWidth 64)) pointer name)
    ⟨updates.mono (by simpa using temporary), stores, ?_, ?_⟩
  · intro state contents field other
    have notPointer : field ≠ pointer := by
      rintro rfl
      exact other own
    have notOperation : field ≠ slots.operation := by
      rintro rfl
      exact other belongs.operation
    rw [Function.update_of_ne notPointer, Function.update_of_ne notOperation]
  · intro first second contents further agrees same field ofFlag
    simp only [Function.update_apply, same field ofFlag]

end Flags

/-- An update of values without an entry. -/
theorem updateValues_prunes
    {slots : Slots}
    {operationFields : OperationFields}
    (describes : slots.Describes operationFields)
    (belongs : Belongs slots operationFields)
    {va vb : Option Register}
    (firstKept : ∀ register ∈ va, register ∉ temps ∧ register ≠ .zero)
    (secondKept : ∀ register ∈ vb, register ∉ temps ∧ register ≠ .zero) :
    Prunes temps inst.updateFlags
      (inst.updateOperation operationFields none va vb .zero)
      ((inst.setUpdate more).updateOperation operationFields none va vb
        .zero) :=
  updateOperation_prunes covers describes belongs none (by simp) (by simp)
    firstKept secondKept

end Update

/-- One instruction that computes from registers which are no temporaries. -/
theorem Prunes.single
    {computation : Inst}
    {dst : Register}
    (computes : computation.isComputation = true)
    (target : computation.target = some dst)
    (notContext : contextAddress ≠ dst)
    (noAddress : computation.readsAddress = false)
    {reads : List Register}
    (sources : computation.sources = reads)
    (clean : ∀ register ∈ reads, register ∉ temps) :
    Prunes temps updated [computation] [computation] := by
  have outside := Inst.computesOutside_of_sources computes noAddress sources
    clean
  exact Prunes.computation
    (ComputesInto.singleton computes target (List.mem_singleton_self dst))
    (by simpa using notContext) (by simpa using outside)

end Instruction

open Instruction

/-! ## The operations -/

section Operations

variable {temps : List Register} {inst : Instruction} {more : BitVec 8}
variable (covers : ∀ flag ∈ inst.updateFlags, flag ∈ more)
variable (temporary : .t4 ∈ temps)
variable {dst : Register} (scratch : Scratch dst) (dstKept : dst ∉ temps)

include covers temporary scratch dstKept

theorem Add.executeRegister_prunes {src : Register} (srcKept : src ∉ temps) :
    Prunes temps inst.updateFlags (Add.executeRegister inst dst src)
      (Add.executeRegister (inst.setUpdate more) dst src) :=
  Prunes.append
    (Prunes.append
      (updateEntry_prunes covers temporary overflowSlots_describes
        overflowSlots_belongs _ (by simpa) (by simpa))
      (Prunes.single rfl rfl scratch.2.symm rfl (rfl : _ = [src, dst])
        (by simp [srcKept, dstKept])))
    (updateEntry_prunes covers temporary carrySlots_describes
      carrySlots_belongs _ (by simpa) (by simpa))

theorem Add.executeImmediate_prunes (imm : BitVec 64) :
    Prunes temps inst.updateFlags (Add.executeImmediate inst dst imm)
      (Add.executeImmediate (inst.setUpdate more) dst imm) := by
  rw [executeImmediate_eq, executeImmediate_eq]
  exact Prunes.append
    (Prunes.append
      (Prunes.append
        (updateEntry_prunes covers temporary carrySlots_describes
          carrySlots_belongs _ (by simpa) (by simp))
        (updateEntry_prunes covers temporary overflowSlots_describes
          overflowSlots_belongs _ (by simpa) (by simp)))
      (Prunes.single rfl rfl scratch.2.symm rfl (rfl : _ = [dst])
        (by simpa)))
    (Prunes.append
      (updateValues_prunes covers carrySlots_describes carrySlots_belongs
        (by simp) (by simp [dstKept, scratch.1]))
      (updateValues_prunes covers overflowSlots_describes
        overflowSlots_belongs (by simp) (by simp [dstKept, scratch.1])))

omit scratch in
/-- The code around the difference of two registers. -/
theorem registerDifference_prunes
    {src result : Register}
    {computation : List Inst}
    (computes : Prunes temps inst.updateFlags computation computation)
    (srcKept : src ∉ temps)
    (resultKept : result ∉ temps ∧ result ≠ .zero) :
    Prunes temps inst.updateFlags
      (registerDifference inst dst src result computation)
      (registerDifference (inst.setUpdate more) dst src result computation) :=
  Prunes.append
    (Prunes.append
      (Prunes.append
        (updateEntry_prunes covers temporary carrySlots_describes
          carrySlots_belongs _ (by simp) (by simpa))
        (updateEntry_prunes covers temporary overflowSlots_describes
          overflowSlots_belongs _ (by simpa) (by simpa)))
      computes)
    (updateValues_prunes covers carrySlots_describes carrySlots_belongs
      (by simpa using resultKept) (by simp))

omit scratch in
/-- The code around the difference of a register and an immediate. -/
theorem immediateDifference_prunes
    {result : Register}
    {computation : List Inst}
    (computes : Prunes temps inst.updateFlags computation computation)
    (resultKept : result ∉ temps ∧ result ≠ .zero) :
    Prunes temps inst.updateFlags
      (immediateDifference inst dst result computation)
      (immediateDifference (inst.setUpdate more) dst result computation) :=
  Prunes.append
    (Prunes.append
      (Prunes.append
        (updateEntry_prunes covers temporary carrySlots_describes
          carrySlots_belongs _ (by simp) (by simpa))
        (updateEntry_prunes covers temporary overflowSlots_describes
          overflowSlots_belongs _ (by simpa) (by simp)))
      computes)
    (Prunes.append
      (updateValues_prunes covers carrySlots_describes carrySlots_belongs
        (by simpa using resultKept) (by simp))
      (updateValues_prunes covers overflowSlots_describes
        overflowSlots_belongs (by simp) (by simpa using resultKept)))

omit scratch dstKept in
/-- A logical operation clears the two flags behind its computation. -/
theorem Logic.execute_prunes
    {operation : Inst}
    (computes : Prunes temps inst.updateFlags [operation] [operation]) :
    Prunes temps inst.updateFlags (Logic.execute inst operation)
      (Logic.execute (inst.setUpdate more) operation) :=
  computes.append
    ((setCarry_prunes covers temporary false).append
      (setOverflow_prunes covers temporary false))

omit scratch dstKept in
theorem Shift.execute_prunes
    (symbols : HostSymbols)
    {operation : Inst}
    (computes : Prunes temps inst.updateFlags [operation] [operation])
    (name : String) :
    Prunes temps inst.updateFlags (Shift.execute symbols inst operation name)
      (Shift.execute symbols (inst.setUpdate more) operation name) :=
  computes.append
    ((@updateUnsupported_prunes _ _ _ covers temporary _ _
      overflowSlots_describes overflowSlots_belongs .overflowPtr rfl rfl rfl
      _ _).append
        (@updateUnsupported_prunes _ _ _ covers temporary _ _
          carrySlots_describes carrySlots_belongs .carryPtr rfl rfl rfl _ _))

variable (symbols : HostSymbols)

/-- The operations on two registers that evaluate no flag. -/
theorem BinaryOperation.executeRegister_prunes
    {operation : BinaryOperation}
    (evaluatesNothing : operation ≠ adc)
    {src : Register}
    (srcKept : src ∉ temps) :
    Prunes temps inst.updateFlags
      (operation.executeRegister symbols inst dst src)
      (operation.executeRegister symbols (inst.setUpdate more) dst src) := by
  have reads : ∀ register ∈ [dst, src], register ∉ temps := by
    simp [srcKept, dstKept]
  cases operation with
  | add => exact Add.executeRegister_prunes covers temporary scratch dstKept srcKept
  | adc => exact absurd rfl evaluatesNothing
  | sub =>
      refine registerDifference_prunes covers temporary dstKept ?_ srcKept
        ⟨dstKept, scratch.1⟩
      exact Prunes.single rfl rfl scratch.2.symm rfl (rfl : _ = [dst, src])
        reads
  | and | or | xor =>
      refine Logic.execute_prunes covers temporary ?_
      exact Prunes.single rfl rfl scratch.2.symm rfl (rfl : _ = [dst, src]) reads
  | shl | shr | sar =>
      refine Shift.execute_prunes covers temporary symbols ?_ _
      exact Prunes.single rfl rfl scratch.2.symm rfl (rfl : _ = [dst, src])
        reads

/-- The operations on a register and an immediate that evaluate no flag. -/
theorem BinaryOperation.executeImmediate_prunes
    {operation : BinaryOperation}
    (evaluatesNothing : operation ≠ adc) :
    Prunes temps inst.updateFlags
      (operation.executeImmediate symbols inst dst inst.immediate)
      (operation.executeImmediate symbols (inst.setUpdate more) dst
        inst.immediate) := by
  have reads : ∀ register ∈ [dst], register ∉ temps := by
    simpa using dstKept
  cases operation with
  | add => exact Add.executeImmediate_prunes covers temporary scratch dstKept _
  | adc => exact absurd rfl evaluatesNothing
  | sub =>
      have computes := @Sub.subtractImmediate_computesInto dst inst.immediate
      change Prunes temps inst.updateFlags
        (Sub.executeImmediate inst dst inst.immediate)
        (Sub.executeImmediate (inst.setUpdate more) dst
          (inst.setUpdate more).immediate)
      rw [Sub.executeImmediate_difference, Sub.executeImmediate_difference]
      refine immediateDifference_prunes covers temporary dstKept
        (Prunes.computation computes (by simpa using scratch.2.symm) ?_)
        ⟨dstKept, scratch.1⟩
      have adds : ∀ number, (addi dst dst number).computesOutside temps =
          true := fun number =>
        Inst.computesOutside_of_sources rfl rfl rfl reads
      unfold Sub.subtractImmediate
      split <;> simp [adds]
  | and | or | xor =>
      refine Logic.execute_prunes covers temporary ?_
      exact Prunes.single rfl rfl scratch.2.symm rfl (rfl : _ = [dst]) reads
  | shl | shr | sar =>
      refine Shift.execute_prunes covers temporary symbols ?_ _
      exact Prunes.single rfl rfl scratch.2.symm rfl (rfl : _ = [dst]) reads

theorem UnaryOperation.execute_prunes
    (zeroKept : .zero ∉ temps)
    (operation : UnaryOperation) :
    Prunes temps inst.updateFlags (operation.execute inst dst)
      (operation.execute (inst.setUpdate more) dst) := by
  have reads : ∀ register ∈ [dst], register ∉ temps := by
    simpa using dstKept
  cases operation with
  | inc | dec =>
      refine Prunes.append
        (updateEntry_prunes covers temporary overflowSlots_describes
          overflowSlots_belongs _ (by simpa) (by simp)) ?_
      exact Prunes.single rfl rfl scratch.2.symm rfl (rfl : _ = [dst]) reads
  | neg =>
      refine Prunes.append
        (Prunes.append
          (updateEntry_prunes covers temporary carrySlots_describes
            carrySlots_belongs _ (by simpa) (by simp))
          (updateEntry_prunes covers temporary overflowSlots_describes
            overflowSlots_belongs _ (by simpa) (by simp))) ?_
      exact Prunes.single rfl rfl scratch.2.symm rfl (rfl : _ = [.zero, dst])
        (by simp [zeroKept, dstKept])
  | not =>
      exact Prunes.single rfl rfl scratch.2.symm rfl (rfl : _ = [dst]) reads

end Operations

/-! ## Additions with the carry flag -/

section AddEvaluated

variable (inst : Instruction) {dst src : Register} {carry : Bool}

/-- The fields behind an addition with a carry, for any update set. -/
def Adc.evaluatedContents
    (carry : Bool)
    (dst src : Register)
    (state : State)
    (contents : Field -> Word) : Field -> Word :=
  let entries := additionEntries inst.destinationSize carry
  let sum := state.get dst + state.get src + bit carry
  let overflow :=
    if Flag.overflow ∈ inst.updateFlags then
      overflowSlots.write (some entries.2) (some (state.get src))
        (some (state.get dst)) contents
    else
      contents
  if Flag.carry ∈ inst.updateFlags then
    carrySlots.write (some entries.1) (some ((state.set dst sum).get src))
      (some sum) overflow
  else
    overflow

theorem Adc.evaluatedContents_apply
    (state : State)
    (contents : Field -> Word)
    (field : Field) :
    evaluatedContents inst carry dst src state contents field =
      if field.flag ∈ inst.updateFlags then
        additionContents inst.destinationSize carry dst src state contents
          field
      else
        contents field := by
  unfold evaluatedContents additionContents
  by_cases isCarry : Flag.carry ∈ inst.updateFlags <;>
    by_cases isOverflow : Flag.overflow ∈ inst.updateFlags <;>
    cases field <;>
    simp [isCarry, isOverflow, Field.flag, Slots.write, carrySlots,
      overflowSlots]

variable (scratch : Scratch dst) (dstKept : dst ∉ [.t4, .t5, .t6])
variable (srcKept : src ∉ [.t4, .t5, .t6])

include scratch dstKept srcKept

theorem Adc.addEvaluated_contents
    (pc : Word)
    {state : State}
    (evaluated : state.get .t4 = bit carry) :
    fields (applyAll pc state (addEvaluated inst dst src)) =
      evaluatedContents inst carry dst src state (fields state) := by
  obtain ⟨offset, result, source⟩ := addCarry_registers inst (pc + 4) state
    scratch dstKept srcKept evaluated
      (pc + 4 + BitVec.ofNat 64 (4 * (storeOverflow inst dst src).length))
  simp only [List.mem_cons, List.not_mem_nil, or_false,
    not_or] at dstKept srcKept
  have adds := @addCarry_computesInto dst src
  have notContext : contextAddress ∉ [dst] := by
    simpa using scratch.2.symm
  let shifted := state.set .t5 (state.get .t4 <<< 4)
  have amount : shifted.get .t5 = bit carry <<< 4 := by
    rw [State.set_get_self _ _ (by decide), evaluated]
  have first : shifted.get dst = state.get dst :=
    State.set_get_of_ne _ _ dstKept.2.1
  have second : shifted.get src = state.get src :=
    State.set_get_of_ne _ _ srcKept.2.1
  have kept : fields shifted = fields state := fields_set _ (by decide) _
  have overflow : ∀ pc, fields (applyAll pc shifted
      (storeOverflow inst dst src)) =
        if Flag.overflow ∈ inst.updateFlags then
          overflowSlots.write
            (some (additionEntries inst.destinationSize carry).2)
            (some (state.get src)) (some (state.get dst)) (fields state)
        else
          fields state := by
    intro pc
    split
    · rename_i member
      rw [storeOverflow_fields _ _ _ member amount dstKept.2.2 srcKept.2.2,
        first, second, kept]
    · rename_i absent
      simp only [storeOverflow, if_neg absent, applyAll_nil, kept]
  by_cases any : Flag.carry ∈ inst.updateFlags ∨
      Flag.overflow ∈ inst.updateFlags
  · rw [addEvaluated, if_pos any, applyAll_cons, applyAll_append,
      applyAll_append, evaluatedContents]
    by_cases member : Flag.carry ∈ inst.updateFlags
    · rw [if_pos member]
      refine (storeCarry_fields _ _ _ member offset dstKept.1
        srcKept.1).trans ?_
      rw [fields_computesInto _ _ adds notContext, result, source]
      exact congrArg _ (overflow _)
    · rw [if_neg member]
      simp only [storeCarry, if_neg member, applyAll_nil]
      rw [fields_computesInto _ _ adds notContext]
      exact overflow _
  · obtain ⟨noCarry, noOverflow⟩ := not_or.mp any
    rw [addEvaluated, if_neg any, evaluatedContents, if_neg noCarry,
      if_neg noOverflow]
    exact fields_computesInto _ _ adds notContext

/-- The updates of an addition with a carry may be pruned. -/
theorem Adc.addEvaluated_prunes
    {more : BitVec 8}
    (covers : ∀ flag ∈ inst.updateFlags, flag ∈ more)
    (prunedPc fullPc : Word)
    {state : State}
    (evaluated : state.get .t4 = bit carry) :
    Pruned [.t4, .t5, .t6] inst.updateFlags state
      (applyAll prunedPc state (addEvaluated inst dst src))
      (applyAll fullPc state (addEvaluated (inst.setUpdate more) dst src)) := by
  have pruned := addEvaluated_contents inst scratch dstKept srcKept prunedPc
    evaluated
  have full := addEvaluated_contents (inst.setUpdate more) scratch dstKept
    srcKept fullPc evaluated
  refine ⟨?_, ?_, ?_⟩
  · intro register outside
    by_cases isDst : register = dst
    · rw [isDst, addEvaluated_value _ _ _ scratch.1 dstKept srcKept,
        addEvaluated_value _ _ _ scratch.1 dstKept srcKept]
    · have other : register ∉ [dst, .t4, .t5, .t6] := by
        simp only [List.mem_cons, isDst, false_or]
        simpa using outside
      rw [(addEvaluated_updates inst).get _ _ other,
        (addEvaluated_updates (inst.setUpdate more)).get _ _ other]
  · intro field member
    have further : field.flag ∈ (inst.setUpdate more).updateFlags :=
      covers _ member
    rw [pruned, full, evaluatedContents_apply, evaluatedContents_apply,
      if_pos member, if_pos further]
    rfl
  · intro field absent
    rw [pruned, evaluatedContents_apply, if_neg absent]

end AddEvaluated

end Oxtra

import Oxtra.FlagEvaluation.Evaluation
import Oxtra.Instruction.Accesses

/-!
# Effects of the updates

What the code that stores lazy information does to the fields, for the flags
of the update set.  It keeps every register but its temporary, and the memory
that is no part of the fields.
-/

namespace Oxtra
namespace Instruction

open RiscV
open Encoding
open Helper
open FlagInfo
open Fadec (OperandSize)

/-! ## Code that only updates fields -/

/-- The code keeps everything but some temporaries and the fields. -/
abbrev UpdatesFields (temps : List Register) (code : List Inst) : Prop :=
  Updates temps contextAddress 0x200 Field.limit code

/-- A store to a field, or to its first bytes. -/
theorem storesInto_field
    {kind : Store}
    {field : Field}
    (short : kind.width.bytes ≤ field.bytes)
    (register : Register) :
    (store kind contextAddress register field.offset).storesInto
      contextAddress 0x200 Field.limit = true := by
  have offset : (field.offset.setWidth 12).toNat = field.offset.toNat := by
    cases field <;> decide
  have inside := field.offset_lt
  simp only [store, Inst.storesInto, decide_true, Bool.true_and,
    Bool.and_eq_true, decide_eq_true_eq, offset]
  omega

theorem UpdatesFields.store
    {temps : List Register}
    {kind : Store}
    {field : Field}
    (short : kind.width.bytes ≤ field.bytes)
    (register : Register) :
    UpdatesFields temps
      [Encoding.store kind contextAddress register field.offset] :=
  Updates.cons (Or.inr (storesInto_field short register)) Updates.nil

theorem UpdatesFields.compute
    {temps : List Register}
    {inst : Inst}
    (computes : inst.computesInto temps = true) :
    UpdatesFields temps [inst] :=
  Updates.cons (Or.inl computes) Updates.nil

/-- A store to a field as it is executed. -/
theorem apply_store_field
    (kind : Store)
    (field : Field)
    (register : Register)
    (pc : Word)
    (state : State) :
    (store kind contextAddress register field.offset).apply pc state =
      state.store (field.address state) kind.width.bytes
        (state.get register) := by
  rw [apply_store, field.signedImm_offset]
  rfl

theorem fields_apply_store
    {kind : Store}
    {field : Field}
    (whole : kind.width.bytes = field.bytes)
    (register : Register)
    (pc : Word)
    (state : State) :
    fields ((store kind contextAddress register field.offset).apply pc state) =
      Function.update (fields state) field
        (lowBytes field.bytes (state.get register)) := by
  rw [apply_store_field, whole, fields_store]

variable (inst : Instruction) (pc : Word) (state : State)

/-! ## Zero, sign and parity -/

theorem updating_updates
    {temps : List Register}
    {code : List Inst}
    (flag : Flag)
    (updates : UpdatesFields temps code) :
    UpdatesFields temps (inst.updating flag code) := by
  unfold updating
  split
  · exact updates
  · exact Updates.nil

/-- The fields after an update are those of its code if the flag is updated,
and otherwise the same. -/
theorem fields_updating
    {flag : Flag}
    {code : List Inst}
    {contents : Field -> Word}
    (effect : fields (applyAll pc state code) = contents) :
    fields (applyAll pc state (inst.updating flag code)) =
      if flag ∈ inst.updateFlags then contents else fields state := by
  unfold updating
  split
  · exact effect
  · rfl

theorem updateZero_updates (va : Register) (size : OperandSize) :
    UpdatesFields [] (inst.updateZero va size) := by
  apply updating_updates
  have short {kind : Store} (bound : kind.width.bytes ≤ 8) :
      UpdatesFields [] [sd contextAddress .zero zeroValueOffset,
        store kind contextAddress va zeroValueOffset] :=
    Updates.cons
      (Or.inr (@storesInto_field .sd .zeroValue (by decide) .zero))
      (@UpdatesFields.store _ kind .zeroValue bound va)
  cases size with
  | qword => exact @UpdatesFields.store _ .sd .zeroValue (by decide) va
  | dword => exact @short .sw (by decide)
  | word => exact @short .sh (by decide)
  | byte => exact @short .sb (by decide)

theorem updateZero_fields (va : Register) (size : OperandSize) :
    fields (applyAll pc state (inst.updateZero va size)) =
      if Flag.zero ∈ inst.updateFlags then
        Function.update (fields state) .zeroValue
          (lowBytes size.bytes (state.get va))
      else
        fields state := by
  apply fields_updating
  have short {kind : Store} (bound : kind.width.bytes ≤ 8) :
      fields (applyAll pc state
        [sd contextAddress .zero zeroValueOffset,
          store kind contextAddress va zeroValueOffset]) =
        Function.update (fields state) .zeroValue
          (lowBytes kind.width.bytes (state.get va)) := by
    have first := apply_store_field .sd .zeroValue .zero pc state
    have second := apply_store_field kind .zeroValue va (pc + 4)
    simp only [Field.offset] at first second
    rw [applyAll_cons, applyAll_cons, applyAll_nil, second, sd, first]
    exact fields_store_short rfl state bound (state.get va)
  cases size with
  | qword => exact @fields_apply_store .sd .zeroValue rfl va pc state
  | dword => exact @short .sw (by decide)
  | word => exact @short .sh (by decide)
  | byte => exact @short .sb (by decide)

theorem updateSign_updates
    (va : Register)
    (size : OperandSize)
    (temp : Register) :
    UpdatesFields [temp] (inst.updateSign va size temp) := by
  apply updating_updates
  refine Updates.cons
    (Or.inr (@storesInto_field .sd .signValue (by decide) va))
    (Updates.cons (Or.inl ?_) ?_)
  · exact Inst.computesInto_of_target rfl rfl (by simp)
  · exact @UpdatesFields.store _ .sb .signSize (by decide) temp

theorem updateSign_fields
    {temp : Register}
    (scratch : Scratch temp)
    (va : Register)
    (operandSize : OperandSize) :
    fields (applyAll pc state (inst.updateSign va operandSize temp)) =
      if Flag.sign ∈ inst.updateFlags then
        Function.update
          (Function.update (fields state) .signValue (state.get va))
          .signSize (BitVec.ofNat 64 (operandSize.bits - 1))
      else
        fields state := by
  apply fields_updating
  have value := @fields_apply_store .sd .signValue rfl va pc state
  have size := @fields_apply_store .sb .signSize rfl temp
  simp only [Field.offset] at value size
  have bits : lowBytes Field.signSize.bytes
      (signedImm (BitVec.ofNat 16 (operandSize.bits - 1))) =
        BitVec.ofNat 64 (operandSize.bits - 1) := by
    cases operandSize <;> decide
  rw [applyAll_cons, applyAll_cons, applyAll_cons, applyAll_nil, sb_eq, size,
    apply_addi, fields_set _ scratch.2, State.set_get_self _ _ scratch.1,
    State.get_zero, zero_add, bits, sd_eq, value]
  simp only [Field.bytes, lowBytes_eight]

theorem updateParity_updates (va : Register) :
    UpdatesFields [] (inst.updateParity va) := by
  apply updating_updates
  exact @UpdatesFields.store _ .sb .parityValue (by decide) va

theorem updateParity_fields (va : Register) :
    fields (applyAll pc state (inst.updateParity va)) =
      if Flag.parity ∈ inst.updateFlags then
        Function.update (fields state) .parityValue
          (lowBytes 1 (state.get va))
      else
        fields state := by
  apply fields_updating
  exact @fields_apply_store .sb .parityValue rfl va pc state

/-! ## Carry and overflow -/

/-- The fields of a flag that is evaluated by a routine. -/
structure Slots where
  first : Field
  second : Field
  operation : Field
  deriving DecidableEq, Repr

def overflowSlots : Slots where
  first := .overflowFirst
  second := .overflowSecond
  operation := .overflowOperation

def carrySlots : Slots where
  first := .carryFirst
  second := .carrySecond
  operation := .carryOperation

namespace Slots

/-- Contents with a new entry and new values, as far as there are any. -/
def write
    (slots : Slots)
    (entry : Option JumpTable.Entry)
    (first second : Option Word)
    (contents : Field -> Word) : Field -> Word :=
  let contents := Function.update contents slots.operation
    ((entry.map fun entry => entry.offset.setWidth 64).getD
      (contents slots.operation))
  let contents := Function.update contents slots.first
    (first.getD (contents slots.first))
  Function.update contents slots.second
    (second.getD (contents slots.second))

/-- The fields that some code for a flag stores to. -/
structure Describes (slots : Slots) (fields : OperationFields) : Prop where
  first : fields.values = slots.first.offset
  second : fields.values + 8 = slots.second.offset
  operation : fields.operation = slots.operation.offset
  firstBytes : slots.first.bytes = 8
  secondBytes : slots.second.bytes = 8
  operationBytes : slots.operation.bytes = 2

end Slots

theorem overflowSlots_describes : overflowSlots.Describes overflowFields :=
  ⟨rfl, rfl, rfl, rfl, rfl, rfl⟩

theorem carrySlots_describes : carrySlots.Describes carryFields :=
  ⟨rfl, rfl, rfl, rfl, rfl, rfl⟩

theorem UpdatesFields.computeInto
    {code : List Inst}
    {temps : List Register}
    (computes : ComputesInto temps code) :
    UpdatesFields temps code :=
  ⟨fun inst member => Or.inl (computes inst member)⟩

section UpdateOperation

variable {slots : Slots} {operationFields : OperationFields}

theorem storeEntry_updates
    (describes : slots.Describes operationFields)
    (entry : JumpTable.Entry)
    (temp : Register) :
    UpdatesFields [temp] (operationFields.storeEntry entry temp) := by
  have whole : Store.sh.width.bytes ≤ slots.operation.bytes := by
    rw [describes.operationBytes]
    decide
  rw [OperationFields.storeEntry, describes.operation]
  exact Updates.cons
    (Or.inl (Inst.computesInto_of_target rfl rfl (by simp)))
    (@UpdatesFields.store _ .sh slots.operation whole temp)

theorem storeValue_updates
    {index : BitVec 32}
    {field : Field}
    (offset : operationFields.values + 8 * index = field.offset)
    (whole : field.bytes = 8)
    (value : Option Register) :
    UpdatesFields [] (operationFields.storeValue index value) := by
  cases value with
  | none => exact Updates.nil
  | some value =>
      rw [OperationFields.storeValue, offset]
      exact @UpdatesFields.store _ .sd field (by rw [whole]; decide) value

theorem storeEntry_fields
    (describes : slots.Describes operationFields)
    (entry : JumpTable.Entry)
    {temp : Register}
    (scratch : Scratch temp) :
    fields (applyAll pc state (operationFields.storeEntry entry temp)) =
      Function.update (fields state) slots.operation
        (entry.offset.setWidth 64) := by
  have whole : Store.sh.width.bytes = slots.operation.bytes := by
    rw [describes.operationBytes]
    rfl
  have stored := @fields_apply_store .sh slots.operation whole temp (pc + 4)
  have offset : lowBytes 2 (signedImm entry.offset) =
      entry.offset.setWidth 64 := by
    cases entry <;> first
      | decide
      | (rename_i width; cases width <;> decide)
  rw [OperationFields.storeEntry, describes.operation, applyAll_cons,
    applyAll_cons, applyAll_nil, sh_eq, stored, apply_addi,
    fields_set _ scratch.2, State.set_get_self _ _ scratch.1, State.get_zero,
    zero_add, describes.operationBytes, offset]

theorem storeValue_fields
    {index : BitVec 32}
    {field : Field}
    (offset : operationFields.values + 8 * index = field.offset)
    (whole : field.bytes = 8)
    (value : Option Register) :
    fields (applyAll pc state (operationFields.storeValue index value)) =
      Function.update (fields state) field
        ((value.map state.get).getD (fields state field)) := by
  cases value with
  | none => exact (Function.update_eq_self field (fields state)).symm
  | some value =>
      have stored := @fields_apply_store .sd field whole.symm value pc state
      rw [OperationFields.storeValue, offset, applyAll_cons, applyAll_nil,
        sd_eq, stored, whole, lowBytes_eight]
      rfl

theorem updateOperation_updates
    (describes : slots.Describes operationFields)
    (entry : Option JumpTable.Entry)
    (va vb : Option Register)
    (temp : Register) :
    UpdatesFields [temp]
      (inst.updateOperation operationFields entry va vb temp) := by
  apply updating_updates
  refine Updates.append (Updates.append ?_ ?_) ?_
  · cases entry with
    | none => exact Updates.nil
    | some entry => exact storeEntry_updates describes entry temp
  · exact (storeValue_updates (by simpa using describes.first)
      describes.firstBytes va).mono (by simp)
  · exact (storeValue_updates (by simpa using describes.second)
      describes.secondBytes vb).mono (by simp)

/-- Without an entry the temporary is not used. -/
theorem updateValues_updates
    (describes : slots.Describes operationFields)
    (va vb : Option Register)
    (temp : Register) :
    UpdatesFields []
      (inst.updateOperation operationFields none va vb temp) := by
  apply updating_updates
  exact Updates.append
    (storeValue_updates (by simpa using describes.first)
      describes.firstBytes va)
    (storeValue_updates (by simpa using describes.second)
      describes.secondBytes vb)

/-- The values are stored behind the entry.  They are those in front of the
code, if the temporary has none of them. -/
theorem storeValues_fields
    (describes : slots.Describes operationFields)
    {entry : Option JumpTable.Entry}
    {va vb : Option Register}
    {temp : Register}
    {entryCode : List Inst}
    (entryUpdates : UpdatesFields [temp] entryCode)
    (entryFields : fields (applyAll pc state entryCode) =
      Function.update (fields state) slots.operation
        ((entry.map fun entry => entry.offset.setWidth 64).getD
          (fields state slots.operation)))
    (firstKept : ∀ register ∈ va, register ≠ temp)
    (secondKept : ∀ register ∈ vb, register ≠ temp) :
    fields (applyAll pc state (entryCode ++
        operationFields.storeValue 0 va ++ operationFields.storeValue 1 vb)) =
      slots.write entry (va.map state.get) (vb.map state.get)
        (fields state) := by
  have keeps : ∀ (value : Option Register) (later : State),
      (∀ register ∈ value, later.get register = state.get register) ->
        value.map later.get = value.map state.get := by
    intro value later same
    cases value with
    | none => rfl
    | some register => exact congrArg some (same register rfl)
  have firstOffset : operationFields.values + 8 * 0 = slots.first.offset := by
    simpa using describes.first
  have secondOffset : operationFields.values + 8 * 1 =
      slots.second.offset := by
    simpa using describes.second
  have firstUpdates := storeValue_updates firstOffset describes.firstBytes va
  rw [applyAll_append, applyAll_append,
    storeValue_fields _ _ secondOffset describes.secondBytes,
    storeValue_fields _ _ firstOffset describes.firstBytes, entryFields,
    keeps va, keeps vb]
  · rfl
  · intro register member
    rw [firstUpdates.get _ _ (by simp),
      entryUpdates.get _ _ (by simpa using secondKept register member)]
  · intro register member
    rw [entryUpdates.get _ _ (by simpa using firstKept register member)]

/-- The entry and the values are stored.  The values are those in front of the
code, if the temporary has none of them. -/
theorem updateOperation_fields
    (describes : slots.Describes operationFields)
    (entry : Option JumpTable.Entry)
    {va vb : Option Register}
    {temp : Register}
    (scratch : entry.isSome = true -> Scratch temp)
    (firstKept : ∀ register ∈ va, register ≠ temp)
    (secondKept : ∀ register ∈ vb, register ≠ temp) :
    fields (applyAll pc state
        (inst.updateOperation operationFields entry va vb temp)) =
      if operationFields.flag ∈ inst.updateFlags then
        slots.write entry (va.map state.get) (vb.map state.get) (fields state)
      else
        fields state := by
  apply fields_updating
  cases entry with
  | none =>
      have entryFields : fields (applyAll pc state []) =
          Function.update (fields state) slots.operation
            (fields state slots.operation) :=
        (Function.update_eq_self _ _).symm
      exact storeValues_fields pc state describes Updates.nil entryFields
        firstKept secondKept
  | some entry =>
      exact storeValues_fields pc state describes
        (storeEntry_updates describes entry temp)
        (storeEntry_fields pc state describes entry (scratch rfl)) firstKept
        secondKept

end UpdateOperation

/-! ## Known flags and entries in registers -/

theorem setOverflow_eq (set : Bool) (temp : Register) :
    inst.setOverflow set temp =
      inst.updateOverflow
        (some (if set then .overflowSet else .overflowClear)) none none
          temp := by
  simp only [setOverflow, updateOverflow, updateOperation,
    OperationFields.storeValue, List.append_nil]
  rfl

theorem setCarry_eq (set : Bool) (temp : Register) :
    inst.setCarry set temp =
      inst.updateCarry (some (if set then .carrySet else .carryClear)) none
        none temp := by
  simp only [setCarry, updateCarry, updateOperation,
    OperationFields.storeValue, List.append_nil]
  rfl

section StoreRegister

variable {slots : Slots} {operationFields : OperationFields}

theorem storeRegister_updates
    (describes : slots.Describes operationFields)
    (entry va vb : Register) :
    UpdatesFields [] (operationFields.storeRegister entry va vb) := by
  have first : Store.sd.width.bytes ≤ slots.first.bytes := by
    rw [describes.firstBytes]
    decide
  have second : Store.sd.width.bytes ≤ slots.second.bytes := by
    rw [describes.secondBytes]
    decide
  have operation : Store.sh.width.bytes ≤ slots.operation.bytes := by
    rw [describes.operationBytes]
    decide
  rw [OperationFields.storeRegister, describes.second, describes.first,
    describes.operation]
  exact Updates.cons (Or.inr (@storesInto_field .sd _ first va))
    (Updates.cons (Or.inr (@storesInto_field .sd _ second vb))
      (@UpdatesFields.store _ .sh _ operation entry))

/-- An entry whose offset is in a register is stored with its values. -/
theorem storeRegister_fields
    (describes : slots.Describes operationFields)
    (apart : slots.operation ≠ slots.first ∧ slots.operation ≠ slots.second)
    {entry : JumpTable.Entry}
    {register : Register}
    (offset : state.get register = entry.offset.setWidth 64)
    (va vb : Register) :
    fields (applyAll pc state
        (operationFields.storeRegister register va vb)) =
      slots.write (some entry) (some (state.get va)) (some (state.get vb))
        (fields state) := by
  have first := @fields_apply_store .sd slots.first describes.firstBytes.symm
    va
  have second := @fields_apply_store .sd slots.second
    describes.secondBytes.symm vb
  have operation := @fields_apply_store .sh slots.operation
    describes.operationBytes.symm register
  have low : lowBytes 2 (entry.offset.setWidth 64) =
      entry.offset.setWidth 64 := by
    cases entry <;> first
      | decide
      | (rename_i width; cases width <;> decide)
  rw [OperationFields.storeRegister, describes.second, describes.first,
    describes.operation]
  rw [applyAll_cons, applyAll_cons, applyAll_cons, applyAll_nil, sh_eq,
    operation, sd_eq, second, first]
  simp only [apply_store, State.store_get, describes.firstBytes,
    describes.secondBytes, describes.operationBytes, lowBytes_eight, offset,
    low]
  rw [Function.update_comm apart.2.symm, Function.update_comm apart.1.symm]
  rfl

end StoreRegister

/-! ## Flags of the result -/

/-- The updates of the flags that depend on the result only. -/
def resultUpdates (va : Register) (size : OperandSize) (temp : Register) :
    List Inst :=
  inst.updateZero va size ++ inst.updateSign va size temp ++
    inst.updateParity va

theorem resultUpdates_updates
    (va : Register)
    (size : OperandSize)
    (temp : Register) :
    UpdatesFields [temp] (inst.resultUpdates va size temp) :=
  Updates.append
    (Updates.append ((inst.updateZero_updates va size).mono (by simp))
      (inst.updateSign_updates va size temp))
    ((inst.updateParity_updates va).mono (by simp))

/-- Contents with the result of an operation, for the flags of a set. -/
def resultContents
    (flags : BitVec 8)
    (result : Word)
    (size : OperandSize)
    (contents : Field -> Word) : Field -> Word
  | .zeroValue =>
      if Flag.zero ∈ flags then lowBytes size.bytes result
      else contents .zeroValue
  | .signValue =>
      if Flag.sign ∈ flags then result else contents .signValue
  | .signSize =>
      if Flag.sign ∈ flags then BitVec.ofNat 64 (size.bits - 1)
      else contents .signSize
  | .parityValue =>
      if Flag.parity ∈ flags then lowBytes 1 result
      else contents .parityValue
  | field => contents field

theorem resultUpdates_fields
    {temp : Register}
    (scratch : Scratch temp)
    {va : Register}
    (kept : va ≠ temp)
    (size : OperandSize) :
    fields (applyAll pc state (inst.resultUpdates va size temp)) =
      resultContents inst.updateFlags (state.get va) size
        (fields state) := by
  rw [resultUpdates, applyAll_append, applyAll_append, updateParity_fields,
    inst.updateSign_fields _ _ scratch, updateZero_fields,
    (inst.updateSign_updates va size temp).get _ _ (by simpa using kept),
    (inst.updateZero_updates va size).get _ _ (by simp)]
  funext field
  cases field <;> simp only [resultContents] <;> split <;> split <;> split <;>
    simp

end Instruction
end Oxtra

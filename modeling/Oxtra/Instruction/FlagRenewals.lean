import Oxtra.Instruction.FlagEffects
import Oxtra.Instruction.FieldSparing
import Oxtra.Library.RiscV.Endings

/-!
# Renewed flags

Code renews a flag if the fields that it stores decide the flag, whatever the
other fields contain.  The zero, sign and parity flag need all of their fields.
The carry and the overflow flag can do with less, if the routine that is stored
does not look at both of the values.
-/

namespace Oxtra

open RiscV
open Encoding
open Helper
open FlagInfo
open JumpTable (Runtime RuntimeKeeps)
open Instruction (Slots OperationFields fields_apply_store)

/-! ## Entries -/

namespace JumpTable.Entry

/-- The routine does not look at the second value. -/
def Unary (entry : Entry) : Prop :=
  ∀ first second other,
    entry.carryFlag first second = entry.carryFlag first other ∧
      entry.overflowFlag first second = entry.overflowFlag first other

/-- The routine does not look at the values. -/
def Constant (entry : Entry) : Prop :=
  ∀ first second other more,
    entry.carryFlag first second = entry.carryFlag other more ∧
      entry.overflowFlag first second = entry.overflowFlag other more

end JumpTable.Entry

/-! ## Fields that a flag is evaluated from -/

namespace FlagInfo

/-- The fields that a flag is evaluated from. -/
def evaluatedFields : Flag -> List Field
  | .zero => [.zeroValue]
  | .sign => [.signValue, .signSize]
  | .parity => [.parityValue]
  | .carry => [.carryOperation, .carryFirst, .carrySecond]
  | .overflow => [.overflowOperation, .overflowFirst, .overflowSecond]

/-- The fields of a flag that is evaluated by a routine. -/
def slots? : Flag -> Option Slots
  | .carry => some Instruction.carrySlots
  | .overflow => some Instruction.overflowSlots
  | _ => none

/-- Contents in which every flag is set but the zero flag. -/
def setContents : Field -> Word
  | .parityValue => 0
  | .carryOperation => JumpTable.Entry.carrySet.offset.setWidth 64
  | .overflowOperation => JumpTable.Entry.overflowSet.offset.setWidth 64
  | _ => -1

/-- Contents in which every flag is clear but the zero flag. -/
def clearContents : Field -> Word
  | .parityValue => 1
  | .carryOperation => JumpTable.Entry.carryClear.offset.setWidth 64
  | .overflowOperation => JumpTable.Entry.overflowClear.offset.setWidth 64
  | _ => 0

section Evaluated

variable {first second : Field -> Word} {flag : Flag} {value : Bool}

theorem EvaluatedFlag.congr_evaluatedFields
    (same : ∀ field ∈ evaluatedFields flag, first field = second field) :
    EvaluatedFlag first flag value ↔ EvaluatedFlag second flag value := by
  cases flag <;>
    simp only [evaluatedFields, List.forall_mem_cons, List.not_mem_nil,
      false_imp_iff, implies_true, and_true] at same <;>
    simp only [EvaluatedFlag, same]

/-- A flag whose routine is stored. -/
theorem evaluatedFlag_carry_iff
    {entry : JumpTable.Entry}
    (stored : first .carryOperation = entry.offset.setWidth 64) :
    EvaluatedFlag first .carry value ↔
      entry.carryFlag (first .carryFirst) (first .carrySecond) =
        some value := by
  constructor
  · rintro ⟨other, same, evaluates⟩
    rwa [JumpTable.Entry.eq_of_offset (stored.symm.trans same)]
  · exact fun evaluates => ⟨entry, stored, evaluates⟩

@[inherit_doc evaluatedFlag_carry_iff]
theorem evaluatedFlag_overflow_iff
    {entry : JumpTable.Entry}
    (stored : first .overflowOperation = entry.offset.setWidth 64) :
    EvaluatedFlag first .overflow value ↔
      entry.overflowFlag (first .overflowFirst) (first .overflowSecond) =
        some value := by
  constructor
  · rintro ⟨other, same, evaluates⟩
    rwa [JumpTable.Entry.eq_of_offset (stored.symm.trans same)]
  · exact fun evaluates => ⟨entry, stored, evaluates⟩

/-- A routine that looks at the first value only. -/
theorem EvaluatedFlag.congr_unary
    {slots : Slots}
    (found : slots? flag = some slots)
    {entry : JumpTable.Entry}
    (unary : entry.Unary)
    (stored : second slots.operation = entry.offset.setWidth 64)
    (sameOperation : first slots.operation = second slots.operation)
    (sameFirst : first slots.first = second slots.first) :
    EvaluatedFlag first flag value ↔ EvaluatedFlag second flag value := by
  cases flag with
  | carry =>
      obtain rfl := Option.some.inj found
      rw [evaluatedFlag_carry_iff (sameOperation.trans stored),
        evaluatedFlag_carry_iff stored,
        (unary _ _ (second .carrySecond)).1]
      exact Iff.of_eq (congrArg (entry.carryFlag · _ = some value) sameFirst)
  | overflow =>
      obtain rfl := Option.some.inj found
      rw [evaluatedFlag_overflow_iff (sameOperation.trans stored),
        evaluatedFlag_overflow_iff stored,
        (unary _ _ (second .overflowSecond)).2]
      exact Iff.of_eq
        (congrArg (entry.overflowFlag · _ = some value) sameFirst)
  | zero | sign | parity => cases found

/-- A routine that looks at neither value. -/
theorem EvaluatedFlag.congr_constant
    {slots : Slots}
    (found : slots? flag = some slots)
    {entry : JumpTable.Entry}
    (constant : entry.Constant)
    (stored : second slots.operation = entry.offset.setWidth 64)
    (sameOperation : first slots.operation = second slots.operation) :
    EvaluatedFlag first flag value ↔ EvaluatedFlag second flag value := by
  cases flag with
  | carry =>
      obtain rfl := Option.some.inj found
      rw [evaluatedFlag_carry_iff (sameOperation.trans stored),
        evaluatedFlag_carry_iff stored,
        (constant _ _ (second .carryFirst) (second .carrySecond)).1]
  | overflow =>
      obtain rfl := Option.some.inj found
      rw [evaluatedFlag_overflow_iff (sameOperation.trans stored),
        evaluatedFlag_overflow_iff stored,
        (constant _ _ (second .overflowFirst) (second .overflowSecond)).2]
  | zero | sign | parity => cases found

/-- No flag has the same value in all contents. -/
theorem exists_evaluatedFlag (flag : Flag) :
    ∃ value, EvaluatedFlag setContents flag value ∧
      ¬ EvaluatedFlag clearContents flag value := by
  cases flag with
  | zero => exact ⟨false, rfl, by simp [EvaluatedFlag, clearContents]⟩
  | sign =>
      refine ⟨true, ?_, ?_⟩ <;> rw [EvaluatedFlag] <;> decide
  | parity =>
      refine ⟨true, ?_, ?_⟩ <;> rw [EvaluatedFlag] <;> decide
  | carry =>
      refine ⟨true, ⟨.carrySet, rfl, rfl⟩, ?_⟩
      rw [@evaluatedFlag_carry_iff clearContents _ .carryClear rfl]
      decide
  | overflow =>
      refine ⟨true, ⟨.overflowSet, rfl, rfl⟩, ?_⟩
      rw [@evaluatedFlag_overflow_iff clearContents _ .overflowClear rfl]
      decide

end Evaluated

end FlagInfo

/-! ## Runs that decide a flag -/

/-- The instruction stores a whole field. -/
def FlagInfo.Field.IsStoredBy (field : Field) (inst : Inst) : Prop :=
  ∃ kind register, kind.width.bytes = field.bytes ∧
    inst = store kind contextAddress register field.offset

/-- What a run stored decides a flag when it has ended.  The flag is the same
in all contents that agree in the fields that were stored. -/
def Decides
    (visited : List (Inst × State))
    (after : State)
    (flag : Flag) : Prop :=
  ∀ contents : Field -> Word,
    (∀ field, (∃ visit ∈ visited, field.IsStoredBy visit.1) ->
      contents field = fields after field) ->
    ∀ value, EvaluatedFlag contents flag value ↔
      EvaluatedFlag (fields after) flag value

section Decides

variable {visited : List (Inst × State)} {after : State} {flag : Flag}

/-- A run that stores nothing for a flag does not decide it. -/
theorem not_decides_of_not_stored
    (notStored : ∀ visit ∈ visited, ∀ field : Field, field.flag = flag ->
      ¬ field.IsStoredBy visit.1) :
    ¬ Decides visited after flag := by
  intro decides
  -- What is not stored may be anything.
  let replace (contents : Field -> Word) (field : Field) : Word :=
    if field.flag = flag then contents field else fields after field
  have agrees (contents : Field -> Word) (field : Field)
      (stored : ∃ visit ∈ visited, field.IsStoredBy visit.1) :
      replace contents field = fields after field := by
    obtain ⟨visit, member, stores⟩ := stored
    exact if_neg fun same => notStored visit member field same stores
  have same (contents : Field -> Word) (value : Bool) :
      EvaluatedFlag (replace contents) flag value ↔
        EvaluatedFlag contents flag value := by
    refine EvaluatedFlag.congr_evaluatedFields fun field member => if_pos ?_
    revert field
    cases flag <;> decide
  obtain ⟨value, set, notClear⟩ := exists_evaluatedFlag flag
  have first := decides _ (agrees setContents) value
  have second := decides _ (agrees clearContents) value
  rw [same] at first second
  exact notClear (second.mpr (first.mp set))

/-- Code that spares a field does not store it. -/
theorem not_isStoredBy_of_spares
    {field : Field}
    {inst : Inst}
    (spares : inst.spares field.region = true) :
    ¬ field.IsStoredBy inst := by
  rintro ⟨kind, register, whole, rfl⟩
  have offset : (field.offset.setWidth 12).toNat = field.offset.toNat := by
    cases field <;> decide
  have nonempty := field.bytes_pos
  rw [Inst.spares, Bool.and_eq_true] at spares
  have beside := spares.2
  simp only [store, Inst.storesBeside, offset, Field.region, ne_eq,
    not_true_eq_false, decide_false, Bool.false_or, Bool.and_eq_true,
    Bool.or_eq_true, decide_eq_true_eq] at beside
  omega

/-- The part of a run that decides a flag is enough. -/
theorem Decides.mono
    {more : List (Inst × State)}
    (decides : Decides visited after flag)
    (subset : ∀ visit ∈ visited, visit ∈ more) :
    Decides more after flag := by
  intro contents same
  refine decides contents fun field stored => ?_
  obtain ⟨visit, member, stores⟩ := stored
  exact same field ⟨visit, subset visit member, stores⟩

/-- All fields that the flag is evaluated from are stored. -/
theorem decides_of_evaluatedFields
    (stored : ∀ field ∈ evaluatedFields flag,
      ∃ visit ∈ visited, field.IsStoredBy visit.1) :
    Decides visited after flag :=
  fun _ same _ => EvaluatedFlag.congr_evaluatedFields fun field member =>
    same field (stored field member)

end Decides

/-! ## Code that stores a field -/

/-- Some instruction of the code stores a whole field. -/
def StoresWhole (field : Field) (code : List Inst) : Prop :=
  ∃ inst ∈ code, field.IsStoredBy inst

/-- Code that stores a routine for a flag, whatever was there before. -/
structure LeavesEntry
    (field : Field)
    (allowed : JumpTable.Entry -> Prop)
    (code : List Inst) : Prop where
  stores : StoresWhole field code
  leaves : ∀ {runtime : Runtime} {env : Environment} {state after : State},
    RuntimeKeeps runtime field -> env.StoresOutside field.region code ->
      (JumpTable.dispatch runtime env).Exits code state (.ended after) ->
        ∃ entry : JumpTable.Entry, allowed entry ∧
          fields after field = entry.offset.setWidth 64

section Code

variable {field : Field} {allowed : JumpTable.Entry -> Prop}
variable {first second code : List Inst}

theorem StoresWhole.left (stores : StoresWhole field first) :
    StoresWhole field (first ++ second) := by
  obtain ⟨inst, member, stored⟩ := stores
  exact ⟨inst, List.mem_append_left _ member, stored⟩

theorem StoresWhole.right (stores : StoresWhole field second) :
    StoresWhole field (first ++ second) := by
  obtain ⟨inst, member, stored⟩ := stores
  exact ⟨inst, List.mem_append_right _ member, stored⟩

theorem storesWhole_of_mem
    {kind : Store}
    {register : Register}
    (whole : kind.width.bytes = field.bytes)
    (member : store kind contextAddress register field.offset ∈ code) :
    StoresWhole field code :=
  ⟨_, member, kind, register, whole, rfl⟩

/-- The entry is stored behind other code. -/
theorem LeavesEntry.behind
    (falls : FallsThrough first)
    (fallsBehind : FallsThrough second)
    (leaves : LeavesEntry field allowed second) :
    LeavesEntry field allowed (first ++ second) where
  stores := leaves.stores.right
  leaves {runtime env state after} keeps outside exits := by
    obtain ⟨visited, traces⟩ := exits.traces
    obtain ⟨middle, front, back, -, further, -⟩ :=
      traces.split (falls.avoids _ _ _) fallsBehind.jumpsInside
    exact @LeavesEntry.leaves _ _ _ leaves runtime (env.shift first.length) _ _
      keeps (outside.mono fun _ => List.mem_append_right _) further.exits

/-- The entry stays where it is in the code behind. -/
theorem LeavesEntry.front
    (leaves : LeavesEntry field allowed first)
    (falls : FallsThrough first)
    (fallsBehind : FallsThrough second)
    (spares : SparesField field second) :
    LeavesEntry field allowed (first ++ second) where
  stores := leaves.stores.left
  leaves {runtime env state after} keeps outside exits := by
    obtain ⟨visited, traces⟩ := exits.traces
    obtain ⟨middle, front, back, here, further, -⟩ :=
      traces.split (falls.avoids _ _ _) fallsBehind.jumpsInside
    obtain ⟨entry, isAllowed, stored⟩ := leaves.leaves keeps
      (outside.mono fun _ => List.mem_append_left _) here.exits
    have stays := @JumpTable.dispatch_staysOutside runtime field keeps
      (env.shift first.length) second
      (outside.mono fun _ => List.mem_append_right _)
    have same := further.exits.same field.region_wellPlaced stays spares rfl
    exact ⟨entry, isAllowed, (Field.read_eq_of_same same).trans stored⟩

/-- Straight code is known from what it does. -/
theorem LeavesEntry.of_straight
    (straight : ∀ inst ∈ code, inst.isStraight = true)
    (stores : StoresWhole field code)
    (leaves : ∀ pc state, ∃ entry : JumpTable.Entry, allowed entry ∧
      fields (applyAll pc state code) field = entry.offset.setWidth 64) :
    LeavesEntry field allowed code where
  stores := stores
  leaves _ _ exits := by
    rw [exits.eq_applyAll straight]
    exact leaves _ _

end Code

/-! ## Code that renews a flag -/

/-- Code that stores what decides a flag: all of its fields, or a routine with
the values that it looks at. -/
inductive Renewing (flag : Flag) (code : List Inst) : Prop where
  | all
      (stores : ∀ field ∈ evaluatedFields flag, StoresWhole field code)
  | unary
      {slots : Slots}
      (found : slots? flag = some slots)
      (leaves : LeavesEntry slots.operation JumpTable.Entry.Unary code)
      (stores : StoresWhole slots.first code)
  | constant
      {slots : Slots}
      (found : slots? flag = some slots)
      (leaves : LeavesEntry slots.operation JumpTable.Entry.Constant code)

section Renewing

variable {flag : Flag} {slots : Slots} {first second code : List Inst}

/-- A flag that is evaluated by a routine has three fields that matter. -/
theorem renewing_of_slots
    (found : slots? flag = some slots)
    (operation : StoresWhole slots.operation code)
    (first : StoresWhole slots.first code)
    (second : StoresWhole slots.second code) :
    Renewing flag code := by
  refine .all fun field member => ?_
  have each : evaluatedFields flag =
      [slots.operation, slots.first, slots.second] := by
    cases flag <;> cases found <;> rfl
  rw [each] at member
  simp only [List.mem_cons, List.not_mem_nil, or_false] at member
  rcases member with rfl | rfl | rfl
  · exact operation
  · exact first
  · exact second

theorem slots_flag (found : slots? flag = some slots) :
    slots.operation.flag = flag := by
  cases flag <;> cases found <;> rfl

theorem Renewing.behind
    (falls : FallsThrough (first ++ second))
    (renewing : Renewing flag second) :
    Renewing flag (first ++ second) := by
  obtain ⟨fallsFirst, fallsSecond⟩ := FallsThrough.append_iff.mp falls
  cases renewing with
  | all stores => exact .all fun field member => (stores field member).right
  | unary found leaves stores =>
      exact .unary found (leaves.behind fallsFirst fallsSecond) stores.right
  | constant found leaves =>
      exact .constant found (leaves.behind fallsFirst fallsSecond)

theorem Renewing.front
    (falls : FallsThrough (first ++ second))
    (renewing : Renewing flag first)
    (spares : ∀ field : Field, field.flag = flag ->
      SparesField field second) :
    Renewing flag (first ++ second) := by
  obtain ⟨fallsFirst, fallsSecond⟩ := FallsThrough.append_iff.mp falls
  cases renewing with
  | all stores => exact .all fun field member => (stores field member).left
  | unary found leaves stores =>
      exact .unary found (leaves.front fallsFirst fallsSecond
        (spares _ (slots_flag found))) stores.left
  | constant found leaves =>
      exact .constant found (leaves.front fallsFirst fallsSecond
        (spares _ (slots_flag found)))

end Renewing

/-- A run to the end of such code decides the flag. -/
theorem Renewing.decides
    {flag : Flag}
    {code : List Inst}
    (renewing : Renewing flag code)
    (falls : FallsThrough code)
    {runtime : Runtime}
    (keeps : ∀ field, RuntimeKeeps runtime field)
    {env : Environment}
    (outside : ∀ field : Field, env.StoresOutside field.region code)
    {state after : State}
    {visited : List (Inst × State)}
    (traces : (JumpTable.dispatch runtime env).Traces code state visited
      (.ended after)) :
    Decides visited after flag := by
  have stored {field : Field} (stores : StoresWhole field code) :
      ∃ visit ∈ visited, field.IsStoredBy visit.1 := by
    obtain ⟨inst, member, isStored⟩ := stores
    obtain ⟨before, visit⟩ := traces.visits falls member
    exact ⟨_, visit, isStored⟩
  cases renewing with
  | all stores =>
      exact decides_of_evaluatedFields fun field member =>
        stored (stores field member)
  | unary found leaves stores =>
      obtain ⟨entry, unary, contents⟩ :=
        leaves.leaves (keeps _) (outside _) traces.exits
      exact fun _ same _ => EvaluatedFlag.congr_unary found unary contents
        (same _ (stored leaves.stores)) (same _ (stored stores))
  | constant found leaves =>
      obtain ⟨entry, constant, contents⟩ :=
        leaves.leaves (keeps _) (outside _) traces.exits
      exact fun _ same _ => EvaluatedFlag.congr_constant found constant
        contents (same _ (stored leaves.stores))

/-! ## Updates -/

namespace Instruction

section Updates

variable (inst : Instruction) {slots : Slots}
variable {operationFields : OperationFields}

/-- The code of an update of a flag in the update set. -/
theorem updating_of_mem
    {flag : Flag}
    (member : flag ∈ inst.updateFlags)
    (code : List Inst) :
    inst.updating flag code = code :=
  if_pos member

/-- The updates for a result store all fields of its flags. -/
theorem resultUpdates_stores
    {flag : Flag}
    (member : flag ∈ inst.updateFlags)
    (notOperation : slots? flag = none)
    (va : Register)
    (size : Fadec.OperandSize)
    (temp : Register) :
    ∀ field ∈ evaluatedFields flag,
      StoresWhole field (inst.resultUpdates va size temp) := by
  intro field inside
  cases flag with
  | zero =>
      obtain rfl := List.mem_singleton.mp inside
      refine StoresWhole.left (StoresWhole.left ?_)
      unfold updateZero
      rw [updating_of_mem inst member]
      cases size <;>
        exact @storesWhole_of_mem .zeroValue _ .sd _ rfl List.mem_cons_self
  | sign =>
      refine StoresWhole.left (StoresWhole.right ?_)
      rw [updateSign, updating_of_mem inst member]
      rcases List.mem_pair.mp inside with rfl | rfl
      · exact @storesWhole_of_mem .signValue _ .sd va rfl List.mem_cons_self
      · exact @storesWhole_of_mem .signSize _ .sb temp rfl (by simp [sb_eq,
          Field.offset])
  | parity =>
      obtain rfl := List.mem_singleton.mp inside
      refine StoresWhole.right ?_
      rw [updateParity, updating_of_mem inst member]
      exact @storesWhole_of_mem .parityValue _ .sb va rfl List.mem_cons_self
  | carry | overflow => cases notOperation

theorem storeEntry_stores
    (describes : slots.Describes operationFields)
    (entry : JumpTable.Entry)
    (temp : Register) :
    StoresWhole slots.operation (operationFields.storeEntry entry temp) := by
  refine @storesWhole_of_mem slots.operation _ .sh temp
    describes.operationBytes.symm ?_
  rw [OperationFields.storeEntry, describes.operation]
  simp [sh_eq]

section Operation

variable (describes : slots.Describes operationFields)
variable (member : operationFields.flag ∈ inst.updateFlags)

include describes member

theorem updateOperation_stores_operation
    (entry : JumpTable.Entry)
    (va vb : Option Register)
    (temp : Register) :
    StoresWhole slots.operation
      (inst.updateOperation operationFields (some entry) va vb temp) := by
  unfold updateOperation
  rw [updating_of_mem inst member]
  exact (storeEntry_stores describes entry temp).left.left

theorem updateOperation_stores_first
    (entry : Option JumpTable.Entry)
    (va : Register)
    (vb : Option Register)
    (temp : Register) :
    StoresWhole slots.first
      (inst.updateOperation operationFields entry (some va) vb temp) := by
  unfold updateOperation
  rw [updating_of_mem inst member]
  refine StoresWhole.left (StoresWhole.right ?_)
  refine @storesWhole_of_mem slots.first _ .sd va describes.firstBytes.symm ?_
  simp [OperationFields.storeValue, describes.first, sd_eq]

theorem updateOperation_stores_second
    (entry : Option JumpTable.Entry)
    (va : Option Register)
    (vb temp : Register) :
    StoresWhole slots.second
      (inst.updateOperation operationFields entry va (some vb) temp) := by
  unfold updateOperation
  rw [updating_of_mem inst member]
  refine StoresWhole.right ?_
  refine @storesWhole_of_mem slots.second _ .sd vb
    describes.secondBytes.symm ?_
  have second : operationFields.values + 8 * 1 = slots.second.offset := by
    simpa using describes.second
  rw [OperationFields.storeValue, second]
  exact List.mem_cons_self

end Operation

/-- An entry in a register is stored with its values. -/
theorem storeRegister_stores
    (describes : slots.Describes operationFields)
    (entry va vb : Register) :
    ∀ field ∈ [slots.operation, slots.first, slots.second],
      StoresWhole field (operationFields.storeRegister entry va vb) := by
  intro field member
  rw [OperationFields.storeRegister, describes.second, describes.first,
    describes.operation]
  simp only [List.mem_cons, List.not_mem_nil, or_false] at member
  rcases member with rfl | rfl | rfl
  · exact @storesWhole_of_mem _ _ .sh entry describes.operationBytes.symm
      (by simp [sh_eq])
  · exact @storesWhole_of_mem _ _ .sd va describes.firstBytes.symm
      List.mem_cons_self
  · exact @storesWhole_of_mem _ _ .sd vb describes.secondBytes.symm
      (by simp [sd_eq])

/-! ## Entries that are left -/

section Entries

variable (describes : slots.Describes operationFields)
variable {allowed : JumpTable.Entry -> Prop} {entry : JumpTable.Entry}
variable (isAllowed : allowed entry)
variable {temp : Register} (scratch : Scratch temp)

include describes isAllowed scratch

theorem storeEntry_leaves :
    LeavesEntry slots.operation allowed
      (operationFields.storeEntry entry temp) := by
  refine .of_straight (storeEntry_updates describes entry temp).straight
    (storeEntry_stores describes entry temp) fun pc state =>
      ⟨entry, isAllowed, ?_⟩
  rw [storeEntry_fields pc state describes entry scratch,
    Function.update_self]

/-- The values are stored behind the entry. -/
theorem updateOperation_leaves
    (member : operationFields.flag ∈ inst.updateFlags)
    (va vb : Option Register) :
    LeavesEntry slots.operation allowed
      (inst.updateOperation operationFields (some entry) va vb temp) := by
  have other {field : Field} (long : field.bytes = 8) :
      field ≠ slots.operation := by
    rintro rfl
    have short := describes.operationBytes
    omega
  unfold updateOperation
  rw [updating_of_mem inst member, List.append_assoc]
  refine (storeEntry_leaves describes isAllowed scratch).front
    (.of_straight (storeEntry_updates describes entry temp).straight) ?_
    (storeValues_spares describes (other describes.firstBytes)
      (other describes.secondBytes) va vb)
  rw [FallsThrough.append_iff]
  constructor
  · exact .of_straight (storeValue_updates (by simpa using describes.first)
      describes.firstBytes va).straight
  · exact .of_straight (storeValue_updates (by simpa using describes.second)
      describes.secondBytes vb).straight

/-- The name of the instruction is stored behind the entry. -/
theorem updateUnsupported_leaves
    (member : operationFields.flag ∈ inst.updateFlags)
    (free : Free temp)
    {pointer : Field}
    (isPointer : operationFields.pointer = pointer.offset)
    (long : pointer.bytes = 8)
    (name : BitVec 64) :
    LeavesEntry slots.operation allowed
      (inst.updateUnsupported operationFields entry name temp) := by
  have other : pointer ≠ slots.operation := by
    rintro rfl
    have short := describes.operationBytes
    omega
  have computes := loadImmediate_computesInto name temp
  have stored := @spares_store_field slots.operation temp .sd pointer
    (by rw [long]; decide) other
  unfold updateUnsupported
  rw [updating_of_mem inst member, List.append_assoc, isPointer]
  refine (storeEntry_leaves describes isAllowed scratch).front
    (.of_straight (storeEntry_updates describes entry temp).straight) ?_
    (Spares.append_iff.mpr ⟨SparesField.computes computes (by simpa),
      Spares.cons_iff.mpr ⟨stored, Spares.nil⟩⟩)
  exact FallsThrough.append_iff.mpr
    ⟨.of_straight computes.straight,
      by simp [Inst.directOffset, Encoding.store, sd_eq]⟩

end Entries

/-! ## Updates that renew a flag -/

section Renewing

variable (describes : slots.Describes operationFields)
variable (found : slots? operationFields.flag = some slots)
variable (member : operationFields.flag ∈ inst.updateFlags)
variable {entry : JumpTable.Entry} {temp : Register}

include describes found member

theorem updateOperation_renewing
    (entry : JumpTable.Entry)
    (va vb temp : Register) :
    Renewing operationFields.flag
      (inst.updateOperation operationFields (some entry) (some va) (some vb)
        temp) :=
  renewing_of_slots found
    (updateOperation_stores_operation inst describes member entry _ _ temp)
    (updateOperation_stores_first inst describes member _ va _ temp)
    (updateOperation_stores_second inst describes member _ _ vb temp)

theorem updateOperation_renewing_unary
    (scratch : Scratch temp)
    (unary : entry.Unary)
    (va : Register) :
    Renewing operationFields.flag
      (inst.updateOperation operationFields (some entry) (some va) none
        temp) :=
  .unary found
    (updateOperation_leaves inst describes unary scratch member _ _)
    (updateOperation_stores_first inst describes member _ va _ temp)

theorem updateOperation_renewing_constant
    (scratch : Scratch temp)
    (constant : entry.Constant) :
    Renewing operationFields.flag
      (inst.updateOperation operationFields (some entry) none none temp) :=
  .constant found
    (updateOperation_leaves inst describes constant scratch member _ _)

end Renewing

section Flags

variable (set : Bool) (name : BitVec 64) {temp : Register}
variable (scratch : Scratch temp)

include scratch

theorem setCarry_renewing (member : .carry ∈ inst.updateFlags) :
    Renewing .carry (inst.setCarry set temp) := by
  rw [setCarry_eq]
  refine updateOperation_renewing_constant inst carrySlots_describes rfl
    member scratch fun _ _ _ _ => ?_
  cases set <;> exact ⟨rfl, rfl⟩

theorem setOverflow_renewing (member : .overflow ∈ inst.updateFlags) :
    Renewing .overflow (inst.setOverflow set temp) := by
  rw [setOverflow_eq]
  refine updateOperation_renewing_constant inst overflowSlots_describes rfl
    member scratch fun _ _ _ _ => ?_
  cases set <;> exact ⟨rfl, rfl⟩

variable (free : Free temp)

include free

theorem updateCarryUnsupported_renewing
    (member : .carry ∈ inst.updateFlags) :
    Renewing .carry (inst.updateCarryUnsupported name temp) :=
  .constant rfl (@updateUnsupported_leaves inst _ _ carrySlots_describes _ _
    (fun _ _ _ _ => ⟨rfl, rfl⟩) _ scratch member free .carryPtr rfl rfl name)

theorem updateOverflowUnsupported_renewing
    (member : .overflow ∈ inst.updateFlags) :
    Renewing .overflow (inst.updateOverflowUnsupported name temp) :=
  .constant rfl (@updateUnsupported_leaves inst _ _ overflowSlots_describes _ _
    (fun _ _ _ _ => ⟨rfl, rfl⟩) _ scratch member free .overflowPtr rfl rfl
      name)

end Flags

end Updates

end Instruction
end Oxtra

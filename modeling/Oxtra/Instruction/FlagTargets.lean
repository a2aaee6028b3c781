import Oxtra.ExecutionContext
import Oxtra.Instruction.FieldSparing

/-!
# Where flags are evaluated

The stored offsets for the carry and the overflow flag are those of routines for
the flag, and no function of the runtime is stored.  The parts of the code that
store them keep this, also between their instructions.
-/

namespace Oxtra

open RiscV
open Encoding
open Helper
open FlagInfo
open Instruction (apply_store_field)
open JumpTable (Runtime RuntimeKeeps)
open Fadec (OperandSize)

/-! ## The fields -/

namespace FlagInfo.Field

/-- The field says where a flag is evaluated, or which bit is the sign. -/
def targets : Field -> Bool
  | carryOperation | overflowOperation | signSize => true
  | _ => false

end FlagInfo.Field

/-- The flags are evaluated by routines for them, or they are not supported.
The place of the sign is the last bit of some operand, or it is zero as at the
start. -/
structure WellTargeted (state : State) : Prop where
  aligned : TableAligned state
  carry : ∃ entry : JumpTable.Entry, entry.IsCarry ∧
    entry ≠ .highLevelCarry ∧
    fields state .carryOperation = entry.offset.setWidth 64
  overflow : ∃ entry : JumpTable.Entry, entry.IsOverflow ∧
    entry ≠ .highLevelOverflow ∧
    fields state .overflowOperation = entry.offset.setWidth 64
  signSize : (fields state .signSize).toNat ∈ [0, 7, 15, 31, 63]

/-- The bytes of the context, with the registers for the context and for the
jump table. -/
def contextRegion : Region where
  kept := [jumpTableAddress, contextAddress]
  base := contextAddress
  offset := 0
  bytes := ExecutionContext.size

/-- The routines of the runtime keep the lazy information, if they come back.
Those for unsupported flags end the program. -/
structure KeepsLazy (runtime : Runtime) : Prop where
  keeps : ∀ field, RuntimeKeeps runtime field
  unsupportedCarry : ∀ state, runtime .unsupportedCarry state = none
  unsupportedOverflow : ∀ state, runtime .unsupportedOverflow state = none

section States

variable {state after : State}

theorem WellTargeted.of_same
    (targeted : WellTargeted state)
    (same : ∀ field : Field, field.targets = true ->
      field.region.Same state after) :
    WellTargeted after := by
  have reads (field : Field) (targets : field.targets = true) :
      fields after field = fields state field :=
    Field.read_eq_of_same (same field targets)
  have table := (same .signSize rfl).registers jumpTableAddress
    (by simp [Field.region])
  refine ⟨?_, ?_, ?_, ?_⟩
  · rw [TableAligned, table]
    exact targeted.aligned
  · rw [reads _ rfl]
    exact targeted.carry
  · rw [reads _ rfl]
    exact targeted.overflow
  · rw [reads _ rfl]
    exact targeted.signSize

theorem WellTargeted.of_fields
    (targeted : WellTargeted state)
    (table : after.get jumpTableAddress = state.get jumpTableAddress)
    (same : fields after = fields state) :
    WellTargeted after := by
  refine ⟨?_, ?_, ?_, ?_⟩
  · rw [TableAligned, table]
    exact targeted.aligned
  all_goals rw [same]
  · exact targeted.carry
  · exact targeted.overflow
  · exact targeted.signSize

theorem WellTargeted.set
    (targeted : WellTargeted state)
    {register : Register}
    (free : Free register)
    (value : Word) :
    WellTargeted (state.set register value) :=
  targeted.of_fields (State.set_get_of_ne _ _ free.1.symm)
    (fields_set state free.2 value)

/-- A store to a field that does not matter. -/
theorem WellTargeted.storeOther
    (targeted : WellTargeted state)
    {field : Field}
    (other : field.targets = false)
    (value : Word) :
    WellTargeted (state.store (field.address state) field.bytes value) := by
  have reads (kept : Field) (targets : kept.targets = true) :
      fields (state.store (field.address state) field.bytes value) kept =
        fields state kept := by
    rw [fields_store, Function.update_of_ne]
    rintro rfl
    rw [targets] at other
    cases other
  refine ⟨targeted.aligned, ?_, ?_, ?_⟩
  · rw [reads _ rfl]
    exact targeted.carry
  · rw [reads _ rfl]
    exact targeted.overflow
  · rw [reads _ rfl]
    exact targeted.signSize

/-- The offset of an entry goes to a field of two bytes. -/
theorem lowBytes_offset (entry : JumpTable.Entry) :
    lowBytes 2 (entry.offset.setWidth 64) = entry.offset.setWidth 64 := by
  apply BitVec.eq_of_toNat_eq
  rw [lowBytes_toNat, BitVec.toNat_setWidth_of_le (by decide)]
  exact Nat.mod_eq_of_lt entry.offset.isLt

theorem WellTargeted.storeCarry
    (targeted : WellTargeted state)
    {entry : JumpTable.Entry}
    (isCarry : entry.IsCarry)
    (notHighLevel : entry ≠ .highLevelCarry) :
    WellTargeted (state.store (Field.carryOperation.address state) 2
      (entry.offset.setWidth 64)) := by
  have stored := fields_store .carryOperation state (entry.offset.setWidth 64)
  simp only [Field.bytes, lowBytes_offset] at stored
  refine ⟨targeted.aligned, ⟨entry, isCarry, notHighLevel, ?_⟩, ?_, ?_⟩
  · rw [stored, Function.update_self]
  · rw [stored, Function.update_of_ne (by decide)]
    exact targeted.overflow
  · rw [stored, Function.update_of_ne (by decide)]
    exact targeted.signSize

theorem WellTargeted.storeOverflow
    (targeted : WellTargeted state)
    {entry : JumpTable.Entry}
    (isOverflow : entry.IsOverflow)
    (notHighLevel : entry ≠ .highLevelOverflow) :
    WellTargeted (state.store (Field.overflowOperation.address state) 2
      (entry.offset.setWidth 64)) := by
  have stored :=
    fields_store .overflowOperation state (entry.offset.setWidth 64)
  simp only [Field.bytes, lowBytes_offset] at stored
  refine ⟨targeted.aligned, ?_, ⟨entry, isOverflow, notHighLevel, ?_⟩, ?_⟩
  · rw [stored, Function.update_of_ne (by decide)]
    exact targeted.carry
  · rw [stored, Function.update_self]
  · rw [stored, Function.update_of_ne (by decide)]
    exact targeted.signSize

theorem WellTargeted.storeSignSize
    (targeted : WellTargeted state)
    (size : OperandSize) :
    WellTargeted (state.store (Field.signSize.address state) 1
      (BitVec.ofNat 64 (size.bits - 1))) := by
  have stored :=
    fields_store .signSize state (BitVec.ofNat 64 (size.bits - 1))
  simp only [Field.bytes] at stored
  refine ⟨targeted.aligned, ?_, ?_, ?_⟩
  · rw [stored, Function.update_of_ne (by decide)]
    exact targeted.carry
  · rw [stored, Function.update_of_ne (by decide)]
    exact targeted.overflow
  · rw [stored, Function.update_self]
    cases size <;> decide

end States

/-! ## Code -/

/-- The stores to the memory of the guest are beside a field if they are beside
the context. -/
theorem storesOutside_field
    {env : Environment}
    {code : List Inst}
    (outside : env.StoresOutside contextRegion code)
    (field : Field) :
    env.StoresOutside field.region code := by
  intro kind rs1 rs2 imm state member notBase permitted index inside
  have limit := (Field.offset_lt field).2
  have beside := outside kind rs1 rs2 imm state member notBase permitted
    (field.offset.toNat + index) (by
      simp only [contextRegion, ExecutionContext.size, Field.limit] at *
      have bytes : index < field.bytes := inside
      omega)
  have pointer : contextRegion.pointer state (field.offset.toNat + index) =
      field.region.pointer state index := by
    rw [Region.pointer, Region.pointer, contextRegion, Nat.zero_add]
    rfl
  rwa [pointer] at beside

/-- Code that goes from one instruction to the next, and in front of each of
them the flags are evaluated where they should be. -/
structure KeepsTargets (code : List Inst) : Prop where
  falls : FallsThrough code
  asserts : ∀ {runtime : Runtime} {env : Environment} {state : State},
    KeepsLazy runtime -> env.StoresOutside contextRegion code ->
      WellTargeted state ->
        (JumpTable.dispatch runtime env).Asserts WellTargeted code
          WellTargeted state

/-- The code does not store the fields that matter. -/
abbrev SparesTargets (code : List Inst) : Prop :=
  ∀ field : Field, field.targets = true -> SparesField field code

section Code

variable {first second code : List Inst}

/-- An instruction that spares the fields. -/
theorem WellTargeted.behind
    {runtime : Runtime}
    (keeps : KeepsLazy runtime)
    {env : Environment}
    (outside : env.StoresOutside contextRegion code)
    {inst : Inst}
    (member : inst ∈ code)
    (spares : ∀ field : Field, field.targets = true ->
      inst.spares field.region = true)
    {state : State}
    (targeted : WellTargeted state)
    (permitted : env.permits inst state = true) :
    (JumpTable.dispatch runtime env).Behind WellTargeted WellTargeted inst
      state := by
  have same := Environment.behind_forall fun field (isTarget : _ = true) =>
    inst.behind_same field.region_wellPlaced
      (JumpTable.dispatch_staysOutside (keeps.keeps field)
        (storesOutside_field outside field))
      member (spares field isTarget) (Region.Same.refl field.region state)
      permitted
  exact same.mono (fun _ kept => targeted.of_same kept)
    fun _ kept => targeted.of_same kept

theorem KeepsTargets.of_spares
    (falls : FallsThrough code)
    (spares : SparesTargets code) :
    KeepsTargets code where
  falls := falls
  asserts keeps outside targeted :=
    Environment.asserts_of_behind (fun inst member _ held permitted =>
      WellTargeted.behind keeps outside member
        (fun field isTarget => spares field isTarget inst member) held
        permitted) targeted

theorem KeepsTargets.nil : KeepsTargets [] where
  falls := FallsThrough.nil
  asserts _ _ targeted := targeted

theorem KeepsTargets.append
    (keepsFirst : KeepsTargets first)
    (keepsSecond : KeepsTargets second) :
    KeepsTargets (first ++ second) where
  falls := FallsThrough.append_iff.mpr ⟨keepsFirst.falls, keepsSecond.falls⟩
  asserts keeps outside targeted :=
    ((keepsFirst.asserts keeps
      (outside.mono fun _ => List.mem_append_left _) targeted).imp
        fun _ held => keepsSecond.asserts keeps
          (outside.mono fun _ => List.mem_append_right _) held).append

theorem KeepsTargets.of_computesInto
    {registers : List Register}
    (computes : ComputesInto registers code)
    (free : ∀ register ∈ registers, Free register) :
    KeepsTargets code :=
  .of_spares (.of_straight computes.straight) fun _ _ =>
    SparesField.computes computes free

/-- The flags are evaluated where they should be in every state of every run of
the code. -/
def StaysTargeted (code : List Inst) : Prop :=
  ∀ (runtime : Runtime) (env : Environment) (steps : Nat) (state after : State),
    KeepsLazy runtime -> env.StoresOutside contextRegion code ->
      WellTargeted state ->
        ((JumpTable.dispatch runtime env).run code steps 0 state).state? =
          some after ->
        WellTargeted after

/-- Code with jumps that spares the fields, in front of code that does not jump
and keeps where flags are evaluated. -/
theorem StaysTargeted.of_append
    (spares : SparesTargets first)
    (avoid : avoids first.length second.length 0 first = true)
    (keepsSecond : KeepsTargets second) :
    StaysTargeted (first ++ second) := by
  intro runtime env steps state after keeps outside targeted runs
  refine Environment.invariant_of_run (fun inst member between held permitted =>
    WellTargeted.behind keeps outside (List.mem_append_left _ member)
      (fun field isTarget => spares field isTarget inst member) held permitted)
    avoid keepsSecond.falls (fun between held => ?_) targeted
    (Or.inl (Nat.zero_le _)) runs
  exact keepsSecond.asserts keeps
    (outside.mono fun _ => List.mem_append_right _) held

theorem StaysTargeted.of_spares (spares : SparesTargets code) :
    StaysTargeted code := by
  rw [← List.append_nil code]
  exact StaysTargeted.of_append spares (avoids_zero _ _ _) KeepsTargets.nil

theorem KeepsTargets.staysTargeted (keeps : KeepsTargets code) :
    StaysTargeted code :=
  @StaysTargeted.of_append [] code (fun _ _ => Spares.nil) rfl keeps

end Code

/-! ## Updates of the carry and the overflow flag -/

section Updates

variable (inst : Instruction)

attribute [local simp] addi opImm sd Encoding.sh Encoding.store

/-- A store to a field that does not matter. -/
theorem keepsTargets_store
    {kind : Store}
    {field : Field}
    (bound : kind.width.bytes ≤ field.bytes)
    (other : field.targets = false)
    (value : Register) :
    KeepsTargets [Encoding.store kind contextAddress value field.offset] := by
  refine .of_spares (by simp [Inst.directOffset]) fun kept isTarget => ?_
  have different : field ≠ kept := by
    rintro rfl
    rw [isTarget] at other
    cases other
  exact Spares.cons_iff.mpr
    ⟨spares_store_field value bound different, Spares.nil⟩

theorem keepsTargets_updating
    {flag : Flag}
    {code : List Inst}
    (keeps : KeepsTargets code) :
    KeepsTargets (inst.updating flag code) := by
  unfold Instruction.updating
  split
  · exact keeps
  · exact KeepsTargets.nil

/-- Load the offset of an entry. -/
theorem apply_addi_offset
    (pc : Word)
    (state : State)
    (temp : Register)
    (entry : JumpTable.Entry) :
    (addi temp .zero entry.offset).apply pc state =
      state.set temp (entry.offset.setWidth 64) := by
  have offset : (0 : Word) + signedImm entry.offset =
      entry.offset.setWidth 64 := by
    cases entry <;> first
      | decide
      | (rename_i width; cases width <;> decide)
  rw [apply_addi, State.get_zero, offset]

/-- The offset that is stored is loaded in front of the store. -/
theorem keepsTargets_storeEntry
    {operationFields : Instruction.OperationFields}
    {field : Field}
    (isField : operationFields.operation = field.offset)
    {entry : JumpTable.Entry}
    (stores : ∀ state, WellTargeted state ->
      WellTargeted (state.store (field.address state) 2
        (entry.offset.setWidth 64)))
    {temp : Register}
    (free : Free temp)
    (nonzero : temp ≠ .zero) :
    KeepsTargets (operationFields.storeEntry entry temp) where
  falls := by simp [Instruction.OperationFields.storeEntry, Inst.directOffset]
  asserts _ _ targeted := by
    refine Environment.asserts_straight rfl targeted fun index _ => ?_
    rw [apply_addi_offset, isField]
    have loaded := targeted.set free (entry.offset.setWidth 64)
    refine Environment.asserts_straight rfl loaded fun index _ => ?_
    rw [Environment.asserts_nil]
    change WellTargeted ((Encoding.store .sh contextAddress temp
      field.offset).apply _ _)
    rw [apply_store_field, State.set_get_self _ _ nonzero]
    exact stores _ loaded

/-- A field that is stored whole. -/
theorem keepsTargets_storeValues
    {slots : Instruction.Slots}
    {operationFields : Instruction.OperationFields}
    (describes : slots.Describes operationFields)
    (first : slots.first.targets = false)
    (second : slots.second.targets = false)
    (va vb : Option Register) :
    KeepsTargets (operationFields.storeValue 0 va ++
      operationFields.storeValue 1 vb) := by
  have apart {field : Field} (other : field.targets = false) (kept : Field)
      (isTarget : kept.targets = true) : field ≠ kept := by
    rintro rfl
    rw [isTarget] at other
    cases other
  refine .of_spares ?_ fun kept isTarget =>
    storeValues_spares describes (apart first kept isTarget)
      (apart second kept isTarget) va vb
  cases va <;> cases vb <;>
    simp [Instruction.OperationFields.storeValue, Inst.directOffset]

/-- The name of the instruction goes to a field of its own. -/
theorem storeName_keepsTargets
    {temp : Register}
    (free : Free temp)
    (field : Field)
    (long : field.bytes = 8)
    (other : field.targets = false)
    (name : BitVec 64) :
    KeepsTargets (loadImmediate name temp ++
      [Encoding.store .sd contextAddress temp field.offset]) := by
  refine (KeepsTargets.of_computesInto (loadImmediate_computesInto _ _)
    (by simpa)).append (keepsTargets_store ?_ other temp)
  rw [long]
  decide

section Flags

variable {temp : Register} (free : Free temp) (nonzero : temp ≠ .zero)

include free nonzero

theorem storeCarryEntry_keepsTargets
    {entry : JumpTable.Entry}
    (isCarry : entry.IsCarry)
    (notHighLevel : entry ≠ .highLevelCarry) :
    KeepsTargets (Instruction.carryFields.storeEntry entry temp) :=
  keepsTargets_storeEntry rfl
    (fun _ targeted => targeted.storeCarry isCarry notHighLevel) free nonzero

theorem storeOverflowEntry_keepsTargets
    {entry : JumpTable.Entry}
    (isOverflow : entry.IsOverflow)
    (notHighLevel : entry ≠ .highLevelOverflow) :
    KeepsTargets (Instruction.overflowFields.storeEntry entry temp) :=
  keepsTargets_storeEntry rfl
    (fun _ targeted => targeted.storeOverflow isOverflow notHighLevel) free
    nonzero

theorem updateCarry_keepsTargets
    {entry : JumpTable.Entry}
    (isCarry : entry.IsCarry)
    (notHighLevel : entry ≠ .highLevelCarry)
    (va vb : Option Register) :
    KeepsTargets (inst.updateCarry (some entry) va vb temp) := by
  refine keepsTargets_updating inst ?_
  rw [List.append_assoc]
  exact (storeCarryEntry_keepsTargets free nonzero isCarry notHighLevel).append
    (keepsTargets_storeValues Instruction.carrySlots_describes rfl rfl va vb)

theorem updateOverflow_keepsTargets
    {entry : JumpTable.Entry}
    (isOverflow : entry.IsOverflow)
    (notHighLevel : entry ≠ .highLevelOverflow)
    (va vb : Option Register) :
    KeepsTargets (inst.updateOverflow (some entry) va vb temp) := by
  refine keepsTargets_updating inst ?_
  rw [List.append_assoc]
  exact (storeOverflowEntry_keepsTargets free nonzero isOverflow
    notHighLevel).append
      (keepsTargets_storeValues Instruction.overflowSlots_describes rfl rfl va
        vb)

theorem setCarry_keepsTargets (set : Bool) :
    KeepsTargets (inst.setCarry set temp) := by
  refine keepsTargets_updating inst
    (storeCarryEntry_keepsTargets free nonzero ?_ ?_) <;> cases set <;>
    first | exact trivial | decide

theorem setOverflow_keepsTargets (set : Bool) :
    KeepsTargets (inst.setOverflow set temp) := by
  refine keepsTargets_updating inst
    (storeOverflowEntry_keepsTargets free nonzero ?_ ?_) <;> cases set <;>
    first | exact trivial | decide

theorem updateCarryUnsupported_keepsTargets (name : BitVec 64) :
    KeepsTargets (inst.updateCarryUnsupported name temp) := by
  refine keepsTargets_updating inst ?_
  rw [List.append_assoc]
  exact (storeCarryEntry_keepsTargets free nonzero (by exact trivial)
    (by decide)).append (storeName_keepsTargets free .carryPtr rfl rfl name)

theorem updateOverflowUnsupported_keepsTargets (name : BitVec 64) :
    KeepsTargets (inst.updateOverflowUnsupported name temp) := by
  refine keepsTargets_updating inst ?_
  rw [List.append_assoc]
  exact (storeOverflowEntry_keepsTargets free nonzero (by exact trivial)
    (by decide)).append (storeName_keepsTargets free .overflowPtr rfl rfl name)

end Flags

/-- Only the values of a flag are stored. -/
theorem updateCarryValues_keepsTargets (va vb : Option Register) :
    KeepsTargets (inst.updateCarry none va vb .zero) :=
  keepsTargets_updating inst (by
    simpa using keepsTargets_storeValues Instruction.carrySlots_describes rfl
      rfl va vb)

theorem updateOverflowValues_keepsTargets (va vb : Option Register) :
    KeepsTargets (inst.updateOverflow none va vb .zero) :=
  keepsTargets_updating inst (by
    simpa using keepsTargets_storeValues Instruction.overflowSlots_describes
      rfl rfl va vb)

/-! ## Updates of the other flags -/

theorem updateZero_keepsTargets (va : Register) (size : OperandSize) :
    KeepsTargets (inst.updateZero va size) := by
  refine keepsTargets_updating inst ?_
  have long (value : Register) :=
    @keepsTargets_store .sd .zeroValue (by decide) rfl value
  cases size with
  | qword => exact long va
  | dword =>
      exact (long .zero).append
        (@keepsTargets_store .sw .zeroValue (by decide) rfl va)
  | word =>
      exact (long .zero).append
        (@keepsTargets_store .sh .zeroValue (by decide) rfl va)
  | byte =>
      exact (long .zero).append
        (@keepsTargets_store .sb .zeroValue (by decide) rfl va)

theorem updateParity_keepsTargets (va : Register) :
    KeepsTargets (inst.updateParity va) :=
  keepsTargets_updating inst
    (@keepsTargets_store .sb .parityValue (by decide) rfl va)

theorem updateSign_keepsTargets
    (va : Register)
    (size : OperandSize)
    {temp : Register}
    (free : Free temp)
    (nonzero : temp ≠ .zero) :
    KeepsTargets (inst.updateSign va size temp) := by
  refine keepsTargets_updating inst
    ((@keepsTargets_store .sd .signValue (by decide) rfl va).append
      { falls := by simp [Inst.directOffset], asserts := ?_ })
  intro runtime env state _ _ targeted
  have loads (pc : Word) :
      (addi temp .zero (BitVec.ofNat 16 (size.bits - 1))).apply pc state =
        state.set temp (BitVec.ofNat 64 (size.bits - 1)) := by
    rw [apply_addi, State.get_zero]
    cases size <;> rfl
  refine Environment.asserts_straight rfl targeted fun index _ => ?_
  rw [loads]
  have loaded := targeted.set free (BitVec.ofNat 64 (size.bits - 1))
  refine Environment.asserts_straight rfl loaded fun index _ => ?_
  rw [Environment.asserts_nil]
  change WellTargeted ((Encoding.store .sb contextAddress temp
    (Field.offset .signSize)).apply _ _)
  rw [apply_store_field, State.set_get_self _ _ nonzero]
  exact loaded.storeSignSize size

end Updates

end Oxtra

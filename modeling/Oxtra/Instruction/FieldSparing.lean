import Oxtra.FlagEvaluation.Evaluation
import Oxtra.Instruction.Accesses
import Oxtra.Instruction.FlagEffects
import Oxtra.Instruction.OperandValues
import Oxtra.Library.RiscV.Sparing

/-!
# Code that spares a field

A field of the lazy information stays as it is unless some code stores to it.
The parts that the code of instructions is made of store to the fields of one
flag, or to the memory of the guest, or not at all.
-/

namespace Oxtra

open RiscV
open Encoding
open Helper
open FlagInfo
open Fadec (Operand OperandSize)

namespace FlagInfo.Field

/-- The flag that a field belongs to. -/
def flag : Field -> Flag
  | zeroValue => .zero
  | signValue | signSize => .sign
  | parityValue => .parity
  | overflowFirst | overflowSecond | overflowPtr | overflowOperation =>
      .overflow
  | carryFirst | carrySecond | carryPtr | carryOperation => .carry

/-- The bytes of a field in the context, with the registers for the context and
for the jump table. -/
def region (field : Field) : Region where
  kept := [jumpTableAddress, contextAddress]
  base := contextAddress
  offset := field.offset.toNat
  bytes := field.bytes

theorem region_wellPlaced (field : Field) : field.region.WellPlaced where
  bound := by
    have limit := (offset_lt field).2
    rw [Field.limit] at limit
    exact limit.trans (by decide)
  address := by simp [region]

/-- The contents of a field are the same if its bytes are. -/
theorem read_eq_of_same
    {field : Field}
    {before after : State}
    (same : field.region.Same before after) :
    field.read after = field.read before := by
  have address : field.address after = field.address before := by
    rw [Field.address, Field.address,
      same.registers contextAddress (by simp [region])]
  rw [read, read, address]
  apply Memory.load_congr
  intro index inside
  have pointer : field.region.pointer before index =
      field.address before + BitVec.ofNat 64 index := by
    have offset : field.offset.setWidth 64 =
        BitVec.ofNat 64 field.offset.toNat := by
      apply BitVec.eq_of_toNat_eq
      simp
    rw [Region.pointer, Field.address, offset, BitVec.add_assoc,
      ← BitVec.ofNat_add]
    rfl
  rw [← pointer]
  exact same.mem index inside

end FlagInfo.Field

/-! ## Calls -/

namespace JumpTable

/-- The code of a routine that evaluates a flag writes no register for the
context or the table, and does not store. -/
def Stub.evaluatesOnly (code : List Inst) : Bool :=
  code.all fun inst =>
    inst.keeps [jumpTableAddress, contextAddress] &&
      match inst with
      | .store .. => false
      | _ => true

/-- A routine that evaluates a flag does nothing else. -/
def Destination.evaluatesOnly : Destination -> Bool
  | .routine _ => true
  | .evaluator stub => Stub.evaluatesOnly stub.code

/-- No routine of the table that evaluates a flag does more. -/
theorem evaluators_evaluateOnly
    {stub : Stub}
    (evaluator : .evaluator stub ∈ tableAddress) :
    Stub.evaluatesOnly stub.code = true := by
  have each : tableAddress.all Destination.evaluatesOnly = true := by
    decide +kernel
  exact List.all_eq_true.mp each _ evaluator

/-- The routines of the runtime that come back leave a field as it is. -/
def RuntimeKeeps (runtime : Runtime) (field : Field) : Prop :=
  ∀ routine state returned, runtime routine state = some returned ->
    field.region.Same state returned

/-- A call of a routine that evaluates a flag leaves every field as it is. -/
theorem run_same_of_evaluatesOnly
    {stub : Stub}
    (evaluates : Stub.evaluatesOnly stub.code = true)
    (field : Field)
    {state returned : State}
    (runs : stub.run state = some returned) :
    field.region.Same state returned := by
  have each := List.all_eq_true.mp evaluates
  have spares : Spares field.region stub.code := by
    intro inst member
    obtain ⟨keeps, noStore⟩ := Bool.and_eq_true_iff.mp (each inst member)
    have beside : inst.storesBeside field.region = true := by
      cases inst <;> first | rfl | cases noStore
    rw [Inst.spares, beside, Bool.and_true]
    exact keeps
  have outside : Stub.environment.StaysOutside field.region stub.code := by
    refine ⟨fun kind rs1 rs2 imm state member => ?_, fun _ _ _ called => ?_⟩
    · have noStore := (Bool.and_eq_true_iff.mp (each _ member)).2
      cases noStore
    · cases called
  rw [Stub.run] at runs
  split at runs
  · rename_i target final exits
    split at runs
    · cases runs
      have reached : (Stub.environment.run stub.code stub.code.length
          stub.entry state).state? = some returned := by
        rw [exits]
        rfl
      exact run_same field.region_wellPlaced outside spares reached
    · cases runs
  · cases runs

/-- Calls into the table leave a field as it is, if those of the other routines
do. -/
theorem dispatch_staysOutside
    {runtime : Runtime}
    {field : Field}
    (keeps : RuntimeKeeps runtime field)
    {env : Environment}
    {code : List Inst}
    (stores : env.StoresOutside field.region code) :
    (dispatch runtime env).StaysOutside field.region code where
  stores := stores
  calls target state returned called := by
    change call runtime target state = some returned at called
    unfold call at called
    simp only at called
    split at called
    · split at called
      · exact keeps _ _ _ called
      · rename_i stub found
        exact run_same_of_evaluatesOnly
          (evaluators_evaluateOnly (List.mem_of_getElem? found)) field
          called
      · cases called
    · cases called

end JumpTable

/-! ## Parts of the code -/

/-- Code that does not write a field and the registers for the context and the
jump table. -/
abbrev SparesField (field : Field) (code : List Inst) : Prop :=
  Spares field.region code

/-- A register that is not one for the context or the jump table. -/
def Free (register : Register) : Prop :=
  register ≠ jumpTableAddress ∧ register ≠ contextAddress

instance (register : Register) : Decidable (Free register) :=
  inferInstanceAs (Decidable (_ ∧ _))

theorem free_of_isGuest
    {register : Register}
    (guest : isGuest register = true) : Free register :=
  ⟨ne_of_isGuest guest (by decide), ne_of_isGuest guest (by decide)⟩

@[simp] theorem free_mapReg (reg : Fadec.Register) : Free (mapReg reg) :=
  free_of_isGuest (isGuest_mapReg reg)

@[simp] theorem free_mapRegType
    (reg : Fadec.Register)
    (type : Fadec.RegisterType) : Free (mapRegType reg type) :=
  free_of_isGuest (isGuest_mapRegType reg type)

section Parts

variable {field : Field}

theorem not_mem_kept_iff {register : Register} :
    register ∉ field.region.kept ↔ Free register := by
  simp [Field.region, Free]

theorem SparesField.computes
    {code : List Inst}
    {registers : List Register}
    (computes : ComputesInto registers code)
    (free : ∀ register ∈ registers, Free register) :
    SparesField field code :=
  Spares.of_computesInto computes fun register member =>
    not_mem_kept_iff.mpr (free register member)

/-- An instruction that writes a register. -/
theorem spares_of_target
    {inst : Inst}
    {register : Register}
    (target : inst.target = some register) :
    inst.spares field.region = true ↔ Free register := by
  have beside : inst.storesBeside field.region = true := by
    cases inst <;> first | rfl | cases target
  rw [Inst.spares, beside, Bool.and_true, Inst.keeps_of_target target]
  exact not_mem_kept_iff

section Instructions

variable (rd rs1 rs2 : Register)

@[simp] theorem spares_op (kind : Op) :
    (Inst.op kind rd rs1 rs2).spares field.region = true ↔ Free rd :=
  spares_of_target rfl

@[simp] theorem spares_opW (kind : OpW) :
    (Inst.opW kind rd rs1 rs2).spares field.region = true ↔ Free rd :=
  spares_of_target rfl

@[simp] theorem spares_opImm (kind : OpImm) (imm : BitVec 12) :
    (Inst.opImm kind rd rs1 imm).spares field.region = true ↔ Free rd :=
  spares_of_target rfl

@[simp] theorem spares_shift (kind : Shift) (amount : BitVec 6) :
    (Inst.shift kind rd rs1 amount).spares field.region = true ↔ Free rd :=
  spares_of_target rfl

@[simp] theorem spares_shiftW (kind : Shift) (amount : BitVec 5) :
    (Inst.shiftW kind rd rs1 amount).spares field.region = true ↔ Free rd :=
  spares_of_target rfl

@[simp] theorem spares_load (kind : Load) (imm : BitVec 12) :
    (Inst.load kind rd rs1 imm).spares field.region = true ↔ Free rd :=
  spares_of_target rfl

@[simp] theorem spares_lui (imm : BitVec 20) :
    (Inst.lui rd imm).spares field.region = true ↔ Free rd :=
  spares_of_target rfl

@[simp] theorem spares_jalr (imm : BitVec 12) :
    (Inst.jalr rd rs1 imm).spares field.region = true ↔ Free rd :=
  spares_of_target rfl

@[simp] theorem spares_branch (kind : Branch) (offset : BitVec 12) :
    (Inst.branch kind rs1 rs2 offset).spares field.region = true := rfl

/-- A store through another register. -/
theorem spares_store
    {base : Register}
    (free : Free base)
    (kind : Store)
    (imm : BitVec 12) :
    (Inst.store kind base rs1 imm).spares field.region = true := by
  simp [Inst.spares, Inst.keeps, Inst.storesBeside, Inst.target, Field.region,
    free.2]

/-- A store to another field. -/
theorem spares_store_field
    {kind : Store}
    {other : Field}
    (bound : kind.width.bytes ≤ other.bytes)
    (different : other ≠ field) :
    (store kind contextAddress rs1 other.offset).spares field.region =
      true := by
  have apart := Field.apart different
  have limit := (Field.offset_lt other).2
  have offset : (other.offset.setWidth 12).toNat = other.offset.toNat := by
    cases other <;> decide
  rw [Field.limit] at limit
  have keeps : (store kind contextAddress rs1 other.offset).keeps
      field.region.kept = true := rfl
  rw [Inst.spares, keeps, Bool.true_and]
  simp only [store, Inst.storesBeside, offset, Field.region, ne_eq,
    not_true_eq_false, decide_false, Bool.false_or, Bool.and_eq_true,
    Bool.or_eq_true, decide_eq_true_eq]
  omega

end Instructions

@[simp] theorem free_scratch :
    Free .zero ∧ Free .ra ∧ Free .t0 ∧ Free .t1 ∧ Free .t2 ∧ Free .t3 ∧
      Free .t4 ∧ Free .t5 ∧ Free .t6 ∧ Free .s1 := by
  decide

end Parts

/-! ## Operands -/

section Operands

variable {field : Field} (inst : Instruction)

attribute [local simp] add addi ld slli srli srai lb lbu lh lhu lw lwu load
  opImm shift mv

theorem handleSegmentOverride_spares
    (base : Register)
    {temp : Register}
    (free : Free temp) :
    SparesField field (inst.handleSegmentOverride base temp).1 := by
  rw [Instruction.handleSegmentOverride_eq]
  repeat' split
  all_goals simp [free]

theorem loadOperand_spares
    (size : OperandSize)
    (signExtended : Bool)
    {rd : Register}
    (free : Free rd)
    (base : Register)
    (imm : BitVec 16) :
    (Instruction.loadOperand size signExtended rd base imm).spares
      field.region = true := by
  unfold Instruction.loadOperand
  repeat' split
  all_goals simp [free]

theorem storeOperand_spares
    (size : OperandSize)
    {base : Register}
    (free : Free base)
    (value : Register)
    (imm : BitVec 32) :
    (Instruction.storeOperand size base value imm).spares field.region =
      true := by
  cases size <;> exact spares_store _ free _ _

theorem readFromMemory_spares
    (op : Operand)
    {dest temp : Register}
    (destFree : Free dest)
    (tempFree : Free temp)
    (signExtended : Bool) :
    SparesField field
      (inst.readFromMemory op dest temp signExtended).1 := by
  have address : SparesField field (inst.readAddress op dest temp).1 :=
    SparesField.computes (inst.readAddress_computesInto dest temp)
      (by simp [destFree, tempFree])
  have chosen : Free (if (inst.readAddress op dest temp).2 = temp then dest
      else temp) := by
    split
    · exact destFree
    · exact tempFree
  simp only [Instruction.readFromMemory, Spares.append_iff, Spares.cons_iff]
  exact ⟨⟨address, handleSegmentOverride_spares inst _ chosen⟩,
    loadOperand_spares _ _ destFree _ _, Spares.nil⟩

theorem handleSegmentOverride_free
    {base temp : Register}
    (baseFree : Free base)
    (tempFree : Free temp) :
    Free (inst.handleSegmentOverride base temp).2 := by
  rw [Instruction.handleSegmentOverride_eq]
  split
  · exact tempFree
  · exact baseFree

theorem simpleAddress_free
    (op : Operand)
    {sum : Register}
    (free : Free sum)
    (shifted : Register) :
    Free (inst.simpleAddress op sum shifted).2 := by
  unfold Instruction.simpleAddress
  cases Instruction.baseRegister op <;> cases inst.indexRegister <;>
    simp only [Option.map_none, Option.map_some, Option.getD_none,
      Option.getD_some]
  all_goals (try split) <;> simp [free]

theorem translateMemory_free
    (op : Operand)
    {dst temp : Register}
    (dstFree : Free dst)
    (tempFree : Free temp) :
    Free (inst.translateMemory op dst temp false).2 := by
  have index : Free (inst.translateIndex
      (Instruction.baseRegister op).isSome dst temp).2 := by
    unfold Instruction.translateIndex
    repeat' split
    all_goals simp [dstFree, tempFree]
  have base (result : Register) (free : Free result) :
      Free (Instruction.translateBase (Instruction.baseRegister op) dst
        result).2 := by
    unfold Instruction.translateBase
    repeat' split
    all_goals simp [dstFree, free]
  have displacement (result : Register) (free : Free result) :
      Free (inst.translateDisplacement dst temp result).2 := by
    unfold Instruction.translateDisplacement
    repeat' split
    all_goals simp [dstFree, free]
  rw [Instruction.translateMemory_eq]
  simp only [Bool.false_eq_true, false_and, if_false]
  split
  · exact dstFree
  · exact displacement _ (base _ index)

theorem writeAddress_free
    (op : Operand)
    {tempA tempB address : Register}
    (freeA : Free tempA)
    (freeB : Free tempB)
    (free : Free address) :
    Free (inst.writeAddress op tempA tempB address).2 := by
  rw [Instruction.writeAddress_eq]
  split
  · exact free
  · split
    · exact simpleAddress_free inst op freeA tempB
    · exact translateMemory_free inst op freeA freeB

theorem writeToMemory_spares
    (op : Operand)
    (src : Register)
    {tempA tempB address : Register}
    (freeA : Free tempA)
    (freeB : Free tempB)
    (free : Free address) :
    SparesField field (inst.writeToMemory op src tempA tempB address) := by
  have code : SparesField field
      (inst.writeAddress op tempA tempB address).1 :=
    SparesField.computes (inst.writeAddress_computesInto tempA tempB address)
      (by simp [freeA, freeB])
  have chosen : Free (if (inst.writeAddress op tempA tempB address).2 = tempA
      then tempB else tempA) := by
    split
    · exact freeB
    · exact freeA
  have base := writeAddress_free inst op freeA freeB free
  simp only [Instruction.writeToMemory, Spares.append_iff, Spares.cons_iff]
  exact ⟨⟨code, handleSegmentOverride_spares inst _ chosen⟩,
    storeOperand_spares _ (handleSegmentOverride_free inst base chosen) _ _,
    Spares.nil⟩

/-- The address that a load leaves for a store. -/
theorem readFromMemory_free
    (op : Operand)
    {dest temp : Register}
    (destFree : Free dest)
    (tempFree : Free temp)
    (signExtended : Bool) :
    Free (inst.readFromMemory op dest temp signExtended).2 := by
  have chosen : Free (if (inst.readAddress op dest temp).2 = temp then dest
      else temp) := by
    split
    · exact destFree
    · exact tempFree
  have address : Free (inst.readAddress op dest temp).2 := by
    rw [Instruction.readAddress_eq]
    split
    · exact simpleAddress_free inst op tempFree temp
    · exact translateMemory_free inst op tempFree destFree
  exact handleSegmentOverride_free inst address chosen

theorem translateOperand_spares
    (op : Operand)
    {tempA tempB : Register}
    (freeA : Free tempA)
    (freeB : Free tempB)
    (modifiable fullLoad signExtend destination : Bool) :
    SparesField field
      (inst.translateOperand op tempA tempB modifiable fullLoad signExtend
        destination).code := by
  cases op with
  | mem size base =>
      exact readFromMemory_spares inst _ freeA freeB signExtend
  | _ =>
      exact SparesField.computes
        (inst.translateOperand_computesInto rfl _ _ _ _ _ _) (by simpa)

/-- The address of an operand in memory. -/
theorem translateOperand_free
    (op : Operand)
    {tempA tempB : Register}
    (freeA : Free tempA)
    (freeB : Free tempB)
    (modifiable fullLoad signExtend destination : Bool) :
    Free (inst.translateOperand op tempA tempB modifiable fullLoad signExtend
        destination).address := by
  cases op with
  | mem size base => exact readFromMemory_free inst _ freeA freeB signExtend
  | reg size register type =>
      simp only [Instruction.translateOperand]
      split <;> exact (by decide : Free .zero)
  | _ => exact (by decide : Free .zero)

theorem moveToRegister_spares
    {dest : Register}
    (destFree : Free dest)
    (src : Register)
    (access : RegisterAccess)
    {temp : Register}
    (tempFree : Free temp)
    (cleared : Bool) :
    SparesField field (moveToRegister dest src access temp cleared) :=
  SparesField.computes (moveToRegister_computesInto access cleared)
    (by simp [destFree, tempFree])

theorem translateDestination_spares
    (reg : Register)
    {address tempA tempB : Register}
    (free : Free address)
    (freeA : Free tempA)
    (freeB : Free tempB) :
    SparesField field (inst.translateDestination reg address tempA tempB) := by
  unfold Instruction.translateDestination
  split
  · simp only
    split
    · exact moveToRegister_spares (free_mapRegType _ _) _ _ freeA _
    · exact Spares.nil
  · exact writeToMemory_spares inst _ _ freeA freeB free
  all_goals exact Spares.nil

end Operands

/-! ## Updates of flags -/

section Updates

variable {field : Field} (inst : Instruction)

attribute [local simp] addi opImm

/-- The code of an update spares the fields of other flags. -/
theorem updating_spares
    {flag : Flag}
    {code : List Inst}
    (spares : flag ≠ field.flag -> SparesField field code)
    (other : flag ≠ field.flag) :
    SparesField field (inst.updating flag code) := by
  unfold Instruction.updating
  split
  · exact spares other
  · exact Spares.nil

/-- A field of another flag is another field. -/
theorem field_ne_of_flag_ne
    {other : Field}
    (different : other.flag ≠ field.flag) : other ≠ field := by
  rintro rfl
  exact different rfl

theorem updateZero_spares
    (other : Flag.zero ≠ field.flag)
    (va : Register)
    (size : OperandSize) :
    SparesField field (inst.updateZero va size) := by
  refine updating_spares inst (fun other => ?_) other
  have stores (kind : Store) (value : Register)
      (bound : kind.width.bytes ≤ 8) :=
    @spares_store_field field value kind .zeroValue bound
      (field_ne_of_flag_ne other)
  cases size with
  | qword => exact Spares.cons_iff.mpr ⟨stores .sd va (by decide), Spares.nil⟩
  | dword | word | byte =>
      exact Spares.cons_iff.mpr ⟨stores .sd .zero (by decide),
        Spares.cons_iff.mpr ⟨stores _ va (by decide), Spares.nil⟩⟩

theorem updateSign_spares
    (other : Flag.sign ≠ field.flag)
    (va : Register)
    (size : OperandSize)
    {temp : Register}
    (free : Free temp) :
    SparesField field (inst.updateSign va size temp) := by
  refine updating_spares inst (fun other => ?_) other
  have value := @spares_store_field field va .sd .signValue (by decide)
    (field_ne_of_flag_ne other)
  have bits := @spares_store_field field temp .sb .signSize (by decide)
    (field_ne_of_flag_ne other)
  exact Spares.cons_iff.mpr ⟨value, Spares.cons_iff.mpr
    ⟨by simpa using free, Spares.cons_iff.mpr ⟨bits, Spares.nil⟩⟩⟩

theorem updateParity_spares
    (other : Flag.parity ≠ field.flag)
    (va : Register) :
    SparesField field (inst.updateParity va) := by
  refine updating_spares inst (fun other => ?_) other
  have value := @spares_store_field field va .sb .parityValue (by decide)
    (field_ne_of_flag_ne other)
  exact Spares.cons_iff.mpr ⟨value, Spares.nil⟩

section Operation

variable {slots : Instruction.Slots}
variable {operationFields : Instruction.OperationFields}

theorem storeEntry_spares
    (describes : slots.Describes operationFields)
    (other : slots.operation ≠ field)
    (entry : JumpTable.Entry)
    {temp : Register}
    (free : Free temp) :
    SparesField field (operationFields.storeEntry entry temp) := by
  have bound : Store.sh.width.bytes ≤ slots.operation.bytes := by
    rw [describes.operationBytes]
    decide
  have stores := @spares_store_field field temp .sh slots.operation bound other
  rw [← describes.operation] at stores
  exact Spares.cons_iff.mpr ⟨by simpa using free,
    Spares.cons_iff.mpr ⟨stores, Spares.nil⟩⟩

theorem storeValues_spares
    (describes : slots.Describes operationFields)
    (otherFirst : slots.first ≠ field)
    (otherSecond : slots.second ≠ field)
    (va vb : Option Register) :
    SparesField field (operationFields.storeValue 0 va ++
      operationFields.storeValue 1 vb) := by
  have whole {other : Field} (bytes : other.bytes = 8) :
      Store.sd.width.bytes ≤ other.bytes := by
    rw [bytes]
    decide
  refine Spares.append_iff.mpr ⟨?_, ?_⟩
  · cases va with
    | none => exact Spares.nil
    | some value =>
        have stores := spares_store_field value
          (whole describes.firstBytes) otherFirst
        rw [← describes.first] at stores
        refine Spares.cons_iff.mpr ⟨?_, Spares.nil⟩
        simpa [sd, mul_zero] using stores
  · cases vb with
    | none => exact Spares.nil
    | some value =>
        have stores := spares_store_field value
          (whole describes.secondBytes) otherSecond
        rw [← describes.second] at stores
        exact Spares.cons_iff.mpr ⟨stores, Spares.nil⟩

/-- All slots belong to the flag. -/
structure Belongs
    (slots : Instruction.Slots)
    (operationFields : Instruction.OperationFields) : Prop where
  first : slots.first.flag = operationFields.flag
  second : slots.second.flag = operationFields.flag
  operation : slots.operation.flag = operationFields.flag

theorem updateOperation_spares
    (describes : slots.Describes operationFields)
    (belongs : Belongs slots operationFields)
    (other : operationFields.flag ≠ field.flag)
    (entry : Option JumpTable.Entry)
    (va vb : Option Register)
    {temp : Register}
    (free : Free temp) :
    SparesField field
      (inst.updateOperation operationFields entry va vb temp) := by
  refine updating_spares inst (fun other => ?_) other
  have operation : slots.operation ≠ field :=
    field_ne_of_flag_ne (belongs.operation ▸ other)
  have values := storeValues_spares describes
    (field_ne_of_flag_ne (belongs.first ▸ other))
    (field_ne_of_flag_ne (belongs.second ▸ other)) va vb
  rw [List.append_assoc]
  refine Spares.append_iff.mpr ⟨?_, values⟩
  cases entry with
  | none => exact Spares.nil
  | some entry => exact storeEntry_spares describes operation entry free

end Operation

theorem overflowSlots_belongs :
    Belongs Instruction.overflowSlots Instruction.overflowFields :=
  ⟨rfl, rfl, rfl⟩

theorem carrySlots_belongs :
    Belongs Instruction.carrySlots Instruction.carryFields :=
  ⟨rfl, rfl, rfl⟩

section Flags

variable {temp : Register} (free : Free temp)

include free

theorem updateOverflow_spares
    (other : Flag.overflow ≠ field.flag)
    (entry : Option JumpTable.Entry)
    (va vb : Option Register) :
    SparesField field (inst.updateOverflow entry va vb temp) :=
  updateOperation_spares inst Instruction.overflowSlots_describes
    overflowSlots_belongs other entry va vb free

theorem updateCarry_spares
    (other : Flag.carry ≠ field.flag)
    (entry : Option JumpTable.Entry)
    (va vb : Option Register) :
    SparesField field (inst.updateCarry entry va vb temp) :=
  updateOperation_spares inst Instruction.carrySlots_describes
    carrySlots_belongs other entry va vb free

theorem updateOverflowUnsupported_spares
    (other : Flag.overflow ≠ field.flag)
    (name : BitVec 64) :
    SparesField field (inst.updateOverflowUnsupported name temp) := by
  refine updating_spares inst (fun other => ?_) other
  have entry := storeEntry_spares Instruction.overflowSlots_describes
    (field_ne_of_flag_ne other) .unsupportedOverflow free
  have pointer := @spares_store_field field temp .sd .overflowPtr (by decide)
    (field_ne_of_flag_ne other)
  exact Spares.append_iff.mpr ⟨Spares.append_iff.mpr ⟨entry,
    SparesField.computes (loadImmediate_computesInto _ _) (by simpa)⟩,
    Spares.cons_iff.mpr ⟨pointer, Spares.nil⟩⟩

theorem updateCarryUnsupported_spares
    (other : Flag.carry ≠ field.flag)
    (name : BitVec 64) :
    SparesField field (inst.updateCarryUnsupported name temp) := by
  refine updating_spares inst (fun other => ?_) other
  have entry := storeEntry_spares Instruction.carrySlots_describes
    (field_ne_of_flag_ne other) .unsupportedCarry free
  have pointer := @spares_store_field field temp .sd .carryPtr (by decide)
    (field_ne_of_flag_ne other)
  exact Spares.append_iff.mpr ⟨Spares.append_iff.mpr ⟨entry,
    SparesField.computes (loadImmediate_computesInto _ _) (by simpa)⟩,
    Spares.cons_iff.mpr ⟨pointer, Spares.nil⟩⟩

end Flags

theorem setCarry_spares
    (other : Flag.carry ≠ field.flag)
    (set : Bool)
    {temp : Register}
    (free : Free temp) :
    SparesField field (inst.setCarry set temp) := by
  rw [Instruction.setCarry_eq]
  exact updateCarry_spares inst free other _ _ _

/-- An entry that is in a register goes to the carry flag. -/
theorem updateCarryEntry_spares
    (other : Flag.carry ≠ field.flag)
    (entry : Register) :
    SparesField field (Instruction.updateCarryEntry entry) := by
  have operation := @spares_store_field field entry .sh .carryOperation
    (by decide) (field_ne_of_flag_ne other)
  exact Spares.cons_iff.mpr ⟨operation, Spares.nil⟩

end Updates

end Oxtra

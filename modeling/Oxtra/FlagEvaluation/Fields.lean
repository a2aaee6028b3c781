import Oxtra.Encoding.Effects
import Oxtra.JumpTable
import Mathlib.Logic.Function.Basic
import Mathlib.Tactic.Ring

/-!
# Fields of the lazy flag information

The fields of the execution context that the flags are evaluated from, as a
function of the state.  A store to a field changes this field only.
-/

namespace Oxtra
namespace FlagInfo

open RiscV
open Encoding

/-! ## Layout -/

/-- A field of the lazy information, with one for each of the values of the
carry and the overflow flag. -/
inductive Field where
  | zeroValue
  | signValue
  | overflowFirst
  | overflowSecond
  | carryFirst
  | carrySecond
  | overflowPtr
  | carryPtr
  | overflowOperation
  | carryOperation
  | signSize
  | parityValue
  deriving DecidableEq, Repr

namespace Field

/-- Offset of a field in the context. -/
def offset : Field -> BitVec 32
  | zeroValue => zeroValueOffset
  | signValue => signValueOffset
  | overflowFirst => overflowValuesOffset
  | overflowSecond => overflowValuesOffset + 8
  | carryFirst => carryValuesOffset
  | carrySecond => carryValuesOffset + 8
  | overflowPtr => overflowPtrOffset
  | carryPtr => carryPtrOffset
  | overflowOperation => overflowOperationOffset
  | carryOperation => carryOperationOffset
  | signSize => signSizeOffset
  | parityValue => parityValueOffset

/-- Number of bytes of a field. -/
def bytes : Field -> Nat
  | overflowOperation | carryOperation => 2
  | signSize | parityValue => 1
  | _ => 8

/-- First byte behind the fields. -/
def limit : Nat := 0x246

theorem offset_lt (field : Field) :
    0x200 ≤ field.offset.toNat ∧ field.offset.toNat + field.bytes ≤ limit := by
  cases field <;> decide

/-- Different fields do not overlap. -/
theorem apart {first second : Field} (different : first ≠ second) :
    first.offset.toNat + first.bytes ≤ second.offset.toNat ∨
      second.offset.toNat + second.bytes ≤ first.offset.toNat := by
  cases first <;> cases second <;> first | exact absurd rfl different | decide

theorem bytes_pos (field : Field) : 0 < field.bytes := by
  cases field <;> decide

theorem bytes_le (field : Field) : field.bytes ≤ 8 := by
  cases field <;> decide

/-- The immediate for a field is its offset. -/
theorem signedImm_offset (field : Field) :
    signedImm field.offset = field.offset.setWidth 64 := by
  cases field <;> decide

/-- Address of a field. -/
def address (field : Field) (state : State) : Word :=
  state.get Helper.contextAddress + field.offset.setWidth 64

/-- Contents of a field. -/
def read (field : Field) (state : State) : Word :=
  state.mem.load (field.address state) field.bytes

/-- Distance of two fields in the memory. -/
theorem address_sub (first second : Field) (state : State) :
    second.address state - first.address state =
      second.offset.setWidth 64 - first.offset.setWidth 64 := by
  rw [address, address, add_sub_add_left_eq_sub]

end Field

/-- The contents of all fields. -/
def fields (state : State) : Field -> Word := fun field => field.read state

/-! ## Stores -/

/-- The low bytes of a word. -/
def lowBytes (bytes : Nat) (value : Word) : Word :=
  BitVec.ofNat 64 (value.toNat % 256 ^ bytes)

@[simp] theorem lowBytes_eight (value : Word) : lowBytes 8 value = value := by
  have bound := value.isLt
  rw [lowBytes, Nat.mod_eq_of_lt (by omega), BitVec.ofNat_toNat,
    BitVec.setWidth_eq]

theorem lowBytes_toNat (bytes : Nat) (value : Word) :
    (lowBytes bytes value).toNat = value.toNat % 256 ^ bytes := by
  have less := value.isLt
  have le := Nat.mod_le value.toNat (256 ^ bytes)
  rw [lowBytes, BitVec.toNat_ofNat, Nat.mod_eq_of_lt (by omega)]

theorem load_store_eq
    (mem : Memory)
    (address value : Word)
    {bytes : Nat}
    (bound : bytes ≤ 8) :
    (mem.store address bytes value).load address bytes =
      lowBytes bytes value := by
  apply BitVec.eq_of_toNat_eq
  rw [mem.load_store_self address value bound, lowBytes_toNat]

/-- A number of some bytes is made of its low and of its high bytes. -/
theorem loadNat_add
    (mem : Memory)
    (address : Word)
    (low high : Nat) :
    mem.loadNat address (low + high) =
      mem.loadNat address low +
        256 ^ low * mem.loadNat (address + BitVec.ofNat 64 low) high := by
  induction low generalizing address with
  | zero => simp [Memory.loadNat]
  | succ low inductionHypothesis =>
      have next : address + 1 + BitVec.ofNat 64 low =
          address + BitVec.ofNat 64 (low + 1) := by
        rw [BitVec.add_assoc, Nat.add_comm, BitVec.ofNat_add]
        rfl
      rw [Nat.add_right_comm, Memory.loadNat, inductionHypothesis,
        Memory.loadNat, next, Nat.pow_succ]
      ring

/-- A short value that was stored over zero. -/
theorem load_short_store_zero
    (mem : Memory)
    (address value : Word)
    {bytes : Nat}
    (short : bytes ≤ 8) :
    ((mem.store address 8 0).store address bytes value).load address 8 =
      lowBytes bytes value := by
  have high : ((mem.store address 8 0).store address bytes value).loadNat
      (address + BitVec.ofNat 64 bytes) (8 - bytes) = 0 := by
    have below := @Memory.loadNat_store mem address 0 8 (by decide) bytes
      (8 - bytes) (by omega)
    have none : (0 : Word).toNat = 0 := rfl
    rw [none, Nat.zero_div, Nat.zero_mod] at below
    rw [← below]
    apply Memory.loadNat_congr
    intro index inside
    apply Memory.store_of_outside
    have offset : address + BitVec.ofNat 64 bytes + BitVec.ofNat 64 index -
        address = BitVec.ofNat 64 (bytes + index) := by
      rw [BitVec.ofNat_add, add_assoc, add_sub_cancel_left]
    rw [offset, BitVec.toNat_ofNat]
    omega
  have low := Memory.load_store_self (mem.store address 8 0) address value
    short
  rw [Memory.load_toNat _ _ short] at low
  apply BitVec.eq_of_toNat_eq
  rw [Memory.load_toNat _ _ (by decide), lowBytes_toNat]
  have parts := loadNat_add
    ((mem.store address 8 0).store address bytes value) address bytes
    (8 - bytes)
  rw [Nat.add_sub_cancel' short] at parts
  rw [parts, high, low, Nat.mul_zero, Nat.add_zero]

/-- A store to a field, or to its first bytes, keeps the other fields. -/
theorem read_store_of_ne
    {written field : Field}
    (different : field ≠ written)
    (state : State)
    {bytes : Nat}
    (short : bytes ≤ written.bytes)
    (value : Word) :
    field.read (state.store (written.address state) bytes value) =
      field.read state := by
  have offsets := Field.apart different
  have fieldLt := field.offset_lt
  have writtenLt := written.offset_lt
  have nonempty := field.bytes_pos
  have distance : (field.address state - written.address state).toNat =
      (2 ^ 64 - written.offset.toNat + field.offset.toNat) % 2 ^ 64 := by
    rw [Field.address_sub written field state, BitVec.toNat_sub,
      BitVec.toNat_setWidth_of_le (by decide),
      BitVec.toNat_setWidth_of_le (by decide)]
  simp only [Field.limit] at fieldLt writtenLt
  apply Memory.load_store_of_apart
  · change bytes ≤ (field.address state - written.address state).toNat
    omega
  · change (field.address state - written.address state).toNat + _ ≤ _
    omega

/-- A store to a field. -/
@[simp] theorem fields_store
    (written : Field)
    (state : State)
    (value : Word) :
    fields (state.store (written.address state) written.bytes value) =
      Function.update (fields state) written
        (lowBytes written.bytes value) := by
  funext field
  by_cases same : field = written
  · subst same
    rw [Function.update_self]
    exact load_store_eq _ _ _ field.bytes_le
  · rw [Function.update_of_ne same]
    exact read_store_of_ne same state le_rfl value

/-- A store of a short value to a long field that is zero. -/
theorem fields_store_short
    {written : Field}
    (long : written.bytes = 8)
    (state : State)
    {bytes : Nat}
    (short : bytes ≤ 8)
    (value : Word) :
    fields ((state.store (written.address state) 8 0).store
        (written.address state) bytes value) =
      Function.update (fields state) written (lowBytes bytes value) := by
  funext field
  by_cases same : field = written
  · subst same
    rw [Function.update_self]
    change Memory.load _ _ field.bytes = _
    rw [long]
    exact load_short_store_zero _ _ _ short
  · rw [Function.update_of_ne same]
    have cleared := @read_store_of_ne written field same state 8 (by omega) 0
    have kept := @read_store_of_ne written field same
      (state.store (written.address state) 8 0) bytes (by omega) value
    exact kept.trans cleared

@[simp] theorem fields_set
    (state : State)
    {register : Register}
    (other : register ≠ Helper.contextAddress)
    (value : Word) :
    fields (state.set register value) = fields state := by
  funext field
  simp only [fields, Field.read, Field.address, State.set_mem,
    State.set_get_of_ne _ _ other.symm]

/-- The fields are part of the memory behind the register for the context. -/
theorem fields_congr
    {first second : State}
    (sameMemory : first.mem = second.mem)
    (sameContext : first.get Helper.contextAddress =
      second.get Helper.contextAddress) :
    fields first = fields second := by
  funext field
  simp only [fields, Field.read, Field.address, sameMemory, sameContext]

end FlagInfo
end Oxtra

import Oxtra.Instruction.ExtendedOperands

/-!
# Laws of sub-registers

The code that writes a part of a register and the code that loads a part obey
the laws of reading and writing: what was written is read, a part that is
apart from it is not changed.
-/

namespace Oxtra
namespace Helper

open RiscV
open TwosComplement

/-! ## Parts -/

namespace RegisterAccess

/-- The lowest bit of a part. -/
def lowest : RegisterAccess -> Nat
  | hbyte => 8
  | _ => 0

/-- The bit of a register belongs to the part. -/
def Selects (access : RegisterAccess) (index : Nat) : Prop :=
  access.lowest ≤ index ∧ index < access.lowest + access.bits

/-- No bit belongs to both parts. -/
def Disjoint (access other : RegisterAccess) : Prop :=
  ∀ index, ¬ (access.Selects index ∧ other.Selects index)

/-- A write of the part keeps the other bits of the register. -/
def KeepsRest (access : RegisterAccess) : Prop :=
  access = word ∨ access = lbyte ∨ access = hbyte

/-- The part of a register that was written is what was written. -/
theorem part_merge (access : RegisterAccess) (old value : Word) :
    access.part (access.merge old value) =
      (value.setWidth access.bits).setWidth 64 := by
  by_cases high : access = .hbyte
  · subst high
    rw [part, extract_merge_hbyte]
    rfl
  · have written := merge_setWidth high old value
    cases access with
    | hbyte => exact absurd rfl high
    | qword => simp [part, merge, bits]
    | _ => exact congrArg (BitVec.setWidth 64) written

/-- The bits outside of the part stay. -/
theorem merge_getLsbD
    {access : RegisterAccess}
    (keeps : access.KeepsRest)
    (old value : Word)
    {index : Nat}
    (outside : ¬ access.Selects index) :
    (access.merge old value).getLsbD index = old.getLsbD index := by
  obtain rfl | rfl | rfl := keeps <;>
    simp only [Selects, lowest, bits] at outside <;>
    simp only [merge, BitVec.getLsbD_append, BitVec.getLsbD_extractLsb',
      BitVec.getLsbD_setWidth] <;>
    grind

theorem Disjoint.keepsRest
    {access other : RegisterAccess}
    (disjoint : access.Disjoint other) :
    access.KeepsRest := by
  have first := disjoint 0
  have ninth := disjoint 8
  cases access <;> cases other <;> simp [Selects, lowest, bits, KeepsRest] at *

/-- The bits of a part. -/
theorem part_getLsbD (access : RegisterAccess) (value : Word) (index : Nat) :
    (access.part value).getLsbD index =
      (decide (index < access.bits) &&
        value.getLsbD (access.lowest + index)) := by
  cases access <;>
    simp only [part, bits, lowest, BitVec.getLsbD_setWidth,
      BitVec.getLsbD_extractLsb', Nat.zero_add] <;>
    grind

/-- A part that is apart from the written one stays. -/
theorem part_merge_of_disjoint
    {access other : RegisterAccess}
    (disjoint : access.Disjoint other)
    (old value : Word) :
    other.part (access.merge old value) = other.part old := by
  apply BitVec.eq_of_getLsbD_eq
  intro index inside
  rw [part_getLsbD, part_getLsbD]
  by_cases short : index < other.bits
  · have selected : other.Selects (other.lowest + index) :=
      ⟨Nat.le_add_right _ _, Nat.add_lt_add_left short _⟩
    rw [merge_getLsbD disjoint.keepsRest]
    exact fun written => disjoint _ ⟨written, selected⟩
  · rw [decide_eq_false short, Bool.false_and, Bool.false_and]

end RegisterAccess

/-! ## Registers -/

/-- The value that `load_from_register` leaves in the register it returns. -/
def loadedValue
    (pc : Word)
    (state : State)
    (src : Register)
    (access : RegisterAccess)
    (temp : Register)
    (modifiable fullLoad signExtend : Bool) : Word :=
  let loaded := loadFromRegister src access temp modifiable fullLoad signExtend
  (applyAll pc state loaded.1).get loaded.2

/-- The final state has the low bits of the source in a part of the
destination, and is otherwise the same but for the temporary register. -/
structure MovesPart
    (access : RegisterAccess)
    (dest src temp : Register)
    (state final : State) : Prop where
  selected : access.part (final.get dest) =
    ((state.get src).setWidth access.bits).setWidth 64
  zeroExtends : access = .dword ->
    final.get dest = ((state.get src).setWidth access.bits).setWidth 64
  rest : access.KeepsRest -> ∀ index, ¬ access.Selects index ->
    (final.get dest).getLsbD index = (state.get dest).getLsbD index
  registers : ∀ register, register ≠ dest -> register ≠ temp ->
    final.get register = state.get register
  mem : final.mem = state.mem

/-- A full load of the part gives what was moved there, and a full load of a
part that is apart from it gives what it gave before. -/
structure LoadsMoved
    (access : RegisterAccess)
    (dest src : Register)
    (state final : State) : Prop where
  same : ∀ pc temp modifiable signExtend, temp ≠ .zero ->
    loadedValue pc final dest access temp modifiable true signExtend =
      extend signExtend ((state.get src).setWidth access.bits) 64
  apart : ∀ other, access.Disjoint other ->
    ∀ pc temp modifiable signExtend, temp ≠ .zero ->
      loadedValue pc final dest other temp modifiable true signExtend =
        loadedValue pc state dest other temp modifiable true signExtend

section Moves

variable {dest src temp : Register} {pc : Word} {state : State}

/-- The code merges the source into the destination, with further bits in the
source or without. -/
theorem moveToRegister_merges
    (destNonzero : dest ≠ .zero)
    (tempNonzero : temp ≠ .zero)
    (srcDest : src ≠ dest)
    (tempDest : temp ≠ dest)
    (tempSrc : temp ≠ src)
    {access : RegisterAccess}
    {cleared : Bool}
    (short : cleared = true ->
      ((state.get src).setWidth access.bits).setWidth 64 = state.get src) :
    (applyAll pc state (moveToRegister dest src access temp cleared)).get dest =
      access.merge (state.get dest) (state.get src) := by
  have value := @moveToRegister_value dest src temp pc state destNonzero
    tempNonzero tempDest tempSrc access fun _ => srcDest
  cases cleared with
  | false => exact value
  | true =>
      by_cases high : access = .hbyte
      · subst high
        exact value
      · exact moveToRegister_cleared pc state destNonzero srcDest high
          (short rfl)

/-- A move writes a part and nothing else but the temporary register, a full
load gives the extended part, and so a load reads what a move has written. -/
theorem moveToRegister_obeysLaws
    (destNonzero : dest ≠ .zero)
    (tempNonzero : temp ≠ .zero)
    (srcDest : src ≠ dest)
    (tempDest : temp ≠ dest)
    (tempSrc : temp ≠ src)
    (access : RegisterAccess)
    (cleared : Bool)
    (short : cleared = true ->
      ((state.get src).setWidth access.bits).setWidth 64 = state.get src) :
    let final := applyAll pc state
      (moveToRegister dest src access temp cleared)
    MovesPart access dest src temp state final ∧
      (∀ modifiable signExtend,
        loadedValue pc state src access temp modifiable true signExtend =
          extend signExtend
            ((access.part (state.get src)).setWidth access.bits) 64) ∧
      LoadsMoved access dest src state final := by
  intro final
  have merges : final.get dest =
      access.merge (state.get dest) (state.get src) :=
    moveToRegister_merges destNonzero tempNonzero srcDest tempDest tempSrc
      short
  have computes := @moveToRegister_computesInto dest src temp access cleared
  refine ⟨⟨?_, ?_, ?_, ?_, computes.mem pc state⟩, ?_, ⟨?_, ?_⟩⟩
  · rw [merges, access.part_merge]
  · rintro rfl
    exact merges
  · intro keeps index outside
    rw [merges, RegisterAccess.merge_getLsbD keeps _ _ outside]
  · intro register notDest notTemp
    exact computes.get pc state (by simp [notDest, notTemp])
  · intro modifiable signExtend
    exact loadFromRegister_full tempNonzero access modifiable signExtend pc
      state
  · intro pc temp modifiable signExtend nonzero
    have bits : access.bits ≤ 64 := by cases access <;> decide
    rw [loadedValue, loadFromRegister_full nonzero, merges, access.part_merge,
      BitVec.setWidth_setWidth_of_le _ bits, BitVec.setWidth_eq]
  · intro other disjoint pc temp modifiable signExtend nonzero
    rw [loadedValue, loadFromRegister_full nonzero, merges,
      RegisterAccess.part_merge_of_disjoint disjoint, loadedValue,
      loadFromRegister_full nonzero]

end Moves

/-- The high byte of one register is set to the low byte of another. -/
theorem moveToRegister_obeysLaws_highByte :
    let state : State := ⟨fun _ => 0x12, fun _ => 0⟩
    let final := applyAll 0 state (moveToRegister .t1 .t2 .hbyte .t0 true)
    MovesPart .hbyte .t1 .t2 .t0 state final ∧
      (∀ modifiable signExtend,
        loadedValue 0 state .t2 .hbyte .t0 modifiable true signExtend =
          extend signExtend
            ((RegisterAccess.hbyte.part (state.get .t2)).setWidth 8) 64) ∧
      LoadsMoved .hbyte .t1 .t2 state final :=
  moveToRegister_obeysLaws (by decide) (by decide) (by decide) (by decide)
    (by decide) .hbyte true (by decide)

end Helper
end Oxtra

import Oxtra.Instructions.ClShifts
import Oxtra.Library.Rotations

/-!
# Rotations

Operands of 32 and 64 bits are rotated by two shifts in opposite directions.
For short operands a shift of the whole register may bring in bits from above
the operand.
-/

namespace Oxtra

open RiscV
open Encoding
open Helper
open FlagInfo
open Instruction
open Fadec (Operand OperandSize)

namespace Rotation

/-! ## Rotated operands -/

section Bits

variable (operation : Rotation) (inst : Instruction) (size : OperandSize)
variable (word count : Word)

/-- The register or the immediate that a rotation takes its amount from. -/
def countWord : Word :=
  match operation with
  | rolImm | rorImm => inst.immediate
  | rolCl | rorCl => count

/-- The amount of a rotation on x86. -/
def amountOf : Nat :=
  maskedCount size (operation.countWord inst count) % size.bits

/-- The operand after a rotation on x86. -/
def rotatedBits (value : BitVec size.bits) : BitVec size.bits :=
  match operation with
  | rolImm | rolCl => value.rotateLeft (operation.amountOf inst size count)
  | rorImm | rorCl => value.rotateRight (operation.amountOf inst size count)

/-- Operands below 32 bits. -/
def IsShort : Prop := size = .byte ∨ size = .word

instance : Decidable (IsShort size) := inferInstanceAs (Decidable (_ ∨ _))

/-- The low bits of what a rotation leaves. -/
def leftBits : BitVec size.bits :=
  match operation with
  | rolImm =>
      if IsShort size ∧ amount inst size = 0 then
        word.setWidth size.bits <<< 0 |||
          (word >>> size.bits).setWidth size.bits
      else
        operation.rotatedBits inst size count (word.setWidth size.bits)
  | rorCl =>
      if IsShort size then
        word.setWidth size.bits <<<
            shiftAmount (BitVec.ofNat 64 size.bits - count) |||
          (word >>> shiftAmount count).setWidth size.bits
      else
        operation.rotatedBits inst size count (word.setWidth size.bits)
  | rolCl | rorImm => operation.rotatedBits inst size count (word.setWidth size.bits)

/-- The bits above the operand are in its lowest bits as well. -/
def Repeats (width : Nat) (word : Word) (count : Nat) : Prop :=
  ∀ index < count, word.getLsbD (width + index) = true ->
    word.getLsbD index = true

/-- What a short operand is rotated in is right.  A rotation to the left by a
multiple of the width brings in what is above the operand, and a rotation to
the right by `cl` as much as it moves. -/
def BringsRight : Prop :=
  match operation with
  | rolImm => IsShort size -> amount inst size = 0 ->
      Repeats size.bits word size.bits
  | rorCl => IsShort size ->
      if shiftAmount count ≤ size.bits then
        Repeats size.bits word (shiftAmount count)
      else
        ∀ index < size.bits, word.getLsbD (shiftAmount count + index) =
          word.getLsbD ((shiftAmount count + index) % size.bits)
  | rolCl | rorImm => True

end Bits

/-! ## The code of the rotations -/

theorem toNat_shamt (amount : Nat) :
    ((BitVec.ofNat 8 amount).setWidth 6).toNat = amount % 64 := by
  rw [BitVec.toNat_setWidth, BitVec.toNat_ofNat]
  omega

theorem toNat_wordShamt (amount : Nat) :
    ((BitVec.ofNat 8 amount).setWidth 5).toNat = amount % 32 := by
  rw [BitVec.toNat_setWidth, BitVec.toNat_ofNat]
  omega

/-- The amount of a rotation of an operand is reduced to its width. -/
theorem maskedCount_mod (size : OperandSize) (count : Word) :
    maskedCount size count % size.bits = count.toNat % size.bits := by
  cases size with
  | qword => exact Nat.mod_mod _ _
  | dword => exact Nat.mod_mod _ _
  | word => exact Nat.mod_mod_of_dvd _ (by decide)
  | byte => exact Nat.mod_mod_of_dvd _ (by decide)

/-- The width of the operand without the amount. -/
theorem signedImm_bits (size : OperandSize) :
    signedImm (BitVec.ofNat 16 size.bits) = BitVec.ofNat 64 size.bits := by
  cases size <;> decide

theorem toNat_opposite (size : OperandSize) (count : Word) :
    (BitVec.ofNat 64 size.bits - count).toNat =
      (2 ^ 64 - count.toNat + size.bits) % 2 ^ 64 := by
  have small := size.bits_le
  rw [BitVec.toNat_sub, BitVec.toNat_ofNat,
    Nat.mod_eq_of_lt (by omega : size.bits < 2 ^ 64)]

/-- Two amounts that make up the width, or nothing. -/
theorem opposite_amounts
    {width amount : Nat}
    (small : amount < width) :
    amount + (width - amount) % width = width ∨
      amount = 0 ∧ (width - amount) % width = 0 := by
  rcases Nat.eq_zero_or_pos amount with rfl | positive
  · exact Or.inr ⟨rfl, by simp⟩
  · rw [Nat.mod_eq_of_lt (by omega)]
    omega

theorem dword_bits : OperandSize.dword.bits = 32 := rfl

theorem qword_bits : OperandSize.qword.bits = 64 := rfl

theorem toNat_opposite_mod (size : OperandSize) (count : Word) :
    (BitVec.ofNat 64 size.bits - count).toNat % size.bits =
      (size.bits - count.toNat % size.bits) % size.bits := by
  have bound := count.isLt
  rw [toNat_opposite]
  cases size <;> simp only [OperandSize.bits, OperandSize.bytes] <;> omega

theorem amount_lt (inst : Instruction) (size : OperandSize) :
    amount inst size < size.bits :=
  Nat.mod_lt _ size.bits_pos

section Parts

variable {operation : Rotation} (inst : Instruction) (size : OperandSize)
variable (word count : Word)

theorem amountOf_eq :
    operation.amountOf inst size count =
      (operation.countWord inst count).toNat % size.bits :=
  maskedCount_mod size _

/-- The shifts that a rotation to the left is made of. -/
theorem rotatedBits_left
    (left : operation = rolImm ∨ operation = rolCl)
    {up down : Nat}
    (amount : operation.amountOf inst size count = up)
    (opposite : up + down = size.bits ∨ up = 0 ∧ down = 0) :
    operation.rotatedBits inst size count (word.setWidth size.bits) =
      word.setWidth size.bits <<< up ||| word.setWidth size.bits >>> down := by
  rw [BitVec.or_shifts_eq_rotateLeft _ opposite, ← amount]
  rcases left with rfl | rfl <;> rfl

/-- The shifts that a rotation to the right is made of. -/
theorem rotatedBits_right
    (right : operation = rorImm ∨ operation = rorCl)
    {up down : Nat}
    (amount : operation.amountOf inst size count = down)
    (opposite : down + up = size.bits ∨ down = 0 ∧ up = 0) :
    operation.rotatedBits inst size count (word.setWidth size.bits) =
      word.setWidth size.bits <<< up ||| word.setWidth size.bits >>> down := by
  rw [Nat.add_comm, and_comm] at opposite
  rw [BitVec.or_shifts_eq_rotateRight _ opposite, ← amount]
  rcases right with rfl | rfl <;> rfl

theorem leftBits_long (long : ¬ IsShort size) :
    operation.leftBits inst size word count =
      operation.rotatedBits inst size count (word.setWidth size.bits) := by
  cases operation with
  | rolImm => exact if_neg fun both => long both.1
  | rorCl => exact if_neg long
  | _ => rfl

end Parts

section Code

variable (inst : Instruction) {reg : Register}

/-- A register that a rotation can work on. -/
def Rotatable (reg : Register) : Prop :=
  reg ≠ .zero ∧ reg ≠ .t1 ∧ reg ≠ .t2 ∧ reg ≠ .t3 ∧ reg ≠ .t4

instance (reg : Register) : Decidable (Rotatable reg) :=
  inferInstanceAs (Decidable (_ ∧ _))

/-- The bits that some code leaves of the operand in a register. -/
def Leaves
    (operation : Rotation)
    (size : OperandSize)
    (reg : Register)
    (rotation : List Inst × Register) : Prop :=
  ∀ pc state,
    ((applyAll pc state rotation.1).get rotation.2).setWidth size.bits =
      operation.leftBits inst size (state.get reg) (state.get cl)

theorem rotatable_cl : Rotatable cl := by
  decide

theorem applyAll_opposite (size : OperandSize) (pc : Word) (state : State) :
    applyAll pc state (opposite size) =
      state.set .t4 (BitVec.ofNat 64 size.bits - state.get cl) := by
  have kept : cl ≠ .t4 := rotatable_cl.2.2.2.2
  simp only [opposite, applyAll_cons, applyAll_nil, apply_addi, apply_sub,
    State.get_zero, signedImm_bits, State.set_set,
    State.set_get_self _ _ (by decide : Register.t4 ≠ .zero),
    State.set_get_of_ne _ _ kept, BitVec.ofNat_eq_ofNat, BitVec.zero_add]

/-- The operand alone. -/
theorem applyAll_clearUpper
    (size : OperandSize)
    (reg : Register)
    (pc : Word)
    (state : State) :
    applyAll pc state (clearUpper size reg) =
      state.set .t1 (((state.get reg).setWidth size.bits).setWidth 64) := by
  have positive := size.bits_pos
  have top := BitVec.shiftLeft_ushiftRight_top (state.get reg) size.bits_le 0
  rw [Nat.add_zero, BitVec.ushiftRight_zero] at top
  simp only [clearUpper, applyAll_cons, applyAll_nil, apply_slli, apply_srli,
    State.set_set, State.set_get_self _ _ (by decide : Register.t1 ≠ .zero),
    toNat_shamt]
  rw [Nat.mod_eq_of_lt (by omega : 64 - size.bits < 64), top]

variable (rotatable : Rotatable reg)

include rotatable

/-! ### Operands of 32 and 64 bits -/

theorem RolImm.rotate_long
    {size : OperandSize}
    (long : ¬ IsShort size) :
    rolImm.Leaves inst size reg (RolImm.rotate inst size reg) := by
  obtain ⟨notZero, notT1, notT2, -, -⟩ := rotatable
  intro pc state
  have small := amount_lt inst size
  have same : rolImm.amountOf inst size (state.get cl) = amount inst size :=
    amountOf_eq inst size _
  rw [leftBits_long _ _ _ _ long,
    rotatedBits_left _ _ _ _ (Or.inl rfl) same (opposite_amounts small),
    BitVec.or_comm]
  cases size with
  | byte => exact absurd (Or.inl rfl) long
  | word => exact absurd (Or.inr rfl) long
  | dword =>
      have inside : amount inst .dword < 64 := small.trans (by decide)
      change BitVec.setWidth 32 _ =
        (state.get reg).setWidth 32 >>> ((32 - amount inst .dword) % 32) |||
          (state.get reg).setWidth 32 <<< amount inst .dword
      simp only [RolImm.rotate, combine, List.cons_append, List.nil_append,
        applyAll_cons, applyAll_nil, apply_srliw, apply_slli, apply_or,
        State.set_get, notZero, notT1, reduceCtorEq, if_true, if_false,
        toNat_shamt, toNat_wordShamt, dword_bits]
      rw [BitVec.setWidth_or, ShiftCl.sext_setWidth (le_refl 32),
        BitVec.setWidth_eq, BitVec.setWidth_shiftLeft_of_narrower _ (by decide),
        Nat.mod_eq_of_lt inside]
  | qword =>
      change BitVec.setWidth 64 _ =
        (state.get reg).setWidth 64 >>> ((64 - amount inst .qword) % 64) |||
          (state.get reg).setWidth 64 <<< amount inst .qword
      simp only [RolImm.rotate, combine, List.cons_append, List.nil_append,
        applyAll_cons, applyAll_nil, apply_srli, apply_slli, apply_or,
        State.set_get, notZero, notT1, reduceCtorEq, if_true, if_false,
        toNat_shamt, qword_bits, BitVec.setWidth_eq]
      rw [Nat.mod_eq_of_lt (show amount inst .qword < 64 from small)]

theorem RorImm.rotate_long
    {size : OperandSize}
    (long : ¬ IsShort size) :
    rorImm.Leaves inst size reg (RorImm.rotate inst size reg) := by
  obtain ⟨notZero, notT1, notT2, -, -⟩ := rotatable
  intro pc state
  have small := amount_lt inst size
  have same : rorImm.amountOf inst size (state.get cl) = amount inst size :=
    amountOf_eq inst size _
  rw [leftBits_long _ _ _ _ long,
    rotatedBits_right _ _ _ _ (Or.inl rfl) same (opposite_amounts small)]
  cases size with
  | byte => exact absurd (Or.inl rfl) long
  | word => exact absurd (Or.inr rfl) long
  | dword =>
      change BitVec.setWidth 32 _ =
        (state.get reg).setWidth 32 <<< ((32 - amount inst .dword) % 32) |||
          (state.get reg).setWidth 32 >>> amount inst .dword
      simp only [RorImm.rotate, combine, List.cons_append, List.nil_append,
        applyAll_cons, applyAll_nil, apply_srliw, apply_slliw, apply_or,
        State.set_get, notZero, notT1, reduceCtorEq, if_true, if_false,
        toNat_wordShamt, dword_bits]
      rw [BitVec.setWidth_or, ShiftCl.sext_setWidth (le_refl 32),
        ShiftCl.sext_setWidth (le_refl 32), BitVec.setWidth_eq,
        BitVec.setWidth_eq,
        Nat.mod_eq_of_lt (show amount inst .dword < 32 from small)]
  | qword =>
      change BitVec.setWidth 64 _ =
        (state.get reg).setWidth 64 <<< ((64 - amount inst .qword) % 64) |||
          (state.get reg).setWidth 64 >>> amount inst .qword
      simp only [RorImm.rotate, combine, List.cons_append, List.nil_append,
        applyAll_cons, applyAll_nil, apply_srli, apply_slli, apply_or,
        State.set_get, notZero, notT1, reduceCtorEq, if_true, if_false,
        toNat_shamt, qword_bits, BitVec.setWidth_eq]
      rw [Nat.mod_eq_of_lt (show amount inst .qword < 64 from small)]

theorem RolCl.rotate_long
    {size : OperandSize}
    (long : ¬ IsShort size) :
    rolCl.Leaves inst size reg (RolCl.rotate size reg) := by
  obtain ⟨notZero, notT1, notT2, -, notT4⟩ := rotatable
  obtain ⟨clNotZero, -, clNotT2, -, clNotT4⟩ := rotatable_cl
  intro pc state
  have same : rolCl.amountOf inst size (state.get cl) =
      (state.get cl).toNat % size.bits := amountOf_eq inst size _
  rw [leftBits_long _ _ _ _ long,
    rotatedBits_left _ _ _ _ (Or.inr rfl) same
      (opposite_amounts (Nat.mod_lt _ size.bits_pos)),
    BitVec.or_comm, ← toNat_opposite_mod]
  cases size with
  | byte => exact absurd (Or.inl rfl) long
  | word => exact absurd (Or.inr rfl) long
  | dword =>
      change BitVec.setWidth 32 _ =
        (state.get reg).setWidth 32 >>>
            ((BitVec.ofNat 64 32 - state.get cl).toNat % 32) |||
          (state.get reg).setWidth 32 <<< ((state.get cl).toNat % 32)
      simp only [RolCl.rotate, applyAll_append, applyAll_opposite,
        applyAll_cons, applyAll_nil,
        apply_srlw, apply_sllw, apply_or, State.set_get, notZero, notT1, notT2,
        notT4, clNotZero, clNotT2, clNotT4, reduceCtorEq, if_true,
        if_false, dword_bits]
      rw [BitVec.or_comm, BitVec.setWidth_or,
        ShiftCl.sext_setWidth (le_refl 32), ShiftCl.sext_setWidth (le_refl 32),
        BitVec.setWidth_eq, BitVec.setWidth_eq]
  | qword =>
      change BitVec.setWidth 64 _ =
        (state.get reg).setWidth 64 >>>
            ((BitVec.ofNat 64 64 - state.get cl).toNat % 64) |||
          (state.get reg).setWidth 64 <<< ((state.get cl).toNat % 64)
      simp only [RolCl.rotate, applyAll_append, applyAll_opposite,
        applyAll_cons, applyAll_nil,
        apply_srl, apply_sll, apply_or, State.set_get, notZero, notT1, notT2,
        notT4, clNotZero, clNotT2, clNotT4, reduceCtorEq, if_true,
        if_false, qword_bits, BitVec.setWidth_eq, shiftAmount]
      rw [BitVec.or_comm]

theorem RorCl.rotate_long
    {size : OperandSize}
    (long : ¬ IsShort size) :
    rorCl.Leaves inst size reg (RorCl.rotate size reg) := by
  obtain ⟨notZero, notT1, notT2, -, notT4⟩ := rotatable
  obtain ⟨clNotZero, -, clNotT2, -, clNotT4⟩ := rotatable_cl
  intro pc state
  have same : rorCl.amountOf inst size (state.get cl) =
      (state.get cl).toNat % size.bits := amountOf_eq inst size _
  rw [leftBits_long _ _ _ _ long,
    rotatedBits_right _ _ _ _ (Or.inr rfl) same
      (opposite_amounts (Nat.mod_lt _ size.bits_pos)),
    BitVec.or_comm, ← toNat_opposite_mod]
  cases size with
  | byte => exact absurd (Or.inl rfl) long
  | word => exact absurd (Or.inr rfl) long
  | dword =>
      change BitVec.setWidth 32 _ =
        (state.get reg).setWidth 32 >>> ((state.get cl).toNat % 32) |||
          (state.get reg).setWidth 32 <<<
            ((BitVec.ofNat 64 32 - state.get cl).toNat % 32)
      simp only [RorCl.rotate, combine, applyAll_append, applyAll_opposite,
        applyAll_cons, applyAll_nil,
        apply_srlw, apply_sllw, apply_or, State.set_get, notZero, notT1, notT2,
        notT4, clNotZero, clNotT2, clNotT4, reduceCtorEq, if_true,
        if_false, dword_bits]
      rw [BitVec.setWidth_or, ShiftCl.sext_setWidth (le_refl 32),
        ShiftCl.sext_setWidth (le_refl 32), BitVec.setWidth_eq,
        BitVec.setWidth_eq]
  | qword =>
      change BitVec.setWidth 64 _ =
        (state.get reg).setWidth 64 >>> ((state.get cl).toNat % 64) |||
          (state.get reg).setWidth 64 <<<
            ((BitVec.ofNat 64 64 - state.get cl).toNat % 64)
      simp only [RorCl.rotate, combine, applyAll_append, applyAll_opposite,
        applyAll_cons, applyAll_nil,
        apply_srl, apply_sll, apply_or, State.set_get, notZero, notT1, notT2,
        notT4, clNotZero, clNotT2, clNotT4, reduceCtorEq, if_true,
        if_false, qword_bits, BitVec.setWidth_eq, shiftAmount]

/-! ### Operands of 8 and 16 bits -/

section Short

variable {size : OperandSize} (short : IsShort size)

include short

omit rotatable in
theorem IsShort.bits_lt : size.bits < 32 := by
  rcases short with rfl | rfl <;> decide

omit rotatable in
/-- The width is subtracted in a mask for the amount. -/
theorem IsShort.shiftAmount_mask (count : Word) :
    shiftAmount (count &&& signedImm (BitVec.ofNat 16 (size.bits - 1))) =
      count.toNat % size.bits := by
  have masked : ∀ width, width ≤ 6 ->
      signedImm (BitVec.ofNat 16 (2 ^ width - 1)) =
        BitVec.ofNat 64 (2 ^ width - 1) -> shiftAmount
          (count &&& signedImm (BitVec.ofNat 16 (2 ^ width - 1))) =
            count.toNat % 2 ^ width := by
    intro width small mask
    have power := Nat.pow_le_pow_right (by decide : 0 < 2) small
    have reduced := Nat.mod_lt count.toNat (Nat.two_pow_pos width)
    rw [mask, shiftAmount, BitVec.toNat_and, BitVec.toNat_ofNat,
      Nat.mod_eq_of_lt (by omega : 2 ^ width - 1 < 2 ^ 64),
      Nat.and_two_pow_sub_one_eq_mod, Nat.mod_eq_of_lt (by omega)]
  rcases short with rfl | rfl
  · exact masked 3 (by decide) (by decide)
  · exact masked 4 (by decide) (by decide)

theorem RolImm.rotate_short :
    rolImm.Leaves inst size reg (RolImm.rotate inst size reg) := by
  obtain ⟨notZero, notT1, notT2, -, -⟩ := rotatable
  intro pc state
  have small := amount_lt inst size
  have below := short.bits_lt
  have same : rolImm.amountOf inst size (state.get cl) = amount inst size :=
    amountOf_eq inst size _
  have left : (applyAll pc state (RolImm.rotate inst size reg).1).get
      (RolImm.rotate inst size reg).2 =
        state.get reg >>> (size.bits - amount inst size) <<<
            ((64 - amount inst size) % 64) >>>
            ((64 - amount inst size) % 64) |||
          state.get reg <<< amount inst size := by
    have outer : (size.bits - amount inst size) % 64 =
        size.bits - amount inst size := Nat.mod_eq_of_lt (by omega)
    have inner : amount inst size % 64 = amount inst size :=
      Nat.mod_eq_of_lt (by omega)
    rcases short with rfl | rfl
    all_goals
      simp only [RolImm.rotate, combine, List.cons_append, List.nil_append,
        applyAll_cons, applyAll_nil, apply_srli, apply_slli, apply_or,
        State.set_get, notZero, notT1, reduceCtorEq, if_true, if_false,
        toNat_shamt, outer, inner]
  have narrow := size.bits_le
  rw [left, BitVec.setWidth_or,
    BitVec.setWidth_shiftLeft_of_narrower _ narrow, BitVec.or_comm]
  by_cases zero : amount inst size = 0
  · rw [leftBits, if_pos ⟨short, zero⟩, zero, Nat.sub_zero, Nat.mod_self,
      BitVec.shiftLeft_zero, BitVec.shiftLeft_zero, BitVec.ushiftRight_zero]
  · have cut := BitVec.shiftLeft_ushiftRight_top
      (state.get reg >>> (size.bits - amount inst size))
      (by omega : amount inst size ≤ 64) 0
    rw [Nat.add_zero, BitVec.ushiftRight_zero] at cut
    rw [leftBits, if_neg fun both => zero both.2,
      rotatedBits_left _ _ _ _ (Or.inl rfl) same
        (Or.inl (by omega : _ + (size.bits - amount inst size) = size.bits)),
      Nat.mod_eq_of_lt (by omega : 64 - amount inst size < 64), cut,
      BitVec.setWidth_setWidth_of_le _ narrow,
      BitVec.setWidth_ushiftRight_high _ small.le]

theorem RolCl.rotate_short :
    rolCl.Leaves inst size reg (RolCl.rotate size reg) := by
  obtain ⟨notZero, notT1, notT2, -, -⟩ := rotatable
  obtain ⟨clNotZero, clNotT1, -, clNotT3, -⟩ := rotatable_cl
  intro pc state
  have narrow := size.bits_le
  have below := short.bits_lt
  have same : rolCl.amountOf inst size (state.get cl) =
      (state.get cl).toNat % size.bits := amountOf_eq inst size _
  have small := Nat.mod_lt (state.get cl).toNat size.bits_pos
  let value := (state.get reg).setWidth size.bits
  have left : (applyAll pc state (RolCl.rotate size reg).1).get
      (RolCl.rotate size reg).2 =
        value.setWidth 64 <<< ((state.get cl).toNat % size.bits) |||
          value.setWidth 64 <<< ((state.get cl).toNat % size.bits) >>>
            size.bits := by
    have mask := short.shiftAmount_mask (state.get cl)
    rcases short with rfl | rfl
    all_goals
      simp only [RolCl.rotate, applyAll_append, applyAll_clearUpper,
        applyAll_cons, applyAll_nil, apply_andi, apply_sll, apply_srli,
        apply_or, State.set_get, clNotZero, clNotT1, reduceCtorEq, if_true,
        if_false, toNat_shamt, mask]
      rfl
  rw [left, BitVec.setWidth_or,
    BitVec.setWidth_shiftLeft_of_narrower _ narrow,
    BitVec.setWidth_shiftLeft_ushiftRight _ small.le (by omega),
    BitVec.setWidth_setWidth_of_le _ narrow, BitVec.setWidth_eq]
  exact (rotatedBits_left _ _ _ _ (Or.inr rfl) same (Or.inl (by omega))).symm

theorem RorImm.rotate_short :
    rorImm.Leaves inst size reg (RorImm.rotate inst size reg) := by
  obtain ⟨notZero, notT1, notT2, -, -⟩ := rotatable
  intro pc state
  have narrow := size.bits_le
  have small := amount_lt inst size
  have below := short.bits_lt
  have same : rorImm.amountOf inst size (state.get cl) = amount inst size :=
    amountOf_eq inst size _
  have right : (applyAll pc state (RorImm.rotate inst size reg).1).get
      (RorImm.rotate inst size reg).2 =
        state.get reg <<< (size.bits - amount inst size) |||
          state.get reg <<< (64 - size.bits) >>>
            (64 - size.bits + amount inst size) := by
    have outer : (size.bits - amount inst size) % 64 =
        size.bits - amount inst size := Nat.mod_eq_of_lt (by omega)
    have upper : (64 - size.bits) % 64 = 64 - size.bits :=
      Nat.mod_eq_of_lt (by omega)
    have whole : (64 - size.bits + amount inst size) % 64 =
        64 - size.bits + amount inst size := Nat.mod_eq_of_lt (by omega)
    rcases short with rfl | rfl
    all_goals
      simp only [RorImm.rotate, combine, List.cons_append, List.nil_append,
        applyAll_cons, applyAll_nil, apply_srli, apply_slli, apply_or,
        State.set_get, notZero, notT1, reduceCtorEq, if_true, if_false,
        toNat_shamt, outer, upper, whole]
  rw [right, BitVec.shiftLeft_ushiftRight_top _ narrow, BitVec.setWidth_or,
    BitVec.setWidth_shiftLeft_of_narrower _ narrow,
    BitVec.setWidth_setWidth_of_le _ narrow, BitVec.setWidth_eq]
  exact (rotatedBits_right _ _ _ _ (Or.inl rfl) same (Or.inl (by omega))).symm

theorem RorCl.rotate_short :
    rorCl.Leaves inst size reg (RorCl.rotate size reg) := by
  obtain ⟨notZero, notT1, notT2, -, notT4⟩ := rotatable
  obtain ⟨clNotZero, clNotT1, clNotT2, -, clNotT4⟩ := rotatable_cl
  intro pc state
  have narrow := size.bits_le
  let value := (state.get reg).setWidth size.bits
  have left : (applyAll pc state (RorCl.rotate size reg).1).get
      (RorCl.rotate size reg).2 =
        state.get reg >>> shiftAmount (state.get cl) |||
          value.setWidth 64 <<<
            shiftAmount (BitVec.ofNat 64 size.bits - state.get cl) := by
    rcases short with rfl | rfl
    all_goals
      simp only [RorCl.rotate, combine, applyAll_append, applyAll_opposite,
        applyAll_clearUpper, applyAll_cons, applyAll_nil, apply_sll, apply_srl,
        apply_or, State.set_get, notZero, notT1, notT2, notT4, clNotZero,
        clNotT1, clNotT2, clNotT4, reduceCtorEq, if_true, if_false]
      rfl
  rw [left, leftBits, if_pos short, BitVec.setWidth_or, BitVec.or_comm,
    BitVec.setWidth_shiftLeft_of_narrower _ narrow,
    BitVec.setWidth_setWidth_of_le _ narrow, BitVec.setWidth_eq]

end Short

/-! ### All rotations -/

theorem rotate_leaves (operation : Rotation) :
    operation.Leaves inst inst.destinationSize reg
      (operation.rotate inst reg) := by
  by_cases short : IsShort inst.destinationSize
  · cases operation with
    | rolImm => exact RolImm.rotate_short inst rotatable short
    | rolCl => exact RolCl.rotate_short inst rotatable short
    | rorImm => exact RorImm.rotate_short inst rotatable short
    | rorCl => exact RorCl.rotate_short inst rotatable short
  · cases operation with
    | rolImm => exact RolImm.rotate_long inst rotatable short
    | rolCl => exact RolCl.rotate_long inst rotatable short
    | rorImm => exact RorImm.rotate_long inst rotatable short
    | rorCl => exact RorCl.rotate_long inst rotatable short

omit rotatable in
/-- The register with the result of a rotation. -/
theorem rotate_result (operation : Rotation) :
    (operation.rotate inst reg).2 =
      if IsShort inst.destinationSize then .t1 else reg := by
  cases operation <;> cases size : inst.destinationSize <;>
    simp [rotate, RolImm.rotate, RolCl.rotate, RorImm.rotate, RorCl.rotate,
      combine, IsShort, size]

omit rotatable in
/-- The register itself is written if it has the result. -/
theorem rotate_computes (operation : Rotation) :
    ComputesInto
      ((if IsShort inst.destinationSize then [] else [reg]) ++
        [.t1, .t2, .t3, .t4])
      (operation.rotate inst reg).1 := by
  cases operation <;> cases size : inst.destinationSize
  all_goals
    simp only [rotate, RolImm.rotate, RolCl.rotate, RorImm.rotate,
      RorCl.rotate, combine, clearUpper, opposite, size, List.cons_append,
      List.nil_append]
    repeat' first
      | exact ComputesInto.nil
      | refine ComputesInto.cons_iff.mpr
          ⟨Inst.computesInto_of_target rfl rfl (by simp [IsShort]), ?_⟩

end Code

/-! ## Operands that are rotated right -/

/-- A rotation by nothing is one by the whole width. -/
theorem rotateRight_width {width : Nat} (value : BitVec width) :
    value.rotateRight width = value.rotateLeft 0 := by
  rw [← BitVec.or_shifts_eq_rotateLeft value (Or.inl (Nat.zero_add width)),
    ← BitVec.or_shifts_eq_rotateRight value (Or.inl (Nat.zero_add width))]

/-- The amount of a rotation to the right by `cl` is that of the shift. -/
theorem rotatedBits_rorCl
    (inst : Instruction)
    {size : OperandSize}
    (short : IsShort size)
    (word count : Word) :
    rorCl.rotatedBits inst size count (word.setWidth size.bits) =
      (word.setWidth size.bits).rotateRight (shiftAmount count) := by
  have reduced : (rorCl.amountOf inst size count) =
      shiftAmount count % size.bits := by
    rw [amountOf_eq, shiftAmount]
    refine (Nat.mod_mod_of_dvd _ ?_).symm
    rcases short with rfl | rfl <;> decide
  rw [rotatedBits, reduced, BitVec.rotateRight_mod_eq_rotateRight]

/-- The shift in the opposite direction moves everything out if the amount is
more than the width. -/
theorem shiftAmount_opposite
    {size : OperandSize}
    (short : IsShort size)
    (count : Word) :
    if shiftAmount count ≤ size.bits then
      shiftAmount (BitVec.ofNat 64 size.bits - count) =
        size.bits - shiftAmount count
    else size.bits ≤ shiftAmount (BitVec.ofNat 64 size.bits - count) := by
  have bound := count.isLt
  have below := short.bits_lt
  simp only [shiftAmount, toNat_opposite]
  split <;> omega

/-- What a rotation leaves is right if and only if it brings in the right
bits. -/
theorem leftBits_eq_iff
    (operation : Rotation)
    (inst : Instruction)
    (size : OperandSize)
    (word count : Word) :
    operation.leftBits inst size word count =
        operation.rotatedBits inst size count (word.setWidth size.bits) ↔
      operation.BringsRight inst size word count := by
  cases operation with
  | rolCl => exact iff_of_true rfl trivial
  | rorImm => exact iff_of_true rfl trivial
  | rolImm =>
      by_cases both : IsShort size ∧ amount inst size = 0
      · have zero : rolImm.amountOf inst size count = 0 :=
          (amountOf_eq inst size count).trans both.2
        have whole := BitVec.setWidth_ushiftRight_or_eq_rotateRight_iff word
          (le_refl size.bits)
        rw [Nat.sub_self, rotateRight_width] at whole
        simp only [leftBits, both.1, both.2, and_self, if_true, rotatedBits,
          zero, BringsRight, forall_const]
        exact whole
      · rw [leftBits, if_neg both]
        exact iff_of_true rfl fun short zero => absurd ⟨short, zero⟩ both
  | rorCl =>
      by_cases short : IsShort size
      · have opposite := shiftAmount_opposite short count
        rw [rotatedBits_rorCl inst short, leftBits, if_pos short]
        by_cases inside : shiftAmount count ≤ size.bits
        · rw [if_pos inside] at opposite
          rw [opposite,
            BitVec.setWidth_ushiftRight_or_eq_rotateRight_iff word inside]
          simp only [BringsRight, short, inside, if_true, forall_const]
          rfl
        · rw [if_neg inside] at opposite
          have nothing : word.setWidth size.bits <<<
              shiftAmount (BitVec.ofNat 64 size.bits - count) =
                BitVec.ofNat size.bits 0 :=
            BitVec.shiftLeft_eq_zero opposite
          rw [nothing, BitVec.zero_or,
            BitVec.setWidth_ushiftRight_eq_rotateRight_iff]
          simp only [BringsRight, short, inside, if_false, forall_const]
      · rw [leftBits, if_neg short]
        exact iff_of_true rfl fun other => absurd other short

end Rotation

/-! ## Rotations -/

namespace Instruction

/-- The destination is in a register or, without an override, in the
memory. -/
structure PlainDestination (inst : Instruction) : Prop where
  rm : (inst.getOperand 0).isRm = true
  valid : (inst.getOperand 0).valid = true
  noOverride : (inst.getOperand 0).isMem = true -> inst.NoOverride

end Instruction

namespace Rotation

section Register

variable (symbols : HostSymbols) {inst : Instruction}
variable (operation : Rotation)
variable {size : OperandSize} {register : Fadec.Register}
variable {type : Fadec.RegisterType}
variable (destination : inst.getOperand 0 = .reg size register type)
variable (valid : (Operand.reg size register type).valid = true)

theorem rotatable_of_isGuest
    {reg : Register}
    (guest : isGuest reg = true) : Rotatable reg :=
  ⟨ne_of_isGuest guest (by decide), ne_of_isGuest guest (by decide),
    ne_of_isGuest guest (by decide), ne_of_isGuest guest (by decide),
    ne_of_isGuest guest (by decide)⟩

/-- A long operand is in its register already. -/
theorem moveToRegister_self
    {size : OperandSize}
    (long : ¬ IsShort size)
    {dst : Register}
    (nonzero : dst ≠ .zero)
    (old : Word)
    (pc : Word)
    (state : State) :
    (applyAll pc state
        (moveToRegister dst dst (RegisterAccess.ofSize size) .t6
          (dst == dst))).get dst =
      (RegisterAccess.ofSize size).merge old (state.get dst) := by
  obtain ⟨-, -, half, -, -⟩ := shift_amounts
  cases size with
  | byte => exact absurd (Or.inl rfl) long
  | word => exact absurd (Or.inr rfl) long
  | dword =>
      simp only [RegisterAccess.ofSize, moveToRegister, applyAll_cons,
        applyAll_nil, apply_slli, apply_srli, State.set_get_self _ _ nonzero,
        half]
      exact merge_dword _ _
  | qword =>
      simp [RegisterAccess.ofSize, moveToRegister, RegisterAccess.merge]

/-- A short operand is moved to its register from a temporary. -/
theorem moved_value
    (short : IsShort inst.destinationSize)
    {work dst : Register}
    (rotatable : Rotatable work)
    (guest : isGuest dst = true)
    {access : RegisterAccess}
    (bits : access.bits = inst.destinationSize.bits)
    (pc : Word)
    (state : State) :
    (applyAll pc state ((operation.rotate inst work).1 ++
        moveToRegister dst (operation.rotate inst work).2 access .t6
          false)).get dst =
      access.merge (state.get dst)
        ((operation.leftBits inst inst.destinationSize (state.get work)
          (state.get cl)).setWidth 64) := by
  have result := @rotate_result inst work operation
  have computes := @rotate_computes inst work operation
  have leaves := rotate_leaves inst rotatable operation pc state
  rw [if_pos short] at result computes
  have notT1 : dst ≠ .t1 := ne_of_isGuest guest (by decide)
  have outside : dst ∉ [] ++ [.t1, .t2, .t3, .t4] := by
    simp [notT1, ne_of_isGuest guest (by decide : isGuest .t2 = false),
      ne_of_isGuest guest (by decide : isGuest .t3 = false),
      ne_of_isGuest guest (by decide : isGuest .t4 = false)]
  rw [applyAll_append, result,
    moveToRegister_value _ _ (ne_of_isGuest guest (by decide)) (by decide)
      (ne_of_isGuest guest (by decide)).symm (by decide)
      (fun _ => notT1.symm),
    computes.get _ _ outside]
  rw [result] at leaves
  apply access.merge_congr
  rw [bits, leaves, setWidth_bits]

include destination valid

/-- The bits that are left are merged into the register. -/
theorem generateRegister_value (pc : Word) (state : State) :
    (applyAll pc state
        (operation.generateRegister inst size register type)).get
        (mapRegType register type) =
      (RegisterAccess.ofType size type).merge
        (state.get (mapRegType register type))
        ((operation.leftBits inst inst.destinationSize (inst.loadedWord state)
          (state.get cl)).setWidth 64) := by
  obtain ⟨eight, -, -, -, -⟩ := shift_amounts
  have guest := isGuest_mapRegType register type
  have own : inst.destinationSize = size := by
    rw [destinationSize, destination]
    rfl
  have access : (RegisterAccess.ofType size type).bits =
      inst.destinationSize.bits := by
    rw [own]
    exact registerAccess_bits valid
  cases type with
  | gph =>
      have byte : size = .byte := by
        simp only [Operand.valid, Bool.and_eq_true, beq_iff_eq] at valid
        exact valid.1.1
      have short : IsShort inst.destinationSize := Or.inl (own.trans byte)
      let loaded := state.set .t0 (state.get (mapRegHigh register) >>> 8)
      have word : loaded.get .t0 = inst.loadedWord state := by
        simp only [loaded, loadedWord, destination]
        exact State.set_get_self _ _ (by decide)
      have moved := @moved_value inst operation short .t0
        (mapRegHigh register) (by decide) guest .hbyte access (pc + 4) loaded
      have own : loaded.get (mapRegHigh register) =
          state.get (mapRegHigh register) :=
        State.set_get_of_ne _ _ (ne_of_isGuest guest (by decide))
      have count : loaded.get cl = state.get cl :=
        State.set_get_of_ne _ _ (by decide)
      rw [word, own, count] at moved
      simp only [generateRegister, applyAll_cons, apply_srli, eight]
      exact moved
  | gpl =>
      have word : state.get (mapReg register) = inst.loadedWord state := by
        rw [loadedWord, destination]
      have rotatable : Rotatable (mapReg register) :=
        rotatable_of_isGuest guest
      rw [← word]
      by_cases short : IsShort inst.destinationSize
      · have result := @rotate_result inst (mapReg register) operation
        rw [if_pos short] at result
        have different : (mapReg register == Register.t1) = false :=
          beq_false_of_ne (ne_of_isGuest guest (by decide))
        have moved := @moved_value inst operation short _ _ rotatable guest
          (RegisterAccess.ofSize size) access pc state
        simp only [generateRegister]
        rw [result, different, ← result]
        exact moved
      · have result := @rotate_result inst (mapReg register) operation
        rw [if_neg short] at result
        have leaves := rotate_leaves inst rotatable operation pc state
        rw [result] at leaves
        rw [own] at short
        simp only [generateRegister]
        rw [result, applyAll_append]
        refine (moveToRegister_self short (ne_of_isGuest guest (by decide))
          (state.get (mapReg register)) _ _).trans ?_
        apply RegisterAccess.merge_congr
        rw [show (RegisterAccess.ofSize size).bits = _ from access,
          setWidth_bits]
        exact leaves

omit destination valid in
theorem generateRegister_computes :
    ComputesInto [mapRegType register type, .t0, .t1, .t2, .t3, .t4, .t6]
      (operation.generateRegister inst size register type) := by
  have moves := fun src access cleared =>
    @moveToRegister_computesInto (mapRegType register type) src .t6 access
      cleared
  have rotates := fun reg => @rotate_computes inst reg operation
  cases type with
  | gph =>
      refine ComputesInto.cons_iff.mpr
        ⟨Inst.computesInto_of_target rfl rfl (by simp),
          ComputesInto.append_iff.mpr
            ⟨(rotates .t0).mono ?_, (moves _ _ _).mono (by simp)⟩⟩
      split <;> simp
  | gpl =>
      refine ComputesInto.append_iff.mpr
        ⟨(rotates _).mono ?_, (moves _ _ _).mono (by simp)⟩
      split <;> simp [mapRegType]

end Register

/-- A rotation does what it should: the address of an operand in the memory
fits, and the bits that are brought in are right. -/
structure Holds
    (operation : Rotation)
    (inst : Instruction)
    (state : State) : Prop where
  address : (inst.getOperand 0).isMem = true ->
    inst.AddressFits (inst.getOperand 0) state
  bits : operation.BringsRight inst inst.destinationSize
    (inst.loadedWord state) (state.get cl)

/-- The flags are reported as unsupported. -/
def reports (symbols : HostSymbols) (inst : Instruction) : List Inst :=
  inst.updateCarryUnsupported (symbols.text "Rotation") .t0 ++
    inst.updateOverflowUnsupported (symbols.text "Rotation") .t0

theorem reports_updates (symbols : HostSymbols) (inst : Instruction) :
    UpdatesFields [.t0] (reports symbols inst) :=
  Updates.append
    (@updateUnsupported_updates inst _ _ carrySlots_describes .carryPtr rfl
      rfl .unsupportedCarry _ .t0)
    (@updateUnsupported_updates inst _ _ overflowSlots_describes .overflowPtr
      rfl rfl .unsupportedOverflow _ .t0)

section Generate

variable (symbols : HostSymbols) {inst : Instruction}
variable (operation : Rotation)
variable (destination : inst.PlainDestination)
variable {env : Environment} (permits : env.PermitsEverything)
variable (state : State)

include destination permits

theorem generate_register_iff
    (isReg : (inst.getOperand 0).isReg = true) :
    let rotated := operation.rotatedBits inst inst.destinationSize
      (state.get cl) (inst.firstBits state)
    inst.ModifiedBy env (operation.generate symbols inst)
        (rotated.setWidth 64) state (fun _ => True) ↔
      operation.Holds inst state := by
  intro rotated
  have valid := destination.valid
  have form : inst.RegisterDestination := ⟨isReg, valid⟩
  obtain ⟨size, register, type, first⟩ := form.destination
  rw [first] at valid
  have code : operation.generate symbols inst =
      operation.generateRegister inst size register type ++
        reports symbols inst := by
    simp only [generate, first, reports, List.append_assoc]
  have guest := isGuest_mapRegType register type
  have outside : ∀ temp, isGuest temp = false -> mapRegType register type ≠
      temp := fun temp notGuest => ne_of_isGuest guest notGuest
  have updates : UpdatesFields
      [mapRegType register type, .t0, .t1, .t2, .t3, .t4, .t6]
      (operation.generate symbols inst) := by
    rw [code]
    exact Updates.append
      (UpdatesFields.computeInto (generateRegister_computes operation))
      ((reports_updates symbols inst).mono (by simp))
  have contextKept : contextAddress ∉
      [mapRegType register type, .t0, .t1, .t2, .t3, .t4, .t6] := by
    rw [List.mem_cons, not_or]
    exact ⟨(outside _ (by decide)).symm, by decide⟩
  let word := (operation.leftBits inst inst.destinationSize
    (inst.loadedWord state) (state.get cl)).setWidth 64
  have registers : ∀ reg, (applyAll env.origin state
      (operation.generate symbols inst)).get (mapReg reg) =
        writtenRegisters (inst.getOperand 0) word state reg := by
    have others : ∀ reg, mapReg reg ≠ mapRegType register type ->
        (applyAll env.origin state (operation.generate symbols inst)).get
          (mapReg reg) = state.get (mapReg reg) :=
      fun reg different => updates.get _ _ (by simp [different])
    rw [first, writtenRegisters_iff others, code, applyAll_append,
      (reports_updates symbols inst).get _ _ (by simp [outside])]
    exact generateRegister_value operation first valid env.origin state
  have agrees := operation.leftBits_eq_iff inst inst.destinationSize
    (inst.loadedWord state) (state.get cl)
  rw [← firstBits_loadedWord form] at agrees
  have widths := modifies_register_iff isReg destination.valid updates
    contextKept registers
    (rotated.setWidth 64)
  simp only [word] at widths
  change _ ↔ BitVec.setWidth inst.destinationSize.bits _ =
    BitVec.setWidth inst.destinationSize.bits _ at widths
  rw [setWidth_bits, setWidth_bits,
    agrees] at widths
  rw [inst.modifiedBy_iff_of_straight permits updates.straight, widths]
  constructor
  · rintro ⟨right, -⟩
    refine ⟨fun isMem => ?_, right⟩
    rw [first] at isMem
    cases isMem
  · intro holds
    exact ⟨holds.bits, trivial⟩

theorem generate_memory_iff
    {size : OperandSize}
    {base : Option Fadec.Register}
    (isMem : inst.getOperand 0 = .mem size base) :
    let rotated := operation.rotatedBits inst inst.destinationSize
      (state.get cl) (inst.firstBits state)
    inst.ModifiedBy env (operation.generate symbols inst)
        (rotated.setWidth 64) state (fun _ => True) ↔
      operation.Holds inst state := by
  intro rotated
  obtain rfl : inst.destinationSize = size := by
    rw [destinationSize, isMem]
    rfl
  have noOverride := destination.noOverride (by rw [isMem]; rfl)
  let result := (operation.rotate inst .t0).2
  let middle := (operation.rotate inst .t0).1
  have suitable : Suitable .t6 .t5 .t6 result [.t0, .t1, .t2, .t3, .t4] := by
    simp only [result, rotate_result]
    split <;> decide
  have updates : UpdatesFields [.t0, .t1, .t2, .t3, .t4] middle := by
    refine UpdatesFields.computeInto ((rotate_computes inst operation).mono ?_)
    split <;> simp
  let modify := modifyMemory inst (inst.getOperand 0) .t6 .t5 .t6 result middle
  have code : operation.generate symbols inst =
      modify ++ reports symbols inst := by
    simp only [generate, modify, modifyMemory, result, middle, isMem, reports,
      List.append_assoc]
  have straight : ∀ written ∈ operation.generate symbols inst,
      written.isStraight = true := by
    intro written member
    rw [code] at member
    rcases List.mem_append.mp member with modifies | reported
    · exact modifyMemory_straight updates _ modifies
    · exact (reports_updates symbols inst).straight _ reported
  let bits := fun loaded => operation.leftBits inst inst.destinationSize
    loaded (state.get cl)
  have computes : ∀ pc before,
      (∀ reg, before.get (mapReg reg) = state.get (mapReg reg)) ->
        ((applyAll pc before middle).get result).setWidth
            inst.destinationSize.bits =
          bits (before.get .t0) := by
    intro pc before same
    have count : before.get cl = state.get cl := same 1
    simp only [bits]
    rw [← count]
    exact rotate_leaves inst (by decide) operation pc before
  have kept : (applyAll env.origin state modify).get contextAddress =
      state.get contextAddress :=
    modifyMemory_get noOverride suitable updates (by decide)
  have loaded : state.mem.load (inst.guestAddress (inst.getOperand 0) state)
      inst.destinationSize.bytes = inst.loadedWord state := by
    rw [loadedWord, isMem]
  have first : (inst.loadedWord state).setWidth inst.destinationSize.bits =
      inst.firstBits state := (firstBits_memory isMem state).symm
  have agrees := operation.leftBits_eq_iff inst inst.destinationSize
    (inst.loadedWord state) (state.get cl)
  rw [first] at agrees
  have modifies := @modifies_memory_iff inst noOverride _ _ _ _ _ suitable _
    updates env.origin state _ _ isMem bits computes (rotated.setWidth 64)
  simp only [bits] at modifies
  rw [loaded, setWidth_bits, agrees] at modifies
  rw [inst.modifiedBy_iff_of_straight permits straight, code,
    inst.modifies_append_iff (reports_updates symbols inst) (by decide) (by decide) kept,
    modifies]
  constructor
  · rintro ⟨⟨fits, right⟩, -⟩
    exact ⟨fun _ => fits, right⟩
  · intro holds
    exact ⟨⟨holds.address (by rw [isMem]; rfl), holds.bits⟩, trivial⟩

/-- A rotation leaves the rotated operand of x86 in its destination and changes
nothing else if and only if the bits that it brings in are right. -/
theorem generate_rotates_iff :
    inst.ModifiedBy env (operation.generate symbols inst)
        ((operation.rotatedBits inst inst.destinationSize (state.get cl)
          (inst.firstBits state)).setWidth 64) state (fun _ => True) ↔
      operation.Holds inst state := by
  have rm := destination.rm
  cases first : inst.getOperand 0 with
  | reg size register type =>
      exact generate_register_iff symbols operation destination permits state
        (by rw [first]; rfl)
  | mem size base =>
      exact generate_memory_iff symbols operation destination permits state
        first
  | imm size =>
      rw [first] at rm
      cases rm
  | none =>
      rw [first] at rm
      cases rm

end Generate

/-- `ror al, cl` -/
def rorAl : Instruction :=
  (InstructionClass.rotation .rorCl).construct
    { type := .rorCl, operands := [.reg .byte 0 .gpl] }

theorem rorAl_plainDestination : rorAl.PlainDestination where
  rm := rfl
  valid := rfl
  noOverride _ := by exact ⟨by decide, by decide⟩

/-- The lowest bit above the operand is that which is rotated to the top, and
the next one is another. -/
theorem generate_rotates_iff_rorAl :
    let state := (zeroState.set (mapReg 0) 0x187).set (mapReg 1) 1
    rorAl.ModifiedBy Stub.environment (rorCl.generate sampleSymbols rorAl)
      ((rorCl.rotatedBits rorAl rorAl.destinationSize (state.get cl)
        (rorAl.firstBits state)).setWidth 64)
      state (fun _ => True) :=
  (generate_rotates_iff sampleSymbols .rorCl rorAl_plainDestination
    (fun _ _ => rfl) _).mpr
      ⟨fun isMem => absurd isMem (by decide),
        (rorCl.leftBits_eq_iff rorAl rorAl.destinationSize _ _).mp
          (by decide +kernel)⟩

/-- The lowest bit above the operand is set, and the amount is one. -/
def ninthBitState : State :=
  (zeroState.set (mapReg 0) 0x100).set (mapReg 1) 1

/-- The bit is rotated into the operand. -/
theorem rorAl_bringsBit :
    ¬ rorAl.ModifiedBy Stub.environment (rorCl.generate sampleSymbols rorAl)
      ((rorCl.rotatedBits rorAl rorAl.destinationSize (ninthBitState.get cl)
        (rorAl.firstBits ninthBitState)).setWidth 64)
      ninthBitState (fun _ => True) := by
  intro modified
  have holds := (generate_register_iff sampleSymbols .rorCl
    rorAl_plainDestination (fun _ _ => rfl) ninthBitState rfl).mp modified
  have left := (rorCl.leftBits_eq_iff rorAl rorAl.destinationSize
    (rorAl.loadedWord ninthBitState) (ninthBitState.get cl)).mpr holds.bits
  revert left
  decide +kernel

end Rotation
end Oxtra

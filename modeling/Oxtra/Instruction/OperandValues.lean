import Oxtra.Helper.Parts
import Oxtra.Instruction.Accesses

/-!
# Values of operands

The value that an operand has in some state, and what the code that loads it
or writes it leaves in the registers.  Only the bits of the operand size
count: the others of a register may be anything.
-/

namespace Oxtra

open RiscV
open Encoding
open Helper
open Fadec (Operand OperandSize)

/-! ## Loads from registers -/

namespace Helper

variable {src temp : Register} (pc : Word) (state : State)

theorem loadFromRegister_computesInto
    (access : RegisterAccess)
    (modifiable fullLoad signExtend : Bool) :
    ComputesInto [temp]
      (loadFromRegister src access temp modifiable fullLoad signExtend).1 := by
  unfold loadFromRegister
  repeat' split
  all_goals
    repeat' first
      | exact ComputesInto.nil
      | refine ComputesInto.cons_iff.mpr
          ⟨Inst.computesInto_of_target (by cases signExtend <;> rfl)
            (by cases signExtend <;> rfl) (by simp), ?_⟩

/-- The value is in the temporary or in the register itself. -/
theorem loadFromRegister_register
    (access : RegisterAccess)
    (modifiable fullLoad signExtend : Bool) :
    (loadFromRegister src access temp modifiable fullLoad signExtend).2 =
        temp ∨
      (loadFromRegister src access temp modifiable fullLoad signExtend).2 =
        src := by
  unfold loadFromRegister
  repeat' split
  all_goals simp

/-- A part that is not loaded fully is in the low bits. -/
theorem loadFromRegister_low
    (tempNonzero : temp ≠ .zero)
    (access : RegisterAccess)
    (modifiable signExtend : Bool) :
    ((applyAll pc state
        (loadFromRegister src access temp modifiable false signExtend).1).get
      (loadFromRegister src access temp modifiable false signExtend).2).setWidth
        access.bits =
      (access.part (state.get src)).setWidth access.bits := by
  obtain ⟨eight, -, -, -, -⟩ := shift_amounts
  by_cases high : access = .hbyte
  · subst high
    simp only [loadFromRegister, Bool.false_eq_true, if_false, if_true,
      applyAll_cons, applyAll_nil, apply_srli,
      State.set_get_self _ _ tempNonzero, eight]
    apply BitVec.eq_of_getLsbD_eq
    intro index inside
    simp only [RegisterAccess.bits] at inside
    simp [RegisterAccess.part, RegisterAccess.bits, inside]
  · rw [RegisterAccess.setWidth_part high]
    simp only [loadFromRegister, Bool.false_eq_true, if_false, if_neg high]
    split
    · simp only [applyAll_cons, applyAll_nil, apply_mv,
        State.set_get_self _ _ tempNonzero]
    · rfl

end Helper

/-! ## Operands -/

namespace Instruction

variable (inst : Instruction) (pc : Word) (state : State)

/-- The part of its register that an operand is. -/
def registerAccess : Operand -> RegisterAccess
  | .reg size _ type => RegisterAccess.ofType size type
  | op => RegisterAccess.ofSize op.size

/-- The value of an operand, in the low bits of a word. -/
def operandValue (op : Operand) (state : State) : Word :=
  match op with
  | .reg _ register type =>
      (registerAccess op).part (state.get (mapRegType register type))
  | .mem size _ => state.mem.load (inst.guestAddress op state) size.bytes
  | .imm _ => inst.immediate
  | .none => 0

/-- The bits of an operand of some size. -/
def operandBits (op : Operand) (size : OperandSize) (state : State) :
    BitVec size.bits :=
  (inst.operandValue op state).setWidth size.bits

/-- A long register is no high register. -/
theorem low_of_valid
    {size : OperandSize}
    {register : Fadec.Register}
    {type : Fadec.RegisterType}
    (valid : (Operand.reg size register type).valid = true)
    (long : 4 ≤ size.bytes) : type = .gpl := by
  cases type with
  | gpl => rfl
  | gph =>
      simp only [Operand.valid, Bool.and_eq_true, beq_iff_eq] at valid
      rw [valid.1.1] at long
      exact absurd long (by decide)

/-- A valid operand has as many bits as its size says. -/
theorem registerAccess_bits
    {op : Operand}
    (valid : op.valid = true) :
    (registerAccess op).bits = op.size.bits := by
  cases op with
  | reg size register type =>
      cases type with
      | gpl => cases size <;> rfl
      | gph =>
          simp only [Operand.valid, Bool.and_eq_true, beq_iff_eq] at valid
          rw [Operand.size, valid.1.1]
          rfl
  | none => rfl
  | mem size base => cases size <;> rfl
  | imm size => cases size <;> rfl

theorem not_isMem
    {op : Operand}
    (valued : op.isReg = true ∨ op.isImm = true) :
    op.isMem = false := by
  cases op <;> simp [Operand.isReg, Operand.isImm, Operand.isMem] at valued ⊢

theorem translateOperand_computesInto
    {op : Operand}
    (notMem : op.isMem = false)
    (tempA tempB : Register)
    (modifiable fullLoad signExtend destination : Bool) :
    ComputesInto [tempA]
      (inst.translateOperand op tempA tempB modifiable fullLoad signExtend
        destination).code := by
  cases op with
  | none => exact ComputesInto.nil
  | mem size base => cases notMem
  | imm size => exact loadImmediate_computesInto _ _
  | reg size register type =>
      simp only [translateOperand]
      split
      · exact ComputesInto.nil
      · exact loadFromRegister_computesInto _ _ _ _

/-- The value of an operand is in the temporary or in its own register. -/
theorem translateOperand_register
    {op : Operand}
    (valued : op.isReg = true ∨ op.isImm = true)
    (tempA tempB : Register)
    (modifiable fullLoad signExtend destination : Bool) :
    let value := (inst.translateOperand op tempA tempB modifiable fullLoad
      signExtend destination).value
    value = tempA ∨ isGuest value = true := by
  cases op with
  | none => simp [Operand.isReg, Operand.isImm] at valued
  | mem size base => simp [Operand.isReg, Operand.isImm] at valued
  | imm size => exact Or.inl rfl
  | reg size register type =>
      simp only [translateOperand]
      split
      · exact Or.inr (isGuest_mapRegType register type)
      · rcases loadFromRegister_register
            (RegisterAccess.ofType size type) modifiable fullLoad signExtend
          with temporary | own
        · exact Or.inl temporary
        · refine Or.inr ?_
          rw [own]
          exact isGuest_mapRegType register type

/-- Without a register and without an operand the value is in the temporary or it
is zero. -/
theorem translateOperand_register_or_zero
    (op : Operand)
    (tempA tempB : Register)
    (modifiable fullLoad signExtend destination : Bool) :
    let value := (inst.translateOperand op tempA tempB modifiable fullLoad
      signExtend destination).value
    value = tempA ∨ isGuest value = true ∨ value = .zero := by
  cases op with
  | none => exact Or.inr (Or.inr rfl)
  | mem size base => exact Or.inl rfl
  | imm size => exact Or.inl rfl
  | reg size register type =>
      exact (inst.translateOperand_register (Or.inl rfl) tempA tempB modifiable
        fullLoad signExtend destination).imp_right Or.inl

/-- The bits of an immediate that is cut to its size. -/
theorem maskedImmediate_setWidth (size : OperandSize) :
    (inst.maskedImmediate size false false).setWidth size.bits =
      inst.immediate.setWidth size.bits := by
  unfold maskedImmediate
  split
  · apply BitVec.eq_of_getLsbD_eq
    intro index inside
    have narrow : size.bits ≤ 64 := by cases size <;> decide
    simp only [BitVec.getLsbD_setWidth, BitVec.getLsbD_and,
      BitVec.getLsbD_ushiftRight, BitVec.getLsbD_allOnes]
    have low : 64 - size.bits + index < 64 := by omega
    simp [low]
  · rfl

/-- An operand that is no memory is loaded from where it is. -/
theorem translateOperand_value
    {op : Operand}
    (valued : op.isReg = true ∨ op.isImm = true)
    (valid : op.valid = true)
    {tempA : Register}
    (tempNonzero : tempA ≠ .zero)
    (tempB : Register)
    (modifiable destination : Bool) :
    let loaded := inst.translateOperand op tempA tempB modifiable false false
      destination
    ((applyAll pc state loaded.code).get loaded.value).setWidth
        op.size.bits =
      inst.operandBits op op.size state := by
  cases op with
  | none => simp [Operand.isReg, Operand.isImm] at valued
  | mem size base => simp [Operand.isReg, Operand.isImm] at valued
  | imm size =>
      simp only [translateOperand, applyAll_loadImmediate tempNonzero,
        State.set_get_self _ _ tempNonzero]
      exact inst.maskedImmediate_setWidth size
  | reg size register type =>
      have bits := registerAccess_bits valid
      rw [operandBits, ← bits]
      simp only [translateOperand]
      split
      · rename_i long
        refine (RegisterAccess.setWidth_part ?_ _).symm
        intro high
        rw [high] at bits
        have wide : 4 ≤ size.bytes := long.2.1
        simp only [RegisterAccess.bits, Operand.size,
          OperandSize.bits] at bits
        omega
      · exact loadFromRegister_low pc state tempNonzero _ modifiable false

/-! ## Destinations in registers -/

/-- The registers of the guest after an operand is written. -/
def writtenRegisters
    (op : Operand)
    (value : Word)
    (state : State)
    (reg : Fadec.Register) : Word :=
  match op with
  | .reg _ register type =>
      if mapReg reg = mapRegType register type then
        (registerAccess op).merge (state.get (mapReg reg)) value
      else
        state.get (mapReg reg)
  | _ => state.get (mapReg reg)

/-- The register of an operand decides. -/
theorem writtenRegisters_iff
    {size : OperandSize}
    {register : Fadec.Register}
    {type : Fadec.RegisterType}
    {before after : State}
    (others : ∀ reg, mapReg reg ≠ mapRegType register type ->
      after.get (mapReg reg) = before.get (mapReg reg))
    (value : Word) :
    (∀ reg, after.get (mapReg reg) =
        writtenRegisters (.reg size register type) value before reg) ↔
      after.get (mapRegType register type) =
        (RegisterAccess.ofType size type).merge
          (before.get (mapRegType register type)) value := by
  obtain ⟨own, mapped⟩ : ∃ reg, mapReg reg = mapRegType register type := by
    cases type with
    | gpl => exact ⟨register, rfl⟩
    | gph => exact ⟨register - 4, rfl⟩
  constructor
  · intro written
    have value := written own
    simp only [writtenRegisters, mapped, if_true] at value
    exact value
  · intro value reg
    simp only [writtenRegisters]
    split
    · rename_i same
      rw [same, value]
      rfl
    · rename_i different
      exact others reg different

/-- The register that an operand in a register is loaded into when it is the
destination. -/
def destinationRegister (op : Operand) (temp : Register) : Register :=
  match op with
  | .reg size register type =>
      if 4 ≤ size.bytes then mapRegType register type else temp
  | _ => temp

theorem translateOperand_destination
    {op : Operand}
    (isReg : op.isReg = true)
    (tempA tempB : Register) :
    (inst.translateOperand op tempA tempB true false false true).value =
      destinationRegister op tempA := by
  cases op with
  | reg size register type =>
      by_cases long : 4 ≤ size.bytes
      · simp [translateOperand, destinationRegister, long]
      · simp only [translateOperand, destinationRegister, long, false_and,
          and_false, if_false, loadFromRegister, Bool.false_eq_true, if_true]
        split <;> rfl
  | _ => cases isReg

theorem translateDestination_computesInto
    {size : OperandSize}
    {register : Fadec.Register}
    {type : Fadec.RegisterType}
    (first : inst.getOperand 0 = .reg size register type)
    (reg address tempA tempB : Register) :
    ComputesInto [mapRegType register type, tempA]
      (inst.translateDestination reg address tempA tempB) := by
  simp only [translateDestination, first]
  split
  · exact moveToRegister_computesInto _ _
  · exact ComputesInto.nil

/-- The destination is written from the register that it was loaded into. -/
theorem translateDestination_registers
    {op : Operand}
    (first : inst.getOperand 0 = op)
    (isReg : op.isReg = true)
    (valid : op.valid = true)
    {temp tempA : Register}
    (scratch : isGuest temp = false)
    (scratchA : isGuest tempA = false)
    (nonzeroA : tempA ≠ .zero)
    (different : tempA ≠ temp)
    (address tempB : Register)
    (reg : Fadec.Register) :
    (applyAll pc state
        (inst.translateDestination (destinationRegister op temp) address
          tempA tempB)).get (mapReg reg) =
      writtenRegisters op (state.get (destinationRegister op temp)) state
        reg := by
  cases op with
  | reg size register type =>
      have computes := inst.translateDestination_computesInto first
        (destinationRegister (.reg size register type) temp) address tempA
        tempB
      simp only [writtenRegisters]
      split
      · rename_i same
        rw [same]
        have guest := isGuest_mapRegType register type
        by_cases qword : size = .qword
        · subst qword
          have low := low_of_valid valid (by decide)
          subst low
          simp only [translateDestination, first, destinationRegister,
            OperandSize.bytes, Nat.reduceLeDiff, if_true, ne_eq,
            not_true_eq_false, or_self, if_false, applyAll_nil]
          rfl
        · simp only [translateDestination, first, ne_eq, qword,
            not_false_eq_true, true_or, if_true]
          apply moveToRegister_value
          · exact ne_of_isGuest guest (by decide)
          · exact nonzeroA
          · exact (ne_of_isGuest guest scratchA).symm
          · simp only [destinationRegister]
            split
            · exact (ne_of_isGuest guest scratchA).symm
            · exact different
          · intro short
            have notLong : ¬ 4 ≤ size.bytes := by
              intro long
              have bits := registerAccess_bits valid
              rw [show registerAccess (.reg size register type) = .lbyte from
                short] at bits
              simp only [RegisterAccess.bits, Operand.size,
                OperandSize.bits] at bits
              omega
            rw [destinationRegister, if_neg notLong]
            exact (ne_of_isGuest guest scratch).symm
      · rename_i other
        exact computes.get _ _ (by simp [other, scratchA])
  | _ => cases isReg

end Instruction
end Oxtra
